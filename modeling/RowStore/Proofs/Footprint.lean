import RowStore.Proofs.Sharing
import RowStore.Proofs.Page.Acceptance

/-!
# Bytes and memory

A value that is read takes at most 24 times as much memory as it took bytes, whatever the bytes
are, and so does a page. The other way round, a value takes at most as many bytes as it takes
memory, and five more for each row in it (`footprint_bounded`).
-/

namespace RowStore

namespace Value

/-- The part of a value that a path of column numbers leads to. -/
def follow? : Value → List Nat → Option Value
  | x, [] => some x
  | row _ xs, index :: path => do follow? (← xs[index]?) path
  | _, _ :: _ => none

mutual

theorem memory_le_encoding : ∀ x : Value, x.memory ≤ 24 * x.encoding.length
  | int n => by
    have hPos := Varint.length_encode_pos n.toUInt32.toNat
    rw [memory, encoding]
    omega
  | long n => by
    have hPos := Varint.length_encode_pos n.toUInt64.toNat
    rw [memory, encoding]
    omega
  | string text => by
    have hPos := Varint.length_encode_pos text.encode.bytes.length
    rw [memory, heapOverhead, encoding, Blob.encoding, List.length_append, ← text.length_encode]
    omega
  | bytes blob => by
    have hPos := Varint.length_encode_pos blob.bytes.length
    rw [memory, heapOverhead, encoding, Blob.encoding, List.length_append]
    omega
  | row _ xs => by
    have hColumns := memoryAll_le_encodingAll xs
    rw [memory, encoding, List.length_append]
    omega

theorem memoryAll_le_encodingAll : ∀ xs : List Value,
    memoryAll xs ≤ 24 * (encodingAll xs).length
  | [] => Nat.le_refl _
  | x :: xs => by
    have hFirst := memory_le_encoding x
    have hRest := memoryAll_le_encodingAll xs
    rw [memoryAll, encodingAll, List.length_append]
    omega

end

end Value

namespace Schema

variable {schema : Schema} {columns : List Schema} {xs : List Value} {x y : Value}

mutual

/-- The numbers of columns are all that is written and takes no memory. -/
theorem length_encoding_le : ∀ {schema : Schema} {x : Value}, Conforms schema x →
    x.encoding.length ≤ x.memory + 5 * x.rows.length
  | .int, .int n, _ => by
    have hLength := Varint.length_encode_le32 n.toUInt32.toNat_lt_size
    rw [Varint.maxLength32] at hLength
    rw [Value.encoding, Value.memory]
    omega
  | .long, .long n, _ => by
    have hLength := Varint.length_encode_le64 n.toUInt64.toNat_lt_size
    rw [Varint.maxLength64] at hLength
    rw [Value.encoding, Value.memory]
    omega
  | .string, .string text, _ => by
    have hLength := Varint.length_encode_le64 text.encode.length_lt
    rw [Varint.maxLength64] at hLength
    rw [Value.encoding, Blob.encoding, List.length_append, Value.memory, Value.heapOverhead,
      ← text.length_encode]
    omega
  | .bytes, .bytes blob, _ => by
    have hLength := Varint.length_encode_le64 blob.length_lt
    rw [Varint.maxLength64] at hLength
    rw [Value.encoding, Blob.encoding, List.length_append, Value.memory, Value.heapOverhead]
    omega
  | .row columns, .row origin xs, h => by
    have hLength := Varint.length_encode_le32 h.1
    have hColumns := length_encodingAll_le h.2
    rw [Varint.maxLength32] at hLength
    rw [Value.encoding, List.length_append, Value.memory, Value.rows, List.length_cons]
    omega

theorem length_encodingAll_le : ∀ {columns : List Schema} {xs : List Value},
    ConformAll columns xs →
    (Value.encodingAll xs).length ≤ Value.memoryAll xs + 5 * (Value.rowsAll xs).length
  | _, [], _ => Nat.zero_le _
  | schema :: columns, x :: xs, h => by
    have hFirst := length_encoding_le h.1
    have hRest := length_encodingAll_le h.2
    rw [Value.encodingAll, List.length_append, Value.memoryAll, Value.rowsAll, List.length_append]
    omega

end

/-- Wherever there is a row in the value, however deep, the schema has a row there too, with no
fewer columns. -/
def RowsWithin (schema : Schema) (x : Value) : Prop :=
  ∀ path origin xs, x.follow? path = some (.row origin xs) →
    ∃ columns, descend? schema x path = some (.row columns, .row origin xs) ∧
      xs.length ≤ columns.length

theorem ConformAll.exists_column (h : ConformAll columns xs) {index : Nat}
    (hx : xs[index]? = some x) :
    ∃ schema, columns[index]? = some schema ∧ Conforms schema x := by
  induction xs generalizing columns index with
  | nil => cases hx
  | cons z xs ih =>
    cases columns with
    | nil => cases h
    | cons schema columns =>
      cases index with
      | zero =>
        cases hx
        exact ⟨schema, rfl, h.1⟩
      | succ index => exact ih h.2 hx

theorem Conforms.exists_descend? {path : List Nat} (h : Conforms schema x)
    (hPath : x.follow? path = some y) :
    ∃ s, descend? schema x path = some (s, y) ∧ Conforms s y := by
  induction path generalizing schema x with
  | nil =>
    rw [Value.follow?] at hPath
    cases hPath
    exact ⟨schema, by rw [descend?], h⟩
  | cons index path ih =>
    cases x with
    | row origin xs =>
      cases schema with
      | row columns =>
        simp only [Value.follow?, Option.bind_eq_bind, Option.bind_eq_some_iff] at hPath
        obtain ⟨z, hColumn, hRest⟩ := hPath
        obtain ⟨column, hSchema, hFits⟩ := h.2.exists_column hColumn
        obtain ⟨s, hDescend, hEnd⟩ := ih hFits hRest
        exact ⟨s, descend?_cons_eq_some_iff.mpr
          ⟨columns, origin, xs, column, z, rfl, rfl, hSchema, hColumn, hDescend⟩, hEnd⟩
      | _ => cases h
    | _ => cases hPath

theorem Conforms.rowsWithin (h : Conforms schema x) : schema.RowsWithin x := by
  intro path origin xs hPath
  obtain ⟨s, hDescend, hFits⟩ := h.exists_descend? hPath
  cases s with
  | row columns => exact ⟨columns, hDescend, hFits.2.length_le⟩
  | _ => cases hFits

theorem footprint_of_read {source position : Nat} {data : Bytes} {next : Cursor}
    (h : schema.read ⟨source, position, data⟩ = .ok x next) :
    ∃ k ≤ data.length, next = ⟨source, position + k, data.drop k⟩ ∧ 1 ≤ k ∧
      schema.memory x ≤ 24 * k ∧ schema.RowsWithin x := by
  obtain ⟨taken, rest, rfl, hNext, ⟨hConforms, hSpelled⟩, -⟩ := (steady_read schema).of_ok h
  have hLength := hSpelled.condenses.length_le
  have hPos := x.length_encoding_pos
  have hMemory := x.memory_le_encoding
  refine ⟨taken.length, ?_, ?_, by omega, ?_, hConforms.rowsWithin⟩
  · rw [List.length_append]
    exact Nat.le_add_right _ _
  · rw [List.drop_left, hNext]
  · rw [memory_eq]
    omega

theorem Lists.totalMemory_le {data : Bytes} (h : schema.Lists data xs) :
    schema.totalMemory xs ≤ 24 * data.length := by
  induction h with
  | nil => exact Nat.le_refl _
  | cons hPart _ ih =>
    obtain ⟨next, hRead, -⟩ := hPart
    obtain ⟨k, hk, -, -, hMemory, -⟩ := footprint_of_read hRead
    rw [totalMemory, List.length_append]
    omega

theorem totalMemory_take_le (schema : Schema) (xs : List Value) (count : Nat) :
    schema.totalMemory (xs.take count) ≤ schema.totalMemory xs := by
  conv => rhs; rw [← List.take_append_drop count xs, totalMemory_append]
  exact Nat.le_add_right _ _

theorem size_of_write {sink sink' : Sink} (h : schema.write x sink = .ok () sink') :
    sink'.size ≤ sink.size + schema.memory x + 5 * x.rows.length := by
  have hConforms := conforms_of_write h
  have hLength := length_encoding_le hConforms
  obtain ⟨last, hWrite, hList⟩ := write_of_conforms sink hConforms
  rw [h] at hWrite
  cases hWrite
  have hSize := Sink.size_of_toList hList
  rw [memory_eq]
  omega

end Schema

namespace Page

variable {checksum : Bytes → UInt32} {schema : Schema} {options : Options} {source : Nat}
  {data : Bytes} {keys : List Value} {page : Page}

theorem IsImage.footprint (h : IsImage checksum schema data keys) :
    checksumLength ≤ data.length ∧ keys.length ≤ data.length - checksumLength ∧
      schema.totalMemory keys ≤ 24 * (data.length - checksumLength) := by
  obtain ⟨payload, rfl, count, listing, rfl, -, hLists⟩ := h
  have hCount := hLists.length_le
  have hMemory := hLists.totalMemory_le
  rw [sealed, List.length_append, length_bigEndian, List.length_append]
  omega

theorem footprint_of_decode (h : decode schema options source data checksum = .ok page) :
    checksumLength ≤ data.length ∧ page.length ≤ data.length - checksumLength ∧
      page.memory ≤ 24 * (data.length - checksumLength) ∧
      ∀ count, schema.totalMemory (page.keys.take count) ≤ page.memory := by
  obtain ⟨keys, hImage⟩ := exists_isImage h
  obtain ⟨hSealed, hLength, hMemory⟩ := hImage.footprint
  have hKeys := hImage.hasKeys h
  rw [hKeys.length, hKeys.memory]
  refine ⟨hSealed, hLength, hMemory, ?_⟩
  intro count
  rw [← schema.totalMemory_congr hKeys.keys]
  exact schema.totalMemory_take_le page.keys count

/-- No encoding is small and takes much memory, and no value takes little memory and has a large
encoding. The memory of a page that is decoded can be added up in 64-bit words. -/
theorem footprint_bounded (schema : Schema) :
    (∀ source position data x next, schema.read ⟨source, position, data⟩ = .ok x next →
      ∃ k ≤ data.length, next = ⟨source, position + k, data.drop k⟩ ∧ 1 ≤ k ∧
        schema.memory x ≤ 24 * k ∧ schema.RowsWithin x) ∧
    (∀ checksum options source data page,
      decode schema options source data checksum = .ok page →
      checksumLength ≤ data.length ∧ page.length ≤ data.length - checksumLength ∧
        page.memory ≤ 24 * (data.length - checksumLength) ∧
        (data.length < 2 ^ 59 → page.memory < UInt64.size ∧
          ∀ count, schema.totalMemory (page.keys.take count) < UInt64.size)) ∧
    (∀ x sink sink', schema.write x sink = .ok () sink' →
      sink'.size ≤ sink.size + schema.memory x + 5 * x.rows.length) := by
  refine ⟨?_, ?_, fun x sink sink' hWrite => Schema.size_of_write hWrite⟩
  · intro source position data x next hRead
    exact Schema.footprint_of_read hRead
  · intro checksum options source data page hDecode
    obtain ⟨hSealed, hLength, hMemory, hPartial⟩ := footprint_of_decode hDecode
    refine ⟨hSealed, hLength, hMemory, ?_⟩
    intro hData
    have hFits : page.memory < UInt64.size := by
      rw [UInt64.size]
      omega
    exact ⟨hFits, fun count => Nat.lt_of_le_of_lt (hPartial count) hFits⟩

/-- A long of one byte takes as much memory as any byte can, in a page as well, and an empty row takes
none. -/
theorem footprint_bounded_extremes :
    (∃ x, Schema.long.read ⟨0, 5, [7, 9]⟩ = .ok x ⟨0, 6, [9]⟩ ∧ Schema.long.memory x = 24 ∧
      Schema.long.memory x ≤ 24 * 1) ∧
    (∃ page, decode .long { capacity := 0 } 0 (sealed Checksum.crc32 [2, 1, 7]) = .ok page ∧
      page.length = 2 ∧ page.length ≤ 3 ∧ page.memory = 48 ∧ page.memory ≤ 24 * 3 ∧
      page.memory < UInt64.size) ∧
    ∃ sink, (Schema.row [.row [], .int]).write (.row {} [.row {} [], .int 300]) {} = .ok () sink ∧
      sink.size = 4 ∧ sink.size ≤ 16 + 5 * 2 := by
  refine ⟨?_, ?_, ?_⟩
  · have hRead : Schema.long.read ⟨0, 5, [7, 9]⟩ = .ok (.long 7) ⟨0, 6, [9]⟩ := rfl
    obtain ⟨k, -, hNext, -, hMemory, -⟩ := (footprint_bounded .long).1 0 5 [7, 9] _ _ hRead
    have hk : 6 = 5 + k := congrArg Cursor.position hNext
    obtain rfl : k = 1 := by omega
    exact ⟨.long 7, hRead, rfl, hMemory⟩
  · have hDecode : decode .long { capacity := 0 } 0 (sealed Checksum.crc32 [2, 1, 7]) =
        .ok (ofKeys .long { capacity := 0 } [.long 1, .long 7]) := by
      rw [decode_sealed]
      rfl
    have hData : (sealed Checksum.crc32 [2, 1, 7]).length = 7 := by
      rw [sealed, List.length_append, length_bigEndian]
      rfl
    obtain ⟨-, hLength, hMemory, hWords⟩ := (footprint_bounded .long).2.1 _ _ _ _ _ hDecode
    rw [hData] at hLength hMemory hWords
    exact ⟨_, hDecode, rfl, hLength, rfl, hMemory, (hWords (by decide)).1⟩
  · let sink := (({} : Sink).putVarint32 2).putVarint32 0 |>.putVarint32 300
    have hWrite : (Schema.row [.row [], .int]).write (.row {} [.row {} [], .int 300]) {} =
        .ok () sink := rfl
    have hList : sink.toList = [2, 0, 172, 2] := by
      have hEmpty : ({} : Sink).toList = [] := rfl
      simp [sink, hEmpty, Varint.encode_of_lt, Varint.encode_of_le]
    have hSize : sink.size = 4 := congrArg List.length hList
    exact ⟨sink, hWrite, hSize, (footprint_bounded _).2.2 _ _ _ hWrite⟩

end Page

end RowStore
