import RowStore.Schema.Writing
import RowStore.Proofs.Order
import RowStore.Proofs.Utf8
import RowStore.Proofs.Varint

/-!
# Reading what was written

A value that fits a schema is read back from its encoding, up to the places where its rows are
built. The reader stops behind the encoding whatever follows, so that the columns of a row need
nothing between them.
-/

namespace RowStore.Schema

theorem toNat_toUInt32_of_lt {n : Nat} (h : n < UInt32.size) : n.toUInt32.toNat = n :=
  UInt32.toNat_ofNat_of_lt h

theorem readArity_eq (columns : Nat) (cursor : Cursor) :
    readArity columns cursor =
      match Reader.varint32 cursor with
      | .ok word next =>
        if columns < word.toNat then .error (.corruption (.rowTooWide word.toNat columns)) next
        else .ok word.toNat next
      | .error e next => .error e next := by
  simp only [readArity, bind, EStateM.bind]
  cases Reader.varint32 cursor with
  | ok word next =>
    dsimp only
    split <;> rfl
  | error e next => rfl

theorem readArity_encode (source position : Nat) (rest : Bytes) {arity columns : Nat}
    (hArity : arity < UInt32.size) (hColumns : arity ≤ columns) :
    readArity columns ⟨source, position, Varint.encode arity ++ rest⟩ =
      .ok arity ⟨source, position + (Varint.encode arity).length, rest⟩ := by
  have hRead := Reader.varint32_encode source position rest arity.toUInt32
  rw [toNat_toUInt32_of_lt hArity] at hRead
  rw [readArity_eq, hRead]
  dsimp only
  rw [toNat_toUInt32_of_lt hArity, if_neg (by omega)]

mutual

theorem read_encoding (source : Nat) : ∀ {schema : Schema} {x : Value} (position : Nat)
    (rest : Bytes), Conforms schema x →
    ∃ y, read schema ⟨source, position, x.encoding ++ rest⟩ =
      .ok y ⟨source, position + x.encoding.length, rest⟩ ∧ y.content = x.content
  | .int, .int n, position, rest, _ => by
    refine ⟨.int n, ?_, rfl⟩
    simp only [read, bind, EStateM.bind, Value.encoding, Reader.varint32_encode]
    rfl
  | .long, .long n, position, rest, _ => by
    refine ⟨.long n, ?_, rfl⟩
    simp only [read, bind, EStateM.bind, Value.encoding, Reader.varint64_encode]
    rfl
  | .string, .string text, position, rest, _ => by
    refine ⟨.string text, ?_, rfl⟩
    simp only [read, bind, EStateM.bind, Value.encoding, Blob.encoding, List.append_assoc,
      Reader.blob_encode, Text.ofBlob_encode]
    rfl
  | .bytes, .bytes blob, position, rest, _ => by
    refine ⟨.bytes blob, ?_, rfl⟩
    simp only [read, bind, EStateM.bind, Value.encoding, Blob.encoding, List.append_assoc,
      Reader.blob_encode]
    rfl
  | .row columns, .row origin xs, position, rest, h => by
    simp only [Conforms] at h
    obtain ⟨ys, hRead, hContent⟩ := readColumns_encoding source
      (position + (Varint.encode xs.length).length) rest h.2
    refine ⟨.row ⟨source, position⟩ ys, ?_, ?_⟩
    · simp only [read, bind, EStateM.bind, Reader.get_eq, Value.encoding, List.append_assoc,
        readArity_encode source position _ h.1 h.2.length_le, hRead, List.length_append,
        ← Nat.add_assoc]
      rfl
    · rw [Value.content, Value.content, hContent]

theorem readColumns_encoding (source : Nat) : ∀ {columns : List Schema} {xs : List Value}
    (position : Nat) (rest : Bytes), ConformAll columns xs →
    ∃ ys, readColumns columns xs.length ⟨source, position, Value.encodingAll xs ++ rest⟩ =
      .ok ys ⟨source, position + (Value.encodingAll xs).length, rest⟩ ∧
      Value.contentAll ys = Value.contentAll xs
  | [], [], position, rest, _ => ⟨[], rfl, rfl⟩
  | _ :: _, [], position, rest, _ => ⟨[], rfl, rfl⟩
  | schema :: columns, x :: xs, position, rest, h => by
    simp only [ConformAll] at h
    obtain ⟨y, hRead, hContent⟩ := read_encoding source position (Value.encodingAll xs ++ rest) h.1
    obtain ⟨ys, hReadRest, hContentRest⟩ := readColumns_encoding source
      (position + x.encoding.length) rest h.2
    refine ⟨y :: ys, ?_, ?_⟩
    · simp only [List.length_cons, readColumns, bind, EStateM.bind, Value.encodingAll,
        List.append_assoc, hRead, hReadRest, List.length_append, ← Nat.add_assoc]
      rfl
    · rw [Value.contentAll, Value.contentAll, hContent, hContentRest]

end

/-- Writing succeeds on the values that fit the schema and on no others. It appends the encoding of
the value, and reading takes back that much and no more. -/
theorem write_and_read (schema : Schema) (x : Value) :
    (∀ sink, (∃ sink', schema.write x sink = .ok () sink') ↔ schema.Conforms x) ∧
    (∀ sink sink', schema.write x sink = .ok () sink' → sink'.toList = sink.toList ++ x.encoding) ∧
    (schema.Conforms x → ∀ source position rest, ∃ y,
      schema.read ⟨source, position, x.encoding ++ rest⟩ =
        .ok y ⟨source, position + x.encoding.length, rest⟩ ∧
      y.content = x.content ∧ schema.compare y x = .eq) := by
  refine ⟨fun sink => write_isOk_iff, ?_, ?_⟩
  · intro sink sink' hWrite
    obtain ⟨sink₁, hConforming, hList⟩ := write_of_conforms sink (conforms_of_write hWrite)
    rw [hWrite] at hConforming
    cases hConforming
    exact hList
  · intro hConforms source position rest
    obtain ⟨y, hRead, hContent⟩ := read_encoding source position rest hConforms
    refine ⟨y, hRead, hContent, ?_⟩
    rw [compare_eq_order, Value.order_eq_iff]
    exact hContent

/-- The row and the row in its first column both leave out their last columns. -/
theorem read_encoding_nested_prefix :
    ∃ y, (row [.row [.int, .bytes], .long, .string]).read
        ⟨0, 3, [2, 1, 255, 255, 255, 255, 15, 7, 9, 9]⟩ = .ok y ⟨0, 11, [9, 9]⟩ ∧
      y.content = .row {} [.row {} [.int (-1)], .long 7] := by
  have hBits : (-1 : Int32).toUInt32.toNat = 4294967295 := rfl
  have hSmall : (7 : Int64).toUInt64.toNat = 7 := rfl
  have hEncoding : (Value.row {} [.row {} [.int (-1)], .long 7]).encoding =
      [2, 1, 255, 255, 255, 255, 15, 7] := by
    simp only [Value.encoding, Value.encodingAll, hBits, hSmall]
    simp [Varint.encode_of_lt, Varint.encode_of_le]
  have hConforms : (row [.row [.int, .bytes], .long, .string]).Conforms
      (.row {} [.row {} [.int (-1)], .long 7]) := by
    simp [Conforms, ConformAll, kind, Value.kind, UInt32.size]
  obtain ⟨y, hRead, hContent, -⟩ := (write_and_read _ _).2.2 hConforms 0 3 [9, 9]
  rw [hEncoding] at hRead
  exact ⟨y, hRead, hContent⟩

end RowStore.Schema
