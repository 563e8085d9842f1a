import RowStore.Proofs.Page.Detection

/-!
# What is accepted as a page

Bytes are decoded to a page exactly when they are a payload sealed by its checksum, and the payload
is a number of keys with as many keys behind it (`decode_accepts`). The bound on the number of keys
that decoding checks first is no part of this: no key is empty, so that a payload with all of its
keys is never refused by it.
-/

namespace RowStore.Page

variable {checksum : Bytes → UInt32} {schema : Schema} {options : Options} {source : Nat}
  {payload data : Bytes} {page : Page} {keys : List Value} {e : Error}

/-- The bytes are a payload that lists the keys, and its checksum. -/
def IsImage (checksum : Bytes → UInt32) (schema : Schema) (data : Bytes) (keys : List Value) :
    Prop :=
  ∃ payload, data = sealed checksum payload ∧ IsPayload schema payload keys

theorem IsImage.decode_eq (h : IsImage checksum schema data keys) (options : Options)
    (source : Nat) :
    ∃ ys : List Value, ys.map Value.content = keys.map Value.content ∧
      ys.length < UInt64.size ∧
      decode schema options source data checksum = .ok (ofKeys schema options ys) := by
  obtain ⟨payload, rfl, hPayload⟩ := h
  obtain ⟨ys, hContents, hPage⟩ := hPayload.ofPayload_eq options source
  have hLength : ys.length = keys.length := by simpa using congrArg List.length hContents
  refine ⟨ys, hContents, hLength ▸ hPayload.length_lt, ?_⟩
  rw [decode_sealed, hPage]

theorem exists_isImage (h : decode schema options source data checksum = .ok page) :
    ∃ keys, IsImage checksum schema data keys := by
  by_cases hLength : data.length < checksumLength
  · rw [decode_of_short schema options source hLength] at h
    cases h
  by_cases hSealed : IsSealed checksum data
  · obtain ⟨payload, rfl⟩ := hSealed.exists_payload
    rw [decode_sealed] at h
    obtain ⟨keys, hPayload⟩ := exists_isPayload h
    exact ⟨keys, payload, rfl, hPayload⟩
  · rw [decode_of_not_isSealed schema options source (Nat.le_of_not_lt hLength) hSealed] at h
    cases h

theorem ofPayload_error (h : ofPayload schema options source payload = .error e) :
    e = .eof ∨ ∃ cause, e = .corruption cause := by
  rw [ofPayload_eq] at h
  split at h
  · rename_i hRead
    cases h
    rcases Reader.steady_varint64.of_error hRead with hEof | ⟨cause, hCause, -⟩
    · exact .inl hEof
    · exact .inr ⟨cause, hCause⟩
  · split at h
    · cases h
      exact .inr ⟨_, rfl⟩
    · dsimp only at h
      split at h
      · rename_i hOutcome
        cases h
        exact schema.readSlots_error (le_length_blank options _) hOutcome
      · split at h
        · cases h
        · cases h
          exact .inr ⟨_, rfl⟩

theorem decode_error (h : decode schema options source data checksum = .error e) :
    e = .eof ∨ ∃ cause, e = .corruption cause := by
  rw [Page.decode_eq] at h
  split at h
  · cases h
    exact .inr ⟨_, rfl⟩
  split at h
  · cases h
    exact .inr ⟨_, rfl⟩
  · exact ofPayload_error h

/-- Every key that is read takes a byte at least. -/
theorem le_remaining_of_readStorage {slots : Storage} {count : Nat} {cursor : Cursor}
    (h : (schema.readStorage slots count cursor).outcome = .ok ()) :
    count ≤ cursor.remaining := by
  unfold Schema.readStorage at h
  split at h
  · cases h
  · rename_i hCount
    obtain ⟨taken, rest, xs, hData, rfl, hLists⟩ :=
      schema.exists_lists_of_readSlots (Nat.le_of_not_lt hCount) h
    rw [Cursor.remaining, hData, List.length_append]
    exact Nat.le_add_right_of_le hLists.length_le

/-- A page that decoding gives, in terms of the keys that the bytes list. -/
structure HasKeys (page : Page) (schema : Schema) (options : Options) (keys : List Value) :
    Prop where
  length : page.length = keys.length
  capacity : page.capacity = max options.capacity.toNat keys.length
  memory : page.memory = schema.totalMemory keys
  keys : page.keys.map Value.content = keys.map Value.content
  schema : page.schema = schema

theorem IsImage.hasKeys (h : IsImage checksum schema data keys)
    (hDecode : decode schema options source data checksum = .ok page) :
    page.HasKeys schema options keys := by
  obtain ⟨ys, hContents, hCount, hPage⟩ := h.decode_eq options source
  have hLength : ys.length = keys.length := by simpa using congrArg List.length hContents
  rw [hPage, Except.ok.injEq] at hDecode
  subst hDecode
  constructor
  · exact hLength
  · rw [capacity_ofKeys, hLength]
  · exact schema.totalMemory_congr hContents
  · rw [(holds_ofKeys schema options hCount).keys]
    exact hContents
  · rfl

/-- Decoding accepts the images of lists of keys and nothing else. What it refuses it refuses for
its end or its form, and what is not sealed it refuses in the same way as every page. -/
theorem decode_accepts (checksum : Bytes → UInt32) (schema : Schema) (options : Options)
    (source : Nat) (data : Bytes) :
    ((∃ page, decode schema options source data checksum = .ok page) ↔
      ∃ keys, IsImage checksum schema data keys) ∧
    (∀ page keys, decode schema options source data checksum = .ok page →
      IsImage checksum schema data keys → page.HasKeys schema options keys) ∧
    (∀ e, decode schema options source data checksum = .error e →
      e = .eof ∨ ∃ cause, e = .corruption cause) ∧
    (data.length < checksumLength → ∀ schema options source,
      decode schema options source data checksum = .error (.corruption .pageTooShort)) ∧
    (checksumLength ≤ data.length → ¬IsSealed checksum data → ∀ schema options source,
      decode schema options source data checksum = .error (.corruption .checksumMismatch)) ∧
    (∀ slots count cursor, (schema.readStorage slots count cursor).outcome = .ok () →
      count ≤ cursor.remaining) := by
  refine ⟨⟨?_, ?_⟩, ?_, ?_, ?_, ?_, ?_⟩
  · rintro ⟨page, hDecode⟩
    exact exists_isImage hDecode
  · rintro ⟨keys, hImage⟩
    obtain ⟨ys, -, -, hPage⟩ := hImage.decode_eq options source
    exact ⟨_, hPage⟩
  · intro page keys hDecode hImage
    exact hImage.hasKeys hDecode
  · intro e hDecode
    exact decode_error hDecode
  · intro hLength schema options source
    exact decode_of_short schema options source hLength
  · intro hLength hSealed schema options source
    exact decode_of_not_isSealed schema options source hLength hSealed
  · intro slots count cursor hOutcome
    exact le_remaining_of_readStorage hOutcome

/-- The number of keys and the second key are padded, and there is room for neither key. -/
theorem decode_accepts_padded :
    ∃ page, decode .int { capacity := 0 } 3 (sealed Checksum.crc32 [130, 0, 7, 133, 0]) = .ok page ∧
      page.keys.map Value.content = [.int 7, .int 5] ∧ page.capacity = 2 ∧ page.memory = 32 := by
  have hFirst : Schema.int.ReadsAs [7] (.int 7) := ⟨_, rfl, rfl⟩
  have hSecond : Schema.int.ReadsAs [133, 0] (.int 5) := ⟨_, rfl, rfl⟩
  have hLists : Schema.int.Lists [7, 133, 0] [.int 7, .int 5] := .cons hFirst (.cons hSecond .nil)
  have hImage : IsImage Checksum.crc32 .int (sealed Checksum.crc32 [130, 0, 7, 133, 0])
      [.int 7, .int 5] := ⟨_, rfl, [130, 0], [7, 133, 0], rfl, rfl, hLists⟩
  obtain ⟨hAccepts, hKeys, -⟩ := decode_accepts Checksum.crc32 .int { capacity := 0 } 3
    (sealed Checksum.crc32 [130, 0, 7, 133, 0])
  obtain ⟨page, hDecode⟩ := hAccepts.mpr ⟨_, hImage⟩
  have hPage := hKeys page _ hDecode hImage
  exact ⟨page, hDecode, hPage.keys, hPage.capacity, hPage.memory⟩

end RowStore.Page
