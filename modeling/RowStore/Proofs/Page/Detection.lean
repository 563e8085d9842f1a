import RowStore.Proofs.Checksum
import RowStore.Proofs.Page.Encoding

/-!
# What the checksum of a page catches

Bytes that do not end in the checksum of what stands before it are refused before a key is looked
at. The bytes of a page that were changed within four neighbouring ones, all of them in the payload
or all of them in the checksum, are such bytes (`decode_damaged`).
-/

namespace RowStore

/-- The byte strings have one length and agree outside the `width` bytes from `start` on. -/
structure DifferWithin (start width : Nat) (data data' : Bytes) : Prop where
  length_eq : data'.length = data.length
  agree : ∀ index, index < start ∨ start + width ≤ index → data'[index]? = data[index]?

namespace DifferWithin

variable {start width : Nat} {data data' : Bytes}

theorem take_eq (h : DifferWithin start width data data') {count : Nat} (hCount : count ≤ start) :
    data'.take count = data.take count := by
  apply List.ext_getElem?
  intro index
  rw [List.getElem?_take, List.getElem?_take]
  split
  · exact h.agree index (.inl (by omega))
  · rfl

theorem drop_eq (h : DifferWithin start width data data') {count : Nat}
    (hCount : start + width ≤ count) : data'.drop count = data.drop count := by
  apply List.ext_getElem?
  intro index
  rw [List.getElem?_drop, List.getElem?_drop]
  exact h.agree (count + index) (.inr (by omega))

theorem take (h : DifferWithin start width data data') (count : Nat) :
    DifferWithin start width (data.take count) (data'.take count) where
  length_eq := by rw [List.length_take, List.length_take, h.length_eq]
  agree index hIndex := by
    rw [List.getElem?_take, List.getElem?_take, h.agree index hIndex]

theorem exists_burst (h : DifferWithin start width data data') :
    ∃ before burst burst' after, data = before ++ burst ++ after ∧
      data' = before ++ burst' ++ after ∧ burst'.length = burst.length ∧ burst.length ≤ width := by
  have hSplit (bytes : Bytes) :
      bytes = bytes.take start ++ (bytes.drop start).take width ++ bytes.drop (start + width) := by
    rw [← List.drop_drop, List.append_assoc, List.take_append_drop, List.take_append_drop]
  refine ⟨data.take start, (data.drop start).take width, (data'.drop start).take width,
    data.drop (start + width), hSplit data, ?_, ?_, ?_⟩
  · rw [← h.take_eq (Nat.le_refl start), ← h.drop_eq (Nat.le_refl (start + width))]
    exact hSplit data'
  · simp only [List.length_take, List.length_drop, h.length_eq]
  · rw [List.length_take]
    exact Nat.min_le_left ..

theorem eq_of_crc32_eq (h : DifferWithin start width data data') (hWidth : width ≤ 4)
    (hChecksum : Checksum.crc32 data' = Checksum.crc32 data) : data' = data := by
  obtain ⟨before, burst, burst', after, rfl, rfl, hLength, hBurst⟩ := h.exists_burst
  rw [Checksum.eq_of_crc32_eq hLength (Nat.le_trans hBurst hWidth) hChecksum.symm]

theorem set (data : Bytes) (index : Nat) (b : UInt8) :
    DifferWithin index 1 data (data.set index b) where
  length_eq := List.length_set
  agree other hOther := List.getElem?_set_ne (by omega)

end DifferWithin

namespace Page

variable {checksum : Bytes → UInt32} {data data' payload : Bytes} {start width : Nat}

/-- The last four bytes are the checksum of the others. -/
def IsSealed (checksum : Bytes → UInt32) (data : Bytes) : Prop :=
  data.drop (data.length - checksumLength) =
    bigEndian checksumLength (checksum (data.take (data.length - checksumLength))).toNat

theorem isSealed_sealed (payload : Bytes) : IsSealed checksum (sealed checksum payload) := by
  have hLength : (sealed checksum payload).length - checksumLength = payload.length := by
    rw [sealed, List.length_append, length_bigEndian, Nat.add_sub_cancel]
  rw [IsSealed, hLength, sealed, List.drop_left, List.take_left]

theorem IsSealed.exists_payload (h : IsSealed checksum data) :
    ∃ payload, data = sealed checksum payload := by
  refine ⟨data.take (data.length - checksumLength), ?_⟩
  rw [sealed, ← h, List.take_append_drop]

theorem IsSealed.le_length (h : IsSealed checksum data) : checksumLength ≤ data.length := by
  obtain ⟨payload, rfl⟩ := h.exists_payload
  rw [sealed, List.length_append, length_bigEndian]
  exact Nat.le_add_left ..

theorem isSealed_of_encode {page : Page} (h : page.encode checksum = .ok data) :
    IsSealed checksum data := by
  unfold encode at h
  split at h
  · rename_i sink _
    cases h
    rw [Sink.toList_putWord32]
    exact isSealed_sealed sink.toList
  · cases h

variable (schema : Schema) (options : Options) (source : Nat)

theorem decode_of_short (h : data.length < checksumLength) :
    decode schema options source data checksum = .error (.corruption .pageTooShort) := by
  rw [decode_eq, if_pos h]

theorem decode_of_not_isSealed (hLength : checksumLength ≤ data.length)
    (h : ¬IsSealed checksum data) :
    decode schema options source data checksum = .error (.corruption .checksumMismatch) := by
  have hTrailer : (data.drop (data.length - checksumLength)).length = checksumLength := by
    rw [List.length_drop]
    omega
  rw [decode_eq, if_neg (Nat.not_lt.mpr hLength), if_pos]
  intro hStored
  apply h
  rw [IsSealed, ← hStored, bigEndian_ofBigEndian hTrailer]

theorem not_isSealed_of_differWithin (hSealed : IsSealed Checksum.crc32 data)
    (hDiffer : DifferWithin start width data data') (hNe : data' ≠ data) (hWidth : width ≤ 4)
    (hPlace : start + width ≤ data.length - checksumLength ∨
      data.length - checksumLength ≤ start) : ¬IsSealed Checksum.crc32 data' := by
  intro hSealed'
  apply hNe
  rw [IsSealed, hDiffer.length_eq] at hSealed'
  rcases hPlace with hPayload | hTrailer
  · -- The checksums agree, since both byte strings end in the same four bytes.
    have hStored := hDiffer.drop_eq hPayload
    rw [hSealed', hSealed] at hStored
    have hChecksum := congrArg ofBigEndian hStored
    rw [checksumLength, ofBigEndian_bigEndian (UInt32.toNat_lt_size _),
      ofBigEndian_bigEndian (UInt32.toNat_lt_size _), UInt32.toNat_inj] at hChecksum
    have hTake := (hDiffer.take (data.length - checksumLength)).eq_of_crc32_eq hWidth hChecksum
    rw [← List.take_append_drop (data.length - checksumLength) data', hTake,
      hDiffer.drop_eq hPayload, List.take_append_drop]
  · have hTake := hDiffer.take_eq hTrailer
    rw [← List.take_append_drop (data.length - checksumLength) data', hSealed', hTake, ← hSealed,
      List.take_append_drop]

/-- Every encoding of a page ends in its checksum, and of bytes that do so no change within four
neighbouring ones goes unnoticed, whatever the page is decoded as. -/
theorem decode_damaged :
    (∀ (page : Page) data, page.encode = .ok data → IsSealed Checksum.crc32 data) ∧
    (∀ data data' start width, IsSealed Checksum.crc32 data →
      DifferWithin start width data data' → data' ≠ data → width ≤ 4 →
      start + width ≤ data.length - checksumLength ∨ data.length - checksumLength ≤ start →
      ∀ schema options source,
        decode schema options source data' = .error (.corruption .checksumMismatch)) ∧
    (∀ data index b, IsSealed Checksum.crc32 data → index < data.length → data[index]? ≠ some b →
      ∀ schema options source,
        decode schema options source (data.set index b) =
          .error (.corruption .checksumMismatch)) := by
  have hBurst : ∀ data data' start width, IsSealed Checksum.crc32 data →
      DifferWithin start width data data' → data' ≠ data → width ≤ 4 →
      start + width ≤ data.length - checksumLength ∨ data.length - checksumLength ≤ start →
      ∀ schema options source,
        decode schema options source data' = .error (.corruption .checksumMismatch) := by
    intro data data' start width hSealed hDiffer hNe hWidth hPlace schema options source
    apply decode_of_not_isSealed
    · rw [hDiffer.length_eq]
      exact hSealed.le_length
    · exact not_isSealed_of_differWithin hSealed hDiffer hNe hWidth hPlace
  refine ⟨fun page data => isSealed_of_encode, hBurst, ?_⟩
  intro data index b hSealed hIndex hByte
  apply hBurst data _ index 1 hSealed (.set data index b)
  · intro hSame
    apply hByte
    rw [← hSame, List.getElem?_set_self hIndex]
  · decide
  · omega

/-- The two keys of the page are changed. -/
theorem decode_damaged_keys :
    decode .long {} 0 ([2, 9, 7] ++ bigEndian checksumLength (Checksum.crc32 [2, 2, 1]).toNat) =
      .error (.corruption .checksumMismatch) := by
  have hDiffer : DifferWithin 1 2 (sealed Checksum.crc32 [2, 2, 1])
      ([2, 9, 7] ++ bigEndian checksumLength (Checksum.crc32 [2, 2, 1]).toNat) := by
    constructor
    · rfl
    · intro index hIndex
      match index with
      | 0 => rfl
      | 1 | 2 => omega
      | _ + 3 => rfl
  apply decode_damaged.2.1 _ _ 1 2 (isSealed_sealed [2, 2, 1]) hDiffer
  · rw [sealed, Ne, List.append_left_inj]
    decide
  · decide
  · exact .inl (Nat.le_refl 3)

end Page

end RowStore
