import RowStore.Proofs.Page.Invariant

/-!
# Pages read back

A page with keys that fit its schema is read back from its encoding with the same keys in the same
order, and encodes to the same bytes again. With a key that does not fit, it encodes to the error of
the first one.
-/

namespace RowStore.Page

variable {checksum : Bytes → UInt32} {page : Page} {xs : List Value}

theorem Holds.encode_isOk_iff (h : page.Holds xs) :
    (∃ data, page.encode checksum = .ok data) ↔ ∀ key ∈ xs, page.schema.Conforms key := by
  rw [h.encode_eq]
  constructor
  · rintro ⟨data, hImage⟩
    exact (image_eq_ok_iff checksum).mp hImage |>.1
  · intro hConforms
    exact ⟨_, (image_eq_ok_iff checksum).mpr ⟨hConforms, rfl⟩⟩

theorem Holds.encode_of_misfit {before after : List Value} {key : Value}
    (h : page.Holds (before ++ key :: after)) (hBefore : ∀ x ∈ before, page.schema.Conforms x)
    (hKey : ¬page.schema.Conforms key) :
    ∃ e, page.encode checksum = .error e ∧
      ∀ sink, ∃ sink', page.schema.write key sink = .error e sink' := by
  cases hMisfit : page.schema.misfit? key with
  | none => exact absurd (Schema.misfit?_eq_none_iff.mp hMisfit) hKey
  | some e =>
    have hBeforeNone : before.findSome? page.schema.misfit? = none :=
      findSome?_misfit?_eq_none_iff.mpr hBefore
    refine ⟨e, ?_, ?_⟩
    · rw [h.encode_eq, image, List.findSome?_append, hBeforeNone, Option.none_or,
        List.findSome?_cons, hMisfit]
    · intro sink
      exact Schema.write_of_misfit sink hMisfit

theorem Holds.decode_encode (h : page.Holds xs) {data : Bytes}
    (hEncode : page.encode checksum = .ok data) (options : Options) (source : Nat) :
    ∃ ys : List Value, ys.map Value.content = xs.map Value.content ∧
      decode page.schema options source data checksum = .ok (ofKeys page.schema options ys) := by
  rw [h.encode_eq, image_eq_ok_iff] at hEncode
  obtain ⟨hConforms, rfl⟩ := hEncode
  rw [decode_sealed]
  exact ofPayload_encoding page.schema options source
    (Nat.lt_of_le_of_lt h.length_le h.capacity_lt) hConforms

theorem encode_and_decode (h : Reached checksum page) :
    ((∃ data, page.encode checksum = .ok data) ↔ ∀ key ∈ page.keys, page.schema.Conforms key) ∧
    (∀ before key after, page.keys = before ++ key :: after →
      (∀ x ∈ before, page.schema.Conforms x) → ¬page.schema.Conforms key →
      ∃ e, page.encode checksum = .error e ∧
        ∀ sink, ∃ sink', page.schema.write key sink = .error e sink') ∧
    (∀ data, page.encode checksum = .ok data → ∀ options source,
      ∃ next, decode page.schema options source data checksum = .ok next ∧
        next.schema = page.schema ∧
        next.keys.map Value.content = page.keys.map Value.content ∧
        next.length = page.length ∧
        next.memory = page.memory ∧
        next.capacity = max options.capacity.toNat page.length ∧
        next.encode checksum = .ok data) := by
  have hHolds := h.holds
  refine ⟨hHolds.encode_isOk_iff, ?_, ?_⟩
  · intro before key after hKeys hBefore hKey
    rw [hKeys] at hHolds
    exact hHolds.encode_of_misfit hBefore hKey
  · intro data hEncode options source
    obtain ⟨ys, hContents, hDecode⟩ := hHolds.decode_encode hEncode options source
    have hLength : ys.length = page.keys.length := by simpa using congrArg List.length hContents
    have hNext : (ofKeys page.schema options ys).Holds ys := by
      apply holds_ofKeys
      rw [hLength]
      exact Nat.lt_of_le_of_lt hHolds.length_le hHolds.capacity_lt
    refine ⟨_, hDecode, rfl, ?_, ?_, ?_, ?_, ?_⟩
    · rw [hNext.keys]
      exact hContents
    · rw [hNext.length, hHolds.length, hLength]
    · rw [hNext.memory, hHolds.memory]
      exact page.schema.totalMemory_congr hContents
    · rw [capacity_ofKeys, hLength, hHolds.length]
    · rw [← hEncode, hNext.encode_eq, hHolds.encode_eq, ← image_content, hContents, image_content]
      rfl

theorem decode_encode_descending :
    ∃ page data next, decode .int { capacity := 0 } 0 (sealed Checksum.crc32 [2, 2, 1]) = .ok page ∧
      page.encode = .ok data ∧ decode .int { capacity := 7 } 1 data = .ok next ∧
      next.keys.map Value.content = [.int 2, .int 1] ∧ next.capacity = 7 ∧
      next.encode = .ok data := by
  have hConforms : ∀ key ∈ [Value.int 2, .int 1], Schema.int.Conforms key := by
    intro key hKey
    simp only [List.mem_cons, List.not_mem_nil, or_false] at hKey
    rcases hKey with rfl | rfl <;> rfl
  obtain ⟨hEncodes, -, hRoundTrip⟩ := encode_and_decode (Reached.decoded decode_descending)
  obtain ⟨data, hEncode⟩ := hEncodes.mpr hConforms
  obtain ⟨next, hNext, -, hKeys, -, -, hCapacity, hAgain⟩ :=
    hRoundTrip data hEncode { capacity := 7 } 1
  exact ⟨_, data, next, decode_descending, hEncode, hNext, hKeys, hCapacity, hAgain⟩

end RowStore.Page
