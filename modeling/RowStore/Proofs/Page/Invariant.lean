import RowStore.Page.Run
import RowStore.Proofs.Page.Encoding

/-!
# What every page in use keeps

A page that was made empty or decoded, whatever bytes it was decoded from, and then went through any
operations is well formed, and no operation on it reaches outside its slots or its accounts.
-/

namespace RowStore

namespace Page

variable {checksum : Bytes → UInt32} {page : Page} {xs : List Value}

/-- The slot remembered for the next search holds a key, unless the page is empty. -/
def HintWithin (page : Page) : Prop := page.hint < page.length ∨ page.hint = 0

theorem hintWithin_ofKeys (schema : Schema) (options : Options) (keys : List Value) :
    (ofKeys schema options keys).HintWithin := .inr rfl

theorem Holds.insert (h : page.Holds xs) (hHint : page.HintWithin) (key : Value) :
    ∃ ys, (page.insert key).value.2.Holds ys ∧ (page.insert key).value.2.HintWithin := by
  rcases h.insert_cases key with
    ⟨before, old, after, rfl, -, hInsert⟩ | ⟨before, after, rfl, -, hInsert⟩
  · have hNext : (page.replaceAt before.length key).Holds (before ++ key :: after) := h.replaceAt
    rw [hInsert]
    refine ⟨_, hNext, .inl ?_⟩
    rw [hNext.length]
    simp [Page.replaceAt]
  · rw [hInsert]
    split
    · exact ⟨_, h, hHint⟩
    · rename_i hRoom
      have hNext : (page.insertAt before.length key).Holds (before ++ key :: after) :=
        h.insertAt (Bool.eq_false_iff.mpr hRoom)
      refine ⟨_, hNext, .inl ?_⟩
      rw [hNext.length]
      simp [Page.insertAt]

theorem Holds.remove (h : page.Holds xs) (hHint : page.HintWithin) (key : Value) :
    ∃ ys, (page.remove key).value.2.Holds ys ∧ (page.remove key).value.2.HintWithin := by
  rcases h.remove_cases key with
    ⟨before, old, after, rfl, -, hRemove⟩ | ⟨before, after, rfl, -, hRemove⟩
  · rw [hRemove]
    refine ⟨_, h.removeAt, ?_⟩
    simp only [HintWithin, Page.removeAt]
    omega
  · rw [hRemove]
    exact ⟨_, h, hHint⟩

theorem ofKeys_of_reload {options : Options} {source : Nat} {next : Page}
    (h : page.reload options source checksum = .ok next) :
    ∃ keys : List Value, keys.length < UInt64.size ∧ next = ofKeys page.schema options keys := by
  unfold reload at h
  cases hEncode : page.encode checksum with
  | error e =>
    rw [hEncode] at h
    cases h
  | ok data =>
    rw [hEncode] at h
    exact ofKeys_of_decode h

theorem Holds.step (h : page.Holds xs) (hHint : page.HintWithin) (operation : Operation) :
    ∃ ys, (page.step checksum operation).2.Holds ys ∧
      (page.step checksum operation).2.HintWithin := by
  cases operation with
  | insert key => exact h.insert hHint key
  | get key => exact ⟨xs, h, hHint⟩
  | remove key => exact h.remove hHint key
  | encode => exact ⟨xs, h, hHint⟩
  | reload options source =>
    rw [Page.step]
    split
    · rename_i next hReload
      obtain ⟨keys, hLength, rfl⟩ := ofKeys_of_reload hReload
      exact ⟨keys, holds_ofKeys page.schema options hLength, hintWithin_ofKeys _ _ _⟩
    · exact ⟨xs, h, hHint⟩

theorem Reached.exists_holds (h : Reached checksum page) :
    ∃ xs, page.Holds xs ∧ page.HintWithin := by
  induction h with
  | new schema options =>
    rw [new_eq_ofKeys]
    exact ⟨[], holds_ofKeys schema options (by decide), hintWithin_ofKeys _ _ _⟩
  | decoded hDecode =>
    obtain ⟨keys, hLength, rfl⟩ := ofKeys_of_decode hDecode
    exact ⟨keys, holds_ofKeys _ _ hLength, hintWithin_ofKeys _ _ _⟩
  | step operation _ ih =>
    obtain ⟨xs, hHolds, hHint⟩ := ih
    exact hHolds.step hHint operation

theorem Reached.holds (h : Reached checksum page) : page.Holds page.keys := by
  obtain ⟨xs, hHolds, -⟩ := h.exists_holds
  rw [hHolds.keys]
  exact hHolds

structure WellFormed (page : Page) : Prop where
  length_le : page.length ≤ page.capacity
  filled : ∀ index < page.length, ∃ x, page.slots[index]? = some (some x)
  empty : ∀ index, page.length ≤ index → index < page.capacity → page.slots[index]? = some none
  memory_eq : page.memory = page.schema.totalMemory page.slots.values
  hint_lt : page.hint < page.length ∨ (page.hint = 0 ∧ page.length = 0)

/-- Operations stay within the slots and the accounts. -/
structure Safe (checksum : Bytes → UInt32) (page : Page) : Prop where
  probe : ∀ key, ∀ index ∈ (page.search key).value.probes, index < page.length
  /-- The key that is hit can be taken out, and what it was charged can be given back. -/
  hit : ∀ key index, (page.search key).value.position = .hit index →
    index < page.length ∧ ∃ old, page.slots[index]? = some (some old) ∧
      page.schema.memory old ≤ page.memory ∧ (page.remove key).value.1 = some old
  /-- A page with room has an empty slot behind its keys, and a new key goes no further. -/
  gap : ∀ key index, (page.search key).value.position = .gap index →
    index ≤ page.length ∧ (page.isFull = false → page.length < page.capacity)
  encode : ∀ cause, page.encode checksum ≠ .error (.corruption cause)

theorem Holds.wellFormed (h : page.Holds xs) (hHint : page.HintWithin) : page.WellFormed := by
  have hLengthLe := h.length_le
  obtain ⟨room, hSlots⟩ := h.slots
  have hCapacity : page.capacity = xs.length + room := by
    rw [capacity, hSlots, Storage.length_filled]
  constructor
  · rw [h.length]
    exact hLengthLe
  · intro index hIndex
    rw [h.length] at hIndex
    rw [hSlots]
    exact ⟨_, Storage.getElem?_filled_of_lt hIndex room⟩
  · intro index hIndex hInside
    rw [h.length] at hIndex
    rw [hSlots]
    exact Storage.getElem?_filled_of_le hIndex (by omega)
  · rw [hSlots, Storage.values_filled]
    exact h.memory
  · unfold HintWithin at hHint
    omega

theorem Holds.remove_of_hit (h : page.Holds xs) {key : Value} {index : Nat}
    (hSearch : (page.search key).value.position = .hit index) :
    index < page.length ∧ ∃ old, page.slots[index]? = some (some old) ∧
      page.schema.memory old ≤ page.memory ∧ (page.remove key).value.1 = some old := by
  obtain ⟨before, old, after, rfl, rfl, -⟩ := h.search_hit hSearch
  have hOld : page.slots.value? before.length = some old := by
    rw [h.value?]
    simp
  constructor
  · rw [h.length]
    simp
  refine ⟨old, ?_, ?_, ?_⟩
  · obtain ⟨room, hSlots⟩ := h.slots
    rw [hSlots, Storage.getElem?_filled_of_lt (by simp)]
    simp
  · rw [h.memory_eq_add]
    exact Nat.le_add_right _ _
  · rw [value_remove, hSearch]
    dsimp only
    rw [hOld]

theorem Holds.encode_ne_corruption (h : page.Holds xs) (cause : Corruption) :
    page.encode checksum ≠ .error (.corruption cause) := by
  intro hEncode
  rw [h.encode_eq] at hEncode
  unfold image at hEncode
  split at hEncode
  · rename_i e hMisfit
    cases hEncode
    obtain ⟨x, -, hMisfit⟩ := List.exists_of_findSome?_eq_some hMisfit
    exact Schema.misfit?_ne_corruption cause hMisfit
  · cases hEncode

theorem Holds.safe (h : page.Holds xs) (checksum : Bytes → UInt32) : page.Safe checksum := by
  constructor
  · intro key index hIndex
    rw [h.length]
    exact ((h.search_sound key).probes_within index hIndex).2
  · intro key index hSearch
    exact h.remove_of_hit hSearch
  · intro key index hSearch
    obtain ⟨before, after, hKeys, rfl, -⟩ := h.search_gap hSearch
    refine ⟨?_, h.length_lt⟩
    rw [h.length, hKeys, List.length_append]
    exact Nat.le_add_right _ _
  · intro cause
    exact h.encode_ne_corruption cause

/-- Neither the order of the keys nor where they came from is assumed. -/
theorem invariant_of_reached (h : Reached checksum page) :
    page.WellFormed ∧ page.Safe checksum := by
  obtain ⟨xs, hHolds, hHint⟩ := h.exists_holds
  exact ⟨hHolds.wellFormed hHint, hHolds.safe checksum⟩

/-- An insertion among keys in descending order moves both of them. -/
theorem invariant_of_insert_descending :
    ∃ page, decode .int { capacity := 3 } 0 (sealed Checksum.crc32 [2, 2, 1]) = .ok page ∧
      page.keys = [.int 2, .int 1] ∧ (page.insert (.int 1)).value.1 = .ok true ∧
      let next := (page.step Checksum.crc32 (.insert (.int 1))).2
      next.keys = [.int 1, .int 2, .int 1] ∧ next.WellFormed ∧ next.Safe Checksum.crc32 := by
  have hDecode : decode .int { capacity := 3 } 0 (sealed Checksum.crc32 [2, 2, 1]) =
      .ok (ofKeys .int { capacity := 3 } [.int 2, .int 1]) := by
    rw [decode_sealed]
    rfl
  refine ⟨_, hDecode, rfl, by decide +kernel, by decide +kernel, ?_⟩
  exact invariant_of_reached ((Reached.decoded hDecode).step _)

end Page

end RowStore
