import Mathlib.Algebra.Order.Ring.Nat
import Mathlib.Data.Nat.Size
import RowStore.Proofs.Scan
import RowStore.Proofs.Page.Invariant

/-!
# Where a search looks

Behind the first slot, which may be any, a search looks at the middle of what is left, so that it
looks at few slots and at none twice. What it has seen at the two ends of what is left is all that
its answer rests on. Slots that are out of order therefore make no difference to what a gap
promises: a smaller neighbour below and a greater one above (`search_between_neighbours`).
-/

namespace RowStore

/-- What a search for a key among the first `count` slots has seen, and what its answer rests on. -/
structure Search.Justified (schema : Schema) (key : Value) (slots : Storage) (count : Nat)
    (found : Search) : Prop where
  length_le : found.probes.length ≤ if count = 0 then 0 else 1 + (count - 1).size
  within : ∀ index ∈ found.probes, index < count
  nodup : found.probes.Nodup
  of_hit : ∀ index, found.position = .hit index → index < count ∧
    ∃ x, slots[index]? = some (some x) ∧ schema.compare key x = .eq
  of_gap : ∀ index, found.position = .gap index → index ≤ count ∧
    (0 < index → slots[index - 1]? = some none ∨
      ∃ x, slots[index - 1]? = some (some x) ∧ schema.compare x key = .lt) ∧
    (index < count → ∃ x, slots[index]? = some (some x) ∧ schema.compare x key = .gt)

namespace Schema

variable {slots : Storage} {low high probe : Nat}

theorem compare_swap (schema : Schema) (x y : Value) :
    schema.compare y x = (schema.compare x y).swap :=
  schema.compare_eq ▸ Value.ordersContents_order.swap x y

/-- The comparisons that looking at these slots takes. -/
def weighProbes (schema : Schema) (key : Value) (slots : Storage) : List Nat → Tally
  | [] => {}
  | probe :: probes =>
    (schema.weighSlot key (slots.value? probe)).tally + schema.weighProbes key slots probes

theorem tally_bisect (schema : Schema) (key : Value) (slots : Storage) (low high probe : Nat) :
    (schema.bisect key slots low high probe).tally =
      schema.weighProbes key slots (schema.bisect key slots low high probe).value.probes := by
  induction low, high, probe using bisect.induct with
  | case1 low high probe hWithin ihAbove ihBelow =>
    rw [value_bisect_of_probe schema key slots hWithin, bisect, dif_pos hWithin,
      Counted.tally_bind, value_weighSlot]
    cases slots.orderAt key probe with
    | eq => rfl
    | gt =>
      dsimp only
      rw [Counted.tally_bind, ihAbove]
      rfl
    | lt =>
      dsimp only
      rw [Counted.tally_bind, ihBelow]
      rfl
  | case2 low high probe hOutside =>
    rw [value_bisect_of_empty schema key slots hOutside, bisect, dif_neg hOutside]
    rfl

theorem nodup_bisect (schema : Schema) (key : Value) (slots : Storage) (low high probe : Nat) :
    (schema.bisect key slots low high probe).value.probes.Nodup := by
  induction low, high, probe using bisect.induct with
  | case1 low high probe hWithin ihAbove ihBelow =>
    rw [value_bisect_of_probe schema key slots hWithin]
    cases slots.orderAt key probe with
    | eq => exact List.nodup_cons.mpr ⟨List.not_mem_nil, List.nodup_nil⟩
    | gt =>
      have hSound := schema.bisect_sound key slots (probe + 1) high
        (probe + 1 + (high - (probe + 1)) / 2) (by omega) (.middle _ _)
      refine List.nodup_cons.mpr ⟨fun hAgain => ?_, ihAbove⟩
      have hProbe := hSound.probes_within probe hAgain
      omega
    | lt =>
      have hSound := schema.bisect_sound key slots low probe (low + (probe - low) / 2) (by omega)
        (.middle _ _)
      refine List.nodup_cons.mpr ⟨fun hAgain => ?_, ihBelow⟩
      have hProbe := hSound.probes_within probe hAgain
      omega
  | case2 low high probe hOutside =>
    rw [value_bisect_of_empty schema key slots hOutside]
    exact List.nodup_nil

/-- From the middle on, each slot that is looked at halves what is left. -/
theorem length_bisect_middle_le (schema : Schema) (key : Value) (slots : Storage) :
    ∀ {bits low high : Nat}, high - low < 2 ^ bits →
      (schema.bisect key slots low high (low + (high - low) / 2)).value.probes.length ≤ bits
  | 0, low, high, h => by
    rw [value_bisect_of_empty schema key slots (by omega)]
    exact Nat.le_refl 0
  | bits + 1, low, high, h => by
    rw [Nat.pow_succ] at h
    by_cases hEmpty : high ≤ low
    · rw [value_bisect_of_empty schema key slots (by omega)]
      exact Nat.zero_le _
    · rw [value_bisect_of_probe schema key slots (by omega)]
      cases slots.orderAt key (low + (high - low) / 2) with
      | eq => exact Nat.le_add_left 1 bits
      | gt => exact Nat.succ_le_succ (length_bisect_middle_le schema key slots (by omega))
      | lt => exact Nat.succ_le_succ (length_bisect_middle_le schema key slots (by omega))

theorem length_bisect_le (schema : Schema) (key : Value) (slots : Storage)
    (h : low ≤ probe ∧ probe < high) :
    (schema.bisect key slots low high probe).value.probes.length ≤ 1 + (high - low - 1).size := by
  have hSize := Nat.lt_size_self (high - low - 1)
  rw [value_bisect_of_probe schema key slots h, Nat.add_comm 1]
  cases slots.orderAt key probe with
  | eq => exact Nat.le_add_left 1 _
  | gt => exact Nat.succ_le_succ (length_bisect_middle_le schema key slots (by omega))
  | lt => exact Nat.succ_le_succ (length_bisect_middle_le schema key slots (by omega))

theorem length_search_le (schema : Schema) (key : Value) (slots : Storage) (len guess : Nat) :
    (schema.search key slots len guess).value.probes.length ≤
      if min len slots.length = 0 then 0 else 1 + (min len slots.length - 1).size := by
  unfold search
  split
  · rename_i hNone
    rw [value_bisect_of_empty schema key slots (by omega)]
    exact Nat.le_refl 0
  · rename_i hSome
    exact length_bisect_le schema key slots
      (Search.Aligned.first _ guess (Nat.pos_of_ne_zero hSome))

/-- A slot is empty and below the key, or compares as the value in it does. -/
theorem orderAt_cases (schema : Schema) (key : Value) {index : Nat} (h : index < slots.length) :
    (slots[index]? = some none ∧ slots.orderAt key index = .gt) ∨
    ∃ x, slots[index]? = some (some x) ∧ slots.orderAt key index = schema.compare key x := by
  have hSlot := List.getElem?_eq_getElem h
  rw [schema.orderAt_eq key slots index _ hSlot, hSlot]
  cases slots[index] with
  | none => exact .inl ⟨rfl, rfl⟩
  | some x => exact .inr ⟨x, rfl, rfl⟩

theorem justified_search (schema : Schema) (key : Value) (slots : Storage) (len guess : Nat) :
    (schema.search key slots len guess).value.Justified schema key slots
      (min len slots.length) where
  length_le := schema.length_search_le key slots len guess
  within index hIndex :=
    ((schema.search_sound key slots len guess).probes_within index hIndex).2
  nodup := schema.nodup_bisect key slots _ _ _
  of_hit index hHit := by
    have hFits := (schema.search_sound key slots len guess).fits
    rw [hHit] at hFits
    obtain ⟨-, hIndex, hEq⟩ := hFits
    have hSlots : index < slots.length := Nat.lt_of_lt_of_le hIndex (Nat.min_le_right _ _)
    rcases schema.orderAt_cases key hSlots with ⟨-, hOrder⟩ | ⟨x, hSlot, hOrder⟩
    · rw [hEq] at hOrder
      cases hOrder
    · exact ⟨hIndex, x, hSlot, hOrder.symm.trans hEq⟩
  of_gap index hGap := by
    have hFits := (schema.search_sound key slots len guess).fits
    rw [hGap] at hFits
    obtain ⟨-, hIndex, hBelow, hAbove⟩ := hFits
    refine ⟨hIndex, ?_, ?_⟩
    · intro hPos
      have hSlots : index - 1 < slots.length := by omega
      rcases schema.orderAt_cases key hSlots with ⟨hEmpty, -⟩ | ⟨x, hSlot, hOrder⟩
      · exact .inl hEmpty
      · refine .inr ⟨x, hSlot, ?_⟩
        rw [schema.compare_swap, ← hOrder, hBelow hPos]
        rfl
    · intro hInside
      have hSlots : index < slots.length := Nat.lt_of_lt_of_le hInside (Nat.min_le_right _ _)
      rcases schema.orderAt_cases key hSlots with ⟨-, hOrder⟩ | ⟨x, hSlot, hOrder⟩
      · rw [hAbove hInside] at hOrder
        cases hOrder
      · refine ⟨x, hSlot, ?_⟩
        rw [schema.compare_swap, ← hOrder, hAbove hInside]
        rfl

/-- Nothing is assumed of the slots. In a page every slot that is searched is filled, so that a new
key has a smaller neighbour on its left and a greater one on its right, in order or not. -/
theorem search_between_neighbours (checksum : Bytes → UInt32) :
    (∀ (schema : Schema) key slots len guess,
      (schema.search key slots len guess).value.Justified schema key slots
        (min len slots.length) ∧
      (schema.search key slots len guess).tally =
        schema.weighProbes key slots (schema.search key slots len guess).value.probes) ∧
    ∀ page, Page.Reached checksum page → ∀ key index,
      (page.search key).value.position = .gap index →
        ∃ before after, page.keys = before ++ after ∧ index = before.length ∧
          (∀ x ∈ before.getLast?, page.schema.compare x key = .lt) ∧
          ∀ x ∈ after.head?, page.schema.compare x key = .gt := by
  constructor
  · intro schema key slots len guess
    exact ⟨schema.justified_search key slots len guess, schema.tally_bisect key slots _ _ _⟩
  · intro page hReached key index hGap
    obtain ⟨before, after, hKeys, hIndex, hLeft, hRight⟩ := hReached.holds.search_gap hGap
    refine ⟨before, after, hKeys, hIndex, ?_, ?_⟩
    · intro x hx
      rw [page.schema.compare_swap, compare_eq, hLeft x hx]
      rfl
    · intro x hx
      rw [page.schema.compare_swap, compare_eq, hRight x hx]
      rfl

/-- Slots out of order, with a hole. From the last slot on, two more are looked at, and the answer
lies between the hole and a greater value. -/
theorem search_between_neighbours_hole :
    let slots : Storage := [some (.int 9), none, some (.int 7), some (.int 3), some (.int 8)]
    let found := (int.search (.int 5) slots 5 4).value
    found = ⟨.gap 2, [4, 2, 1]⟩ ∧ found.probes.length ≤ 1 + (5 - 1).size ∧
      (slots[1]? = some none ∨ ∃ x, slots[1]? = some (some x) ∧ int.compare x (.int 5) = .lt) ∧
      ∃ x, slots[2]? = some (some x) ∧ int.compare x (.int 5) = .gt := by
  intro slots found
  have hFound : found = ⟨.gap 2, [4, 2, 1]⟩ := by decide +kernel
  obtain ⟨hSearch, -⟩ := search_between_neighbours Checksum.crc32
  obtain ⟨hJustified, -⟩ := hSearch int (.int 5) slots 5 4
  obtain ⟨-, hBelow, hAbove⟩ := hJustified.of_gap 2 (congrArg Search.position hFound)
  exact ⟨hFound, hJustified.length_le, hBelow (by decide), hAbove (by decide)⟩

end Schema

end RowStore
