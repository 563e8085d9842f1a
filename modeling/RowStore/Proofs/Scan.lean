import RowStore.Proofs.OrderLaws

/-!
# Search and linear scan

Slots that ascend are searched with the same result as if they were looked at one after another
(`search_agrees_with_scan`). Where the search looks first shows only when slots are equal, and what
lies behind the slots that are searched never does (`search_congr`).
-/

namespace RowStore

namespace Schema

/-- How a key compares to a slot. An empty slot is below every key. -/
def compareSlot (schema : Schema) (key : Value) : Option Value → Ordering
  | some x => schema.compare key x
  | none => .gt

/-- Looks at one slot after another, up to the first that is not below the key. The first of `slots`
has the number `index`. -/
def scan (schema : Schema) (key : Value) : (index : Nat) → (slots : Storage) → Position
  | index, [] => .gap index
  | index, slot :: slots =>
    match schema.compareSlot key slot with
    | .gt => schema.scan key (index + 1) slots
    | .eq => .hit index
    | .lt => .gap index

/-- No two of the values held are equal. -/
def Distinct (schema : Schema) (slots : Storage) : Prop :=
  slots.values.Pairwise fun x y => schema.compare x y ≠ .eq

instance (schema : Schema) : DecidableRel schema.SlotLE
  | none, _ => isTrue trivial
  | some _, none => isFalse id
  | some x, some y => inferInstanceAs (Decidable (schema.compare x y).isLE)

instance (schema : Schema) (slots : Storage) : Decidable (schema.Ascending slots) :=
  inferInstanceAs (Decidable (slots.Pairwise schema.SlotLE))

instance (schema : Schema) (slots : Storage) : Decidable (schema.Distinct slots) :=
  inferInstanceAs (Decidable (slots.values.Pairwise fun x y => schema.compare x y ≠ .eq))

end Schema

/-- The position tells where the key is, or would have to be put, among all of the slots. -/
structure Position.Locates (schema : Schema) (key : Value) (slots : Storage) (position : Position) :
    Prop where
  hit_iff : (∃ index, position = .hit index) ↔
    ∃ x, some x ∈ slots ∧ schema.compare key x = .eq
  of_hit : ∀ index, position = .hit index →
    ∃ x, slots[index]? = some (some x) ∧ schema.compare key x = .eq
  of_gap : ∀ index, position = .gap index →
    index = slots.countP (fun slot => schema.compareSlot key slot = .gt) ∧
    (∀ slot ∈ slots.take index, schema.compareSlot key slot = .gt) ∧
    ∀ slot ∈ slots.drop index, schema.compareSlot key slot = .lt

namespace Schema

variable {schema : Schema} {key x : Value} {slots others before after : Storage}
  {a b : Option Value} {index len : Nat}

theorem orderAt_eq (schema : Schema) (key : Value) (slots : Storage) (index : Nat)
    (a : Option Value) (h : slots[index]? = some a) :
    slots.orderAt key index = schema.compareSlot key a := by
  rw [Storage.orderAt, Storage.value?, h]
  cases a with
  | none => rfl
  | some x => exact (schema.compare_eq_order key x).symm

theorem exists_of_compareSlot_eq (h : schema.compareSlot key a = .eq) :
    ∃ x, a = some x ∧ schema.compare key x = .eq := by
  cases a with
  | none => cases h
  | some x => exact ⟨x, rfl, h⟩

theorem compareSlot_eq_gt_of_slotLE (h : schema.SlotLE a b)
    (hb : schema.compareSlot key b = .gt) : schema.compareSlot key a = .gt := by
  cases a with
  | none => rfl
  | some x =>
    cases b with
    | none => exact h.elim
    | some y =>
      rw [SlotLE, compare_eq] at h
      rw [compareSlot, compare_eq, Std.OrientedCmp.gt_iff_lt] at hb ⊢
      exact Value.ordersContents_order.lt_of_le_of_lt x y key h hb

theorem compareSlot_eq_lt_of_slotLE (h : schema.SlotLE a b)
    (ha : schema.compareSlot key a = .lt) : schema.compareSlot key b = .lt := by
  cases a with
  | none => cases ha
  | some x =>
    cases b with
    | none => exact h.elim
    | some y =>
      rw [SlotLE, compare_eq] at h
      rw [compareSlot, compare_eq] at ha ⊢
      exact Value.ordersContents_order.lt_of_lt_of_le key x y ha h

theorem Ascending.below (h : schema.Ascending (before ++ after))
    (hLast : ∀ a ∈ before.getLast?, schema.compareSlot key a = .gt) :
    ∀ a ∈ before, schema.compareSlot key a = .gt :=
  forall_mem_of_getLast? (List.pairwise_append.mp h).1
    (fun _ _ hLE => compareSlot_eq_gt_of_slotLE hLE) hLast

theorem Ascending.above (h : schema.Ascending (before ++ after))
    (hHead : ∀ a ∈ after.head?, schema.compareSlot key a = .lt) :
    ∀ a ∈ after, schema.compareSlot key a = .lt :=
  forall_mem_of_head? (List.pairwise_append.mp h).2.1
    (fun _ _ hLE => compareSlot_eq_lt_of_slotLE hLE) hHead

theorem locates_hit (hEq : schema.compare key x = .eq) :
    (Position.hit before.length).Locates schema key (before ++ some x :: after) where
  hit_iff := by
    have hMem : some x ∈ before ++ some x :: after :=
      List.mem_append_right before List.mem_cons_self
    exact iff_of_true ⟨_, rfl⟩ ⟨x, hMem, hEq⟩
  of_hit index hHit := by
    cases hHit
    exact ⟨x, by simp, hEq⟩
  of_gap index hGap := by cases hGap

theorem locates_gap (hBelow : ∀ a ∈ before, schema.compareSlot key a = .gt)
    (hAbove : ∀ a ∈ after, schema.compareSlot key a = .lt) :
    (Position.gap before.length).Locates schema key (before ++ after) where
  hit_iff := by
    apply iff_of_false
    · rintro ⟨index, hHit⟩
      cases hHit
    · rintro ⟨x, hMem, hEq⟩
      have hSlot : schema.compareSlot key (some x) = .eq := hEq
      rcases List.mem_append.mp hMem with hBefore | hAfter
      · rw [hBelow _ hBefore] at hSlot
        cases hSlot
      · rw [hAbove _ hAfter] at hSlot
        cases hSlot
  of_hit index hHit := by cases hHit
  of_gap index hGap := by
    cases hGap
    refine ⟨?_, ?_, ?_⟩
    · rw [countP_split hBelow]
      intro a ha hGreater
      rw [hAbove a ha] at hGreater
      cases hGreater
    · rw [List.take_left]
      exact hBelow
    · rw [List.drop_left]
      exact hAbove

theorem scan_append (hBelow : ∀ a ∈ before, schema.compareSlot key a = .gt) (index : Nat) :
    schema.scan key index (before ++ after) = schema.scan key (index + before.length) after := by
  induction before generalizing index with
  | nil => rfl
  | cons a before ih =>
    rw [List.cons_append, scan, hBelow a List.mem_cons_self, List.length_cons]
    dsimp only
    rw [ih (fun b hb => hBelow b (List.mem_cons_of_mem a hb)), Nat.add_assoc, Nat.add_comm 1]

theorem scan_of_above (hAbove : ∀ a ∈ slots, schema.compareSlot key a = .lt) (index : Nat) :
    schema.scan key index slots = .gap index := by
  cases slots with
  | nil => rfl
  | cons a slots => rw [scan, hAbove a List.mem_cons_self]

/-- When no values are equal, the slots before a hit are below the key. -/
theorem Ascending.below_of_distinct (h : schema.Ascending (before ++ some x :: after))
    (hDistinct : schema.Distinct (before ++ some x :: after)) (hEq : schema.compare key x = .eq) :
    ∀ a ∈ before, schema.compareSlot key a = .gt := by
  intro a ha
  rw [Ascending, List.pairwise_append] at h
  rw [Distinct, Storage.values, List.pairwise_filterMap, List.pairwise_append] at hDistinct
  cases a with
  | none => rfl
  | some y =>
    have hLE : schema.SlotLE (some y) (some x) := h.2.2 _ ha _ List.mem_cons_self
    have hNe : schema.compare y x ≠ .eq :=
      hDistinct.2.2 _ ha _ List.mem_cons_self y rfl x rfl
    rw [SlotLE, Ordering.isLE_iff_eq_lt_or_eq_eq] at hLE
    have hLt : schema.compare y x = .lt := hLE.resolve_right hNe
    rw [compare_eq] at hEq hLt
    rw [compareSlot, compare_eq, Value.order_congr (Value.order_eq_iff.mp hEq) rfl,
      Std.OrientedCmp.gt_iff_lt]
    exact hLt

theorem bisect_congr (schema : Schema) (key : Value) (low high probe : Nat)
    (h : ∀ index < high, slots.value? index = others.value? index) :
    schema.bisect key slots low high probe = schema.bisect key others low high probe := by
  induction low, high, probe using bisect.induct with
  | case1 low high probe hWithin ihAbove ihBelow =>
    have hBelow := ihBelow fun index hIndex => h index (by omega)
    rw [bisect.eq_def schema key slots, bisect.eq_def schema key others, dif_pos hWithin,
      dif_pos hWithin, h probe hWithin.2, ihAbove h, hBelow]
  | case2 low high probe hOutside =>
    rw [bisect.eq_def schema key slots, bisect.eq_def schema key others, dif_neg hOutside,
      dif_neg hOutside]

/-- Only the slots that are searched take part, whatever lies behind them. -/
theorem search_take (schema : Schema) (key : Value) (slots : Storage) (len guess : Nat) :
    schema.search key (slots.take len) (slots.take len).length guess =
      schema.search key slots len guess := by
  unfold search
  rw [Nat.min_self, List.length_take]
  apply bisect_congr
  intro index hIndex
  rw [Storage.value?, Storage.value?, List.getElem?_take_of_lt (by omega)]

theorem search_congr (schema : Schema) (key : Value) {len' : Nat}
    (h : others.take len' = slots.take len) (guess : Nat) :
    schema.search key others len' guess = schema.search key slots len guess := by
  rw [← search_take, h, search_take]

/-- What a search of all slots answers, and why. -/
theorem Ascending.search_cases (h : schema.Ascending slots) (key : Value) (guess : Nat) :
    (∃ before x after, slots = before ++ some x :: after ∧ schema.compare key x = .eq ∧
      (schema.search key slots slots.length guess).value.position = .hit before.length) ∨
    (∃ before after, slots = before ++ after ∧
      (∀ a ∈ before, schema.compareSlot key a = .gt) ∧
      (∀ a ∈ after, schema.compareSlot key a = .lt) ∧
      (schema.search key slots slots.length guess).value.position = .gap before.length) := by
  have hFits := (schema.search_sound key slots slots.length guess).fits
  rw [Nat.min_self] at hFits
  cases hPosition : (schema.search key slots slots.length guess).value.position with
  | hit index =>
    rw [hPosition] at hFits
    obtain ⟨before, a, after, hSlots, rfl, hEq⟩ :=
      hFits.exists_split_of_hit (schema.orderAt_eq key slots)
    obtain ⟨x, rfl, hEq⟩ := exists_of_compareSlot_eq hEq
    exact .inl ⟨before, x, after, hSlots, hEq, rfl⟩
  | gap index =>
    rw [hPosition] at hFits
    obtain ⟨before, after, rfl, rfl, hLast, hHead⟩ :=
      hFits.exists_split_of_gap (schema.orderAt_eq key slots)
    exact .inr ⟨before, after, rfl, h.below hLast, h.above hHead, rfl⟩

/-- The first slots, or all when there are fewer, have to ascend. Nothing is asked of the others,
nor of the slot that is looked at first. -/
theorem search_agrees_with_scan (schema : Schema) (key : Value) {slots : Storage} {len : Nat}
    (h : schema.Ascending (slots.take len)) :
    (∀ guess, (schema.search key slots len guess).value.position.Locates schema key
      (slots.take len)) ∧
    (schema.Distinct (slots.take len) → ∀ guess,
      (schema.search key slots len guess).value.position = schema.scan key 0 (slots.take len)) ∧
    (∀ (others : Storage) (len' : Nat), others.take len' = slots.take len → ∀ guess,
      schema.search key others len' guess = schema.search key slots len guess) := by
  refine ⟨?_, ?_, ?_⟩
  · intro guess
    rw [← search_take]
    rcases h.search_cases key guess with
      ⟨before, x, after, hSlots, hEq, hPosition⟩ |
      ⟨before, after, hSlots, hBelow, hAbove, hPosition⟩
    · rw [hPosition, hSlots]
      exact locates_hit hEq
    · rw [hPosition, hSlots]
      exact locates_gap hBelow hAbove
  · intro hDistinct guess
    rw [← search_take]
    rcases h.search_cases key guess with
      ⟨before, x, after, hSlots, hEq, hPosition⟩ |
      ⟨before, after, hSlots, hBelow, hAbove, hPosition⟩
    · rw [hSlots] at h hDistinct
      have hSlot : schema.compareSlot key (some x) = .eq := hEq
      rw [hPosition, hSlots, scan_append (h.below_of_distinct hDistinct hEq), scan, hSlot,
        Nat.zero_add]
    · rw [hPosition, hSlots, scan_append hBelow, scan_of_above hAbove, Nat.zero_add]
  · intro others len' hSame guess
    exact search_congr schema key hSame guess

/-- Slots with a hole. The first have equal values, and behind those searched a value that is out of
order; of the others more are asked for than there are. -/
theorem search_agrees_with_scan_holes :
    (∃ index, (int.search (.int 3) [none, some (.int 1), some (.int 3), some (.int 3), some (.int 0)]
      4 18446744073709551615).value.position = .hit index) ∧
    ∀ guess, (int.search (.int 5) [none, some (.int 1), some (.int 3), some (.int 7)]
      9 guess).value.position = .gap 3 := by
  constructor
  · let slots : Storage := [none, some (.int 1), some (.int 3), some (.int 3), some (.int 0)]
    have hAscending : int.Ascending (slots.take 4) := by decide
    obtain ⟨hLocates, -⟩ := search_agrees_with_scan int (.int 3) hAscending
    exact (hLocates _).hit_iff.mpr ⟨.int 3, by decide, rfl⟩
  · intro guess
    let slots : Storage := [none, some (.int 1), some (.int 3), some (.int 7)]
    have hAscending : int.Ascending (slots.take 9) := by decide
    have hDistinct : int.Distinct (slots.take 9) := by decide
    obtain ⟨-, hScan, -⟩ := search_agrees_with_scan int (.int 5) hAscending
    exact hScan hDistinct guess

end Schema

end RowStore
