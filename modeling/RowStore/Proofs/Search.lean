import RowStore.Storage.Search
import RowStore.Proofs.Order

/-!
# What a search finds

Nothing is assumed of the slots here. The slots that a search looks at lie within its bounds, so that
it ends just when these leave no slot (`Search.Aligned.within_iff`). A hit is equal to the key, and a
gap lies between a slot below the key and a slot above it, as far as the bounds leave such slots. A
list that compares to the key as the slots do can be split there.
-/

namespace RowStore

/-- How a key compares to a slot. An empty slot is below every key. -/
def Storage.orderAt (slots : Storage) (key : Value) (index : Nat) : Ordering :=
  match slots.value? index with
  | some x => key.order x
  | none => .gt

def Position.Fits (slots : Storage) (key : Value) (low high : Nat) : Position → Prop
  | hit index => low ≤ index ∧ index < high ∧ slots.orderAt key index = .eq
  | gap index => low ≤ index ∧ index ≤ high ∧
    (low < index → slots.orderAt key (index - 1) = .gt) ∧
    (index < high → slots.orderAt key index = .lt)

section Splits

variable {α : Type} {as before after : List α} {r : α → α → Prop} {p : α → Prop}
  {cmp : α → Ordering} {slots : Storage} {key : Value} {index : Nat}

theorem forall_mem_of_getLast? (h : before.Pairwise r) (hDown : ∀ a b, r a b → p b → p a)
    (hLast : ∀ a ∈ before.getLast?, p a) : ∀ a ∈ before, p a := by
  intro a ha
  rcases List.eq_nil_or_concat before with rfl | ⟨init, last, rfl⟩
  · cases ha
  · rw [List.concat_eq_append] at h ha hLast
    have hGreatest : p last := hLast last (by simp)
    rcases List.mem_append.mp ha with hInit | hEnd
    · have hBelow : r a last := (List.pairwise_append.mp h).2.2 a hInit last List.mem_cons_self
      exact hDown a last hBelow hGreatest
    · rwa [List.mem_singleton.mp hEnd]

theorem forall_mem_of_head? (h : after.Pairwise r) (hUp : ∀ a b, r a b → p a → p b)
    (hHead : ∀ a ∈ after.head?, p a) : ∀ a ∈ after, p a := by
  intro a ha
  cases after with
  | nil => cases ha
  | cons first rest =>
    have hLeast : p first := hHead first rfl
    rcases List.mem_cons.mp ha with rfl | hRest
    · exact hLeast
    · exact hUp first a ((List.pairwise_cons.mp h).1 a hRest) hLeast

theorem countP_split [DecidablePred p] (hBefore : ∀ a ∈ before, p a) (hAfter : ∀ a ∈ after, ¬p a) :
    (before ++ after).countP (fun a => p a) = before.length := by
  have hAll : before.countP (fun a => p a) = before.length := by
    apply List.countP_eq_length.mpr
    intro a ha
    exact decide_eq_true (hBefore a ha)
  have hNone : after.countP (fun a => p a) = 0 := by
    apply List.countP_eq_zero.mpr
    intro a ha
    rw [decide_eq_true_iff]
    exact hAfter a ha
  rw [List.countP_append, hAll, hNone, Nat.add_zero]

/-- Where nothing has a property behind what lacks it, a list splits into what has it and what
lacks it. -/
theorem exists_split_of_pairwise (h : as.Pairwise fun a b => ¬p a → ¬p b) :
    ∃ before after, as = before ++ after ∧ (∀ a ∈ before, p a) ∧ ∀ a ∈ after, ¬p a := by
  induction as with
  | nil => exact ⟨[], [], rfl, List.forall_mem_nil _, List.forall_mem_nil _⟩
  | cons a as ih =>
    obtain ⟨hFirst, hRest⟩ := List.pairwise_cons.mp h
    by_cases hHas : p a
    · obtain ⟨before, after, rfl, hBefore, hAfter⟩ := ih hRest
      exact ⟨a :: before, after, rfl, List.forall_mem_cons.mpr ⟨hHas, hBefore⟩, hAfter⟩
    · refine ⟨[], a :: as, rfl, List.forall_mem_nil _, List.forall_mem_cons.mpr ⟨hHas, ?_⟩⟩
      intro b hb
      exact hFirst b hb hHas

/-- In a list of which only a middle part has a property, the places of that part tell it. -/
theorem iff_of_getElem? {within : List α} {a : α} (hBefore : ∀ a ∈ before, ¬p a)
    (hWithin : ∀ a ∈ within, p a) (hAfter : ∀ a ∈ after, ¬p a)
    (h : (before ++ (within ++ after))[index]? = some a) :
    p a ↔ before.length ≤ index ∧ index < before.length + within.length := by
  rcases Nat.lt_or_ge index before.length with hLow | hLow
  · rw [List.getElem?_append_left hLow] at h
    exact iff_of_false (hBefore a (List.mem_of_getElem? h)) (by omega)
  rw [List.getElem?_append_right hLow] at h
  rcases Nat.lt_or_ge index (before.length + within.length) with hHigh | hHigh
  · rw [List.getElem?_append_left (by omega)] at h
    exact iff_of_true (hWithin a (List.mem_of_getElem? h)) ⟨hLow, hHigh⟩
  · rw [List.getElem?_append_right (by omega)] at h
    exact iff_of_false (hAfter a (List.mem_of_getElem? h)) (by omega)

/-- A hit splits any list that compares to the key as the slots do. -/
theorem Position.Fits.exists_split_of_hit (h : (hit index).Fits slots key 0 as.length)
    (hCmp : ∀ i a, as[i]? = some a → slots.orderAt key i = cmp a) :
    ∃ before a after, as = before ++ a :: after ∧ index = before.length ∧ cmp a = .eq := by
  obtain ⟨-, hIndex, hOrder⟩ := h
  refine ⟨as.take index, as[index], as.drop (index + 1), ?_, ?_, ?_⟩
  · rw [List.getElem_cons_drop, List.take_append_drop]
  · rw [List.length_take]
    omega
  · rw [← hCmp index _ (List.getElem?_eq_getElem hIndex)]
    exact hOrder

/-- A gap splits it too, and the neighbours of the gap are on either side of the key. -/
theorem Position.Fits.exists_split_of_gap (h : (gap index).Fits slots key 0 as.length)
    (hCmp : ∀ i a, as[i]? = some a → slots.orderAt key i = cmp a) :
    ∃ before after, as = before ++ after ∧ index = before.length ∧
      (∀ a ∈ before.getLast?, cmp a = .gt) ∧ ∀ a ∈ after.head?, cmp a = .lt := by
  obtain ⟨-, hIndex, hBelow, hAbove⟩ := h
  refine ⟨as.take index, as.drop index, (List.take_append_drop index as).symm, ?_, ?_, ?_⟩
  · rw [List.length_take]
    omega
  · intro a ha
    rw [List.getLast?_take] at ha
    split at ha
    · cases ha
    · have hLast : as[index - 1]? = some as[index - 1] := List.getElem?_eq_getElem (by omega)
      rw [hLast, Option.some_or, Option.mem_some_iff] at ha
      rw [← hCmp _ a (ha ▸ hLast)]
      exact hBelow (by omega)
  · intro a ha
    rw [List.head?_drop, Option.mem_def] at ha
    have hInside : index < as.length := (List.getElem?_eq_some_iff.mp ha).1
    rw [← hCmp _ a ha]
    exact hAbove hInside

end Splits

/-- The probe lies within the bounds, unless these leave no slot. -/
def Search.Aligned (low high probe : Nat) : Prop := low < high → low ≤ probe ∧ probe < high

namespace Search.Aligned

variable {low high probe : Nat}

/-- Every probe behind the first one is the middle of what is left. -/
theorem middle (low high : Nat) : Aligned low high (low + (high - low) / 2) := by
  intro h
  omega

theorem first (count guess : Nat) :
    Aligned 0 count (if guess < count then guess else count / 2) := by
  intro h
  split <;> omega

/-- A search goes on while there are slots left. -/
theorem within_iff (h : Aligned low high probe) : low ≤ probe ∧ probe < high ↔ low < high := by
  constructor
  · rintro ⟨hLow, hHigh⟩
    exact Nat.lt_of_le_of_lt hLow hHigh
  · exact h

end Search.Aligned

structure Search.Sound (slots : Storage) (key : Value) (low high : Nat) (found : Search) : Prop where
  fits : found.position.Fits slots key low high
  probes_within : ∀ index ∈ found.probes, low ≤ index ∧ index < high

namespace Schema

theorem value_weighSlot (schema : Schema) (key : Value) (slots : Storage) (index : Nat) :
    (schema.weighSlot key (slots.value? index)).value = slots.orderAt key index := by
  unfold Storage.orderAt
  cases slots.value? index with
  | none => rfl
  | some x => exact schema.value_weigh key x

theorem value_bisect_of_probe (schema : Schema) (key : Value) (slots : Storage)
    {low high probe : Nat} (h : low ≤ probe ∧ probe < high) :
    (schema.bisect key slots low high probe).value =
      match slots.orderAt key probe with
      | .eq => ⟨.hit probe, [probe]⟩
      | .gt =>
        let found := (schema.bisect key slots (probe + 1) high
          (probe + 1 + (high - (probe + 1)) / 2)).value
        { found with probes := probe :: found.probes }
      | .lt =>
        let found := (schema.bisect key slots low probe (low + (probe - low) / 2)).value
        { found with probes := probe :: found.probes } := by
  rw [bisect, dif_pos h, Counted.value_bind, value_weighSlot]
  cases slots.orderAt key probe <;> rfl

theorem value_bisect_of_empty (schema : Schema) (key : Value) (slots : Storage)
    {low high probe : Nat} (h : ¬(low ≤ probe ∧ probe < high)) :
    (schema.bisect key slots low high probe).value = ⟨.gap low, []⟩ := by
  rw [bisect, dif_neg h]
  rfl

theorem sound_of_above {slots : Storage} {key : Value} {low high probe : Nat} {found : Search}
    (hProbe : low ≤ probe ∧ probe < high) (hOrder : slots.orderAt key probe = .gt)
    (h : found.Sound slots key (probe + 1) high) :
    Search.Sound slots key low high { found with probes := probe :: found.probes } where
  fits := by
    have hFits := h.fits
    cases hPosition : found.position with
    | hit index =>
      rw [hPosition] at hFits
      obtain ⟨hLow, hHigh, hEq⟩ := hFits
      exact ⟨by omega, hHigh, hEq⟩
    | gap index =>
      rw [hPosition] at hFits
      obtain ⟨hLow, hHigh, hBelow, hAbove⟩ := hFits
      refine ⟨by omega, hHigh, ?_, hAbove⟩
      intro _
      by_cases hIndex : index = probe + 1
      · simpa [hIndex] using hOrder
      · exact hBelow (by omega)
  probes_within index hIndex := by
    rcases List.mem_cons.mp hIndex with rfl | hIndex
    · exact hProbe
    · have hWithin := h.probes_within index hIndex
      omega

theorem sound_of_below {slots : Storage} {key : Value} {low high probe : Nat} {found : Search}
    (hProbe : low ≤ probe ∧ probe < high) (hOrder : slots.orderAt key probe = .lt)
    (h : found.Sound slots key low probe) :
    Search.Sound slots key low high { found with probes := probe :: found.probes } where
  fits := by
    have hFits := h.fits
    cases hPosition : found.position with
    | hit index =>
      rw [hPosition] at hFits
      obtain ⟨hLow, hHigh, hEq⟩ := hFits
      exact ⟨hLow, by omega, hEq⟩
    | gap index =>
      rw [hPosition] at hFits
      obtain ⟨hLow, hHigh, hBelow, hAbove⟩ := hFits
      refine ⟨hLow, by omega, hBelow, ?_⟩
      intro _
      by_cases hIndex : index = probe
      · rw [hIndex]
        exact hOrder
      · exact hAbove (by omega)
  probes_within index hIndex := by
    rcases List.mem_cons.mp hIndex with rfl | hIndex
    · exact hProbe
    · have hWithin := h.probes_within index hIndex
      omega

/-- The first probe is free as long as it lies within the bounds. -/
theorem bisect_sound (schema : Schema) (key : Value) (slots : Storage) (low high probe : Nat)
    (hBounds : low ≤ high) (hProbe : Search.Aligned low high probe) :
    (schema.bisect key slots low high probe).value.Sound slots key low high := by
  induction low, high, probe using bisect.induct with
  | case1 low high probe hWithin ihAbove ihBelow =>
    rw [value_bisect_of_probe schema key slots hWithin]
    cases hOrder : slots.orderAt key probe with
    | eq => exact ⟨⟨hWithin.1, hWithin.2, hOrder⟩, by simpa using hWithin⟩
    | gt => exact sound_of_above hWithin hOrder (ihAbove (by omega) (.middle _ _))
    | lt => exact sound_of_below hWithin hOrder (ihBelow (by omega) (.middle _ _))
  | case2 low high probe hOutside =>
    rw [value_bisect_of_empty schema key slots hOutside]
    have hEmpty : ¬low < high := mt hProbe.within_iff.mpr hOutside
    refine ⟨⟨Nat.le_refl low, hBounds, ?_, ?_⟩, ?_⟩
    · intro h
      exact absurd h (Nat.lt_irrefl low)
    · intro h
      exact absurd h hEmpty
    · intro index hIndex
      cases hIndex

theorem search_sound (schema : Schema) (key : Value) (slots : Storage) (len guess : Nat) :
    (schema.search key slots len guess).value.Sound slots key 0 (min len slots.length) := by
  unfold search
  exact schema.bisect_sound key slots 0 _ _ (Nat.zero_le _) (.first _ guess)

end Schema

end RowStore
