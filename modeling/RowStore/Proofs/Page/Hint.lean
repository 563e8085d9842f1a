import RowStore.Proofs.Probes
import RowStore.Proofs.Sharing

/-!
# The slot of the last change

An insertion remembers the slot into which it put the key. A search for what the key holds looks
there first, so that it ends there with a single comparison, however the other keys are ordered and
even when the page is full (`search_after_insert`).
-/

namespace RowStore

theorem Counted.eq_of_value_tally {α : Type} {x : Counted α} {a : α} {t : Tally}
    (hValue : x.value = a) (hTally : x.tally = t) : x = ⟨a, t⟩ := by
  rw [← hValue, ← hTally]

theorem Schema.search_of_guess (schema : Schema) {key x : Value} {slots : Storage}
    {len guess : Nat} (hLength : guess < min len slots.length)
    (hSlot : slots.value? guess = some x) (hOrder : key.order x = .eq) :
    schema.search key slots len guess = ⟨⟨.hit guess, [guess]⟩, (schema.weigh key x).tally⟩ := by
  have hHere : slots.orderAt key guess = .eq := by
    rw [Storage.orderAt, hSlot]
    exact hOrder
  have hValue : (schema.search key slots len guess).value = ⟨.hit guess, [guess]⟩ := by
    rw [search, if_pos hLength, value_bisect_of_probe schema key slots ⟨Nat.zero_le _, hLength⟩,
      hHere]
  apply Counted.eq_of_value_tally hValue
  have hTally := schema.tally_bisect key slots 0 (min len slots.length)
    (if guess < min len slots.length then guess else min len slots.length / 2)
  have hProbes : (schema.search key slots len guess).value.probes = [guess] :=
    congrArg Search.probes hValue
  rw [search] at hProbes ⊢
  rw [hTally, hProbes, weighProbes, hSlot]
  rfl

/-- Rows compared with copies of themselves are not looked into. -/
theorem Schema.tally_weigh_copy (columns : List Schema) {o p : Origin} {xs ys : List Value}
    (h : Value.isCopy o xs p ys = true) :
    (weigh (.row columns) (.row o xs) (.row p ys)).tally = { leaf := 0, row := 1 } := by
  rw [tally_weigh_row, if_pos h]

namespace Page

variable {checksum : Bytes → UInt32} {page : Page} {xs before after : List Value}
  {key other : Value} {isNew : Bool}

/-- Whatever is asked for `other`, slot `index` is the only one looked at, and `key` is found there
by one comparison. -/
structure FindsAt (page : Page) (index : Nat) (key other : Value) : Prop where
  search : page.search other =
    ⟨⟨.hit index, [index]⟩, (page.schema.weigh other key).tally⟩
  get? : page.get? other = ⟨some key, (page.schema.weigh other key).tally⟩
  remove : page.remove other =
    ⟨(some key, page.removeAt index key), (page.schema.weigh other key).tally⟩
  insert : page.insert other =
    ⟨(.ok false, page.replaceAt index other), (page.schema.weigh other key).tally⟩

theorem findsAt_of_search
    (h : page.search other = ⟨⟨.hit before.length, [before.length]⟩,
      (page.schema.weigh other key).tally⟩)
    (hHolds : page.Holds (before ++ key :: after)) : page.FindsAt before.length key other where
  search := h
  get? := by
    have hSlot : page.slots.value? before.length = some key := by simp [hHolds.value?]
    rw [Page.get?, h]
    exact congrArg (Counted.mk · _) hSlot
  remove := by
    have hSlot : page.slots.value? before.length = some key := by simp [hHolds.value?]
    apply Counted.eq_of_value_tally
    · rw [value_remove, h]
      dsimp only
      rw [hSlot]
    · rw [Page.remove, h, Counted.tally_bind]
      dsimp only
      rw [hSlot]
      rfl
  insert := by
    rw [Page.insert, h]
    rfl

theorem Holds.findsAt (h : page.Holds (before ++ key :: after)) (hHint : page.hint = before.length)
    (hContent : other.content = key.content) : page.FindsAt before.length key other := by
  apply findsAt_of_search _ h
  have hSlot : page.slots.value? before.length = some key := by simp [h.value?]
  have hLength := h.length_le
  rw [capacity] at hLength
  have hInside : before.length < min page.length page.slots.length := by
    rw [h.length]
    simp at hLength ⊢
    omega
  rw [Page.search, hHint]
  exact page.schema.search_of_guess hInside hSlot (Value.order_eq_iff.mpr hContent)

theorem schema_insert (page : Page) (key : Value) :
    (page.insert key).value.2.schema = page.schema := by
  rw [value_insert]
  cases (page.search key).value.position with
  | hit index => rfl
  | gap index =>
    dsimp only
    split <;> rfl

/-- What an insertion that succeeds does to the keys, and what it remembers. -/
theorem Holds.insert_of_ok (h : page.Holds xs) (hInsert : (page.insert key).value.1 = .ok isNew) :
    ∃ before after, (page.insert key).value.2.Holds (before ++ key :: after) ∧
      (page.insert key).value.2.hint = before.length ∧
      (page.search key).value.position.index = before.length ∧
      if isNew then xs = before ++ after else ∃ old, xs = before ++ old :: after := by
  rw [value_insert] at hInsert ⊢
  cases hSearch : (page.search key).value.position with
  | hit index =>
    rw [hSearch] at hInsert
    cases hInsert
    obtain ⟨before, old, after, rfl, rfl, -⟩ := h.search_hit hSearch
    exact ⟨before, after, h.replaceAt, rfl, rfl, old, rfl⟩
  | gap index =>
    rw [hSearch] at hInsert
    obtain ⟨before, after, rfl, rfl, -⟩ := h.search_gap hSearch
    by_cases hFull : page.isFull = true
    · simp only [if_pos hFull] at hInsert
      cases hInsert
    · simp only [if_neg hFull] at hInsert ⊢
      cases hInsert
      exact ⟨before, after, h.insertAt (Bool.eq_false_iff.mpr hFull), rfl, rfl, rfl⟩

/-- The keys need not be in order. The key that was put in stands where the search for it ended,
between `before` and `after`. It is found there again by one comparison, which does not look into a
row that is a copy of it. -/
theorem search_after_insert (h : Reached checksum page)
    (hInsert : (page.insert key).value.1 = .ok isNew) :
    let next := (page.insert key).value.2
    ∃ before after, next.keys = before ++ key :: after ∧
      (page.search key).value.position.index = before.length ∧
      (if isNew then page.keys = before ++ after else ∃ old, page.keys = before ++ old :: after) ∧
      ∀ other : Value, other.content = key.content →
        next.FindsAt before.length key other ∧
        ∀ columns o xs p ys, page.schema = .row columns → other = .row o xs → key = .row p ys →
          Value.isCopy o xs p ys = true →
          (next.schema.weigh other key).tally = { leaf := 0, row := 1 } := by
  intro next
  obtain ⟨before, after, hHolds, hHint, hIndex, hKeys⟩ := h.holds.insert_of_ok hInsert
  refine ⟨before, after, hHolds.keys, hIndex, hKeys, ?_⟩
  intro other hContent
  refine ⟨hHolds.findsAt hHint hContent, ?_⟩
  rintro columns o xs p ys hSchema rfl rfl hCopy
  rw [schema_insert, hSchema]
  exact Schema.tally_weigh_copy columns hCopy

/-- Of two rows in descending order the second is put in again, before both. A copy of it is found
there without a look at its column. -/
theorem search_after_insert_descending :
    let key : Value := .row ⟨1, 0⟩ [.int 1]
    ∃ page, decode (.row [.int]) { capacity := 3 } 0 (sealed Checksum.crc32 [2, 1, 2, 1, 1]) =
        .ok page ∧
      page.keys = [.row ⟨0, 1⟩ [.int 2], .row ⟨0, 3⟩ [.int 1]] ∧
      (page.insert key).value.1 = .ok true ∧
      (page.insert key).value.2.search key = ⟨⟨.hit 0, [0]⟩, { leaf := 0, row := 1 }⟩ := by
  intro key
  let keys : List Value := [.row ⟨0, 1⟩ [.int 2], .row ⟨0, 3⟩ [.int 1]]
  let page := ofKeys (.row [.int]) { capacity := 3 } keys
  have hDecode : decode (.row [.int]) { capacity := 3 } 0
      (sealed Checksum.crc32 [2, 1, 2, 1, 1]) = .ok page := by
    rw [decode_sealed]
    rfl
  have hInsert : (page.insert key).value.1 = .ok true := by decide +kernel
  have hFirst : (page.search key).value.position.index = 0 := by decide +kernel
  obtain ⟨before, after, -, hIndex, -, hFinds⟩ := search_after_insert (.decoded hDecode) hInsert
  obtain ⟨hFound, hTally⟩ := hFinds key rfl
  refine ⟨page, hDecode, rfl, hInsert, ?_⟩
  rw [hFound.search, hTally [.int] _ _ _ _ rfl rfl rfl (by decide), ← hIndex, hFirst]

end Page

end RowStore
