import Mathlib.Algebra.BigOperators.Group.Finset.Basic
import Mathlib.Algebra.GroupWithZero.Nat
import RowStore.Proofs.Page.BoundedSet
import RowStore.Proofs.Page.RoundTrip

/-!
# A page is a bounded set

The keys of a page that was made empty are the members of a bounded set in ascending order. Every
operation keeps this and answers as it does on the set, so that neither the slots nor the place
remembered from the last change can be told from the answers.
-/

namespace RowStore.Page

variable {checksum : Bytes → UInt32} {schema : Schema} {page : Page} {set : BoundedSet}
  {xs before after : List Value} {key old : Value}

/-- The page holds the members in ascending order. -/
structure Represents (page : Page) (schema : Schema) (set : BoundedSet) : Prop where
  holds : page.Holds page.keys
  sorted : set.members.sort = page.keys.map Value.datum
  capacity : page.capacity = set.capacity
  schema : page.schema = schema

theorem Holds.represents (h : page.Holds xs) (hSorted : set.members.sort = xs.map Value.datum)
    (hCapacity : page.capacity = set.capacity) (hSchema : page.schema = schema) :
    page.Represents schema set := by
  have hKeys := h.keys
  constructor
  · rw [hKeys]
    exact h
  · rw [hKeys, hSorted]
  · exact hCapacity
  · exact hSchema

theorem Represents.card (h : page.Represents schema set) :
    set.members.card = page.keys.length := by
  rw [← Finset.length_sort (· ≤ ·), h.sorted, List.length_map]

theorem Represents.keys (h : page.Represents schema set) :
    set.keys = page.keys.map Value.content := by
  rw [BoundedSet.keys, h.sorted, List.map_map]
  rfl

theorem Represents.isFull_iff (h : page.Represents schema set) :
    page.isFull = true ↔ set.members.card = set.capacity := by
  rw [h.holds.isFull_iff, h.card, h.capacity]

theorem Represents.split_of_eq (h : page.Represents schema set)
    (hKeys : page.keys = before ++ old :: after) (hOrder : key.order old = .eq) :
    key.datum = old.datum ∧ key.datum ∈ set.members ∧
      set.members.sort = before.map Value.datum ++ key.datum :: after.map Value.datum := by
  have hDatum : key.datum = old.datum := Value.datum_eq_iff.mpr (Value.order_eq_iff.mp hOrder)
  have hSorted := h.sorted
  rw [hKeys, List.map_append, List.map_cons, ← hDatum] at hSorted
  refine ⟨hDatum, ?_, hSorted⟩
  rw [← Finset.mem_sort (· ≤ ·), hSorted]
  simp

theorem Represents.split_of_between (h : page.Represents schema set)
    (hKeys : page.keys = before ++ after) (hBetween : Between before key after) :
    key.datum ∉ set.members ∧
      set.members.sort = before.map Value.datum ++ after.map Value.datum ∧
      (∀ d ∈ before.map Value.datum, d < key.datum) ∧
      ∀ d ∈ after.map Value.datum, key.datum < d := by
  have hSorted := h.sorted
  rw [hKeys, List.map_append] at hSorted
  have hLeft : ∀ d ∈ (before.map Value.datum).getLast?, d < key.datum := by
    intro d hd
    rw [List.getLast?_map, Option.mem_map] at hd
    obtain ⟨x, hx, rfl⟩ := hd
    rw [Datum.datum_lt_iff, ← Value.order_swap, hBetween.left x hx]
    rfl
  have hRight : ∀ d ∈ (after.map Value.datum).head?, key.datum < d := by
    intro d hd
    rw [List.head?_map, Option.mem_map] at hd
    obtain ⟨x, hx, rfl⟩ := hd
    exact Datum.datum_lt_iff.mpr (hBetween.right x hx)
  obtain ⟨hBefore, hAfter⟩ := BoundedSet.lt_of_between hSorted hLeft hRight
  refine ⟨?_, hSorted, hBefore, hAfter⟩
  rw [← Finset.mem_sort (· ≤ ·), hSorted, List.mem_append]
  rintro (hMem | hMem)
  · exact lt_irrefl _ (hBefore _ hMem)
  · exact lt_irrefl _ (hAfter _ hMem)

/-- Wherever it starts, a search answers the rank of the key among the members. -/
theorem Represents.position (h : page.Represents schema set) (key : Value) :
    (page.search key).value.position = set.position key := by
  cases hSearch : (page.search key).value.position with
  | hit index =>
    obtain ⟨before, old, after, hKeys, rfl, hOrder⟩ := h.holds.search_hit hSearch
    obtain ⟨-, hMem, hSorted⟩ := h.split_of_eq hKeys hOrder
    obtain ⟨hBefore, hAfter⟩ := BoundedSet.lt_of_split hSorted
    have hRank : (set.members.filter (· < key.datum)).card = (before.map Value.datum).length := by
      apply BoundedSet.card_filter_lt hSorted hBefore
      intro d hd
      rcases List.mem_cons.mp hd with rfl | hRest
      · exact lt_irrefl _
      · exact (hAfter d hRest).not_gt
    rw [BoundedSet.position, hRank, if_pos hMem, List.length_map]
  | gap index =>
    obtain ⟨before, after, hKeys, rfl, hBetween⟩ := h.holds.search_gap hSearch
    obtain ⟨hMem, hSorted, hBefore, hAfter⟩ := h.split_of_between hKeys hBetween
    have hRank : (set.members.filter (· < key.datum)).card = (before.map Value.datum).length := by
      apply BoundedSet.card_filter_lt hSorted hBefore
      intro d hd
      exact (hAfter d hd).not_gt
    rw [BoundedSet.position, hRank, if_neg hMem, List.length_map]

theorem Represents.get? (h : page.Represents schema set) (key : Value) :
    (page.get? key).value.map Value.content = set.get? key := by
  rcases h.holds.get?_cases key with
    ⟨before, old, after, hKeys, hOrder, hGet⟩ | ⟨before, after, hKeys, hBetween, hGet⟩
  · obtain ⟨hDatum, hMem, -⟩ := h.split_of_eq hKeys hOrder
    rw [hGet, BoundedSet.get?, if_pos hMem, Option.map_some, Value.datum_eq_iff.mp hDatum]
  · obtain ⟨hMem, -⟩ := h.split_of_between hKeys hBetween
    rw [hGet, BoundedSet.get?, if_neg hMem, Option.map_none]

theorem Represents.insert (h : page.Represents schema set) (key : Value) :
    (page.insert key).value.1 = (set.insert key).1 ∧
      (page.insert key).value.2.Represents schema (set.insert key).2 := by
  have hHolds := h.holds
  rcases hHolds.insert_cases key with
    ⟨before, old, after, hKeys, hOrder, hInsert⟩ | ⟨before, after, hKeys, hBetween, hInsert⟩
  · obtain ⟨-, hMem, hSorted⟩ := h.split_of_eq hKeys hOrder
    rw [hInsert, BoundedSet.insert, if_pos hMem]
    rw [hKeys] at hHolds
    refine ⟨rfl, hHolds.replaceAt.represents ?_ ?_ h.schema⟩
    · rw [hSorted, List.map_append, List.map_cons]
    · rw [capacity_replaceAt, h.capacity]
  · obtain ⟨hMem, hSorted, hBefore, hAfter⟩ := h.split_of_between hKeys hBetween
    rw [hInsert, BoundedSet.insert, if_neg hMem]
    by_cases hFull : set.members.card = set.capacity
    · rw [if_pos (h.isFull_iff.mpr hFull), dif_pos hFull, h.capacity]
      exact ⟨rfl, h⟩
    · have hRoom : page.isFull = false := by
        rw [Bool.eq_false_iff]
        intro hIs
        exact hFull (h.isFull_iff.mp hIs)
      rw [hRoom, dif_neg hFull]
      have hIndex : before.length ≤ page.length := by
        rw [hHolds.length, hKeys, List.length_append]
        exact Nat.le_add_right _ _
      have hCapacity := capacity_insertAt hIndex (hHolds.length_lt hRoom) key
      rw [hKeys] at hHolds
      refine ⟨rfl, (hHolds.insertAt hRoom).represents ?_ ?_ h.schema⟩
      · rw [BoundedSet.sort_insert_between hSorted hBefore hAfter, List.map_append, List.map_cons]
      · rw [hCapacity, h.capacity]

theorem Represents.remove (h : page.Represents schema set) (key : Value) :
    (page.remove key).value.1.map Value.content = set.get? key ∧
      (page.remove key).value.2.Represents schema (set.erase key) := by
  have hHolds := h.holds
  rcases hHolds.remove_cases key with
    ⟨before, old, after, hKeys, hOrder, hRemove⟩ | ⟨before, after, hKeys, hBetween, hRemove⟩
  · obtain ⟨hDatum, hMem, hSorted⟩ := h.split_of_eq hKeys hOrder
    rw [hRemove, BoundedSet.get?, if_pos hMem, Option.map_some, Value.datum_eq_iff.mp hDatum]
    have hIndex : before.length < page.length := by
      rw [hHolds.length, hKeys]
      simp
    have hLengthLe : page.length ≤ page.capacity := hHolds.length ▸ hHolds.length_le
    have hCapacity := capacity_removeAt hIndex hLengthLe old
    rw [hKeys] at hHolds
    refine ⟨rfl, hHolds.removeAt.represents ?_ ?_ h.schema⟩
    · rw [BoundedSet.erase, BoundedSet.sort_erase_split hSorted, List.map_append]
    · rw [hCapacity, h.capacity]
      rfl
  · obtain ⟨hMem, -⟩ := h.split_of_between hKeys hBetween
    rw [hRemove, BoundedSet.get?, if_neg hMem]
    have hMembers : (set.erase key).members = set.members := Finset.erase_eq_of_notMem hMem
    refine ⟨rfl, hHolds.represents ?_ h.capacity h.schema⟩
    rw [hMembers, h.sorted]

theorem Represents.encode (h : page.Represents schema set) (checksum : Bytes → UInt32) :
    page.encode checksum = image checksum schema set.keys := by
  rw [h.holds.encode_eq, h.schema, h.keys, image_content]

theorem Represents.reload (h : page.Represents schema set) {data : Bytes}
    (hEncode : page.encode checksum = .ok data) (options : Options) (source : Nat) :
    ∃ next, page.reload options source checksum = .ok next ∧
      next.Represents schema (set.resize options.capacity.toNat) := by
  obtain ⟨ys, hContents, hDecode⟩ := h.holds.decode_encode hEncode options source
  have hLength : ys.length = page.keys.length := by simpa using congrArg List.length hContents
  have hCount : ys.length < UInt64.size := by
    rw [hLength]
    exact Nat.lt_of_le_of_lt h.holds.length_le h.holds.capacity_lt
  refine ⟨ofKeys page.schema options ys, ?_, (holds_ofKeys _ _ hCount).represents ?_ ?_ h.schema⟩
  · rw [Page.reload, hEncode]
    exact hDecode
  · rw [Value.map_datum_congr hContents]
    exact h.sorted
  · rw [capacity_ofKeys, hLength, ← h.card]
    rfl

theorem Represents.step (h : page.Represents schema set) (checksum : Bytes → UInt32)
    (operation : Operation) :
    (page.step checksum operation).1.content = (set.step schema checksum operation).1 ∧
      (page.step checksum operation).2.Represents schema (set.step schema checksum operation).2 := by
  cases operation with
  | insert key =>
    obtain ⟨hAnswer, hNext⟩ := h.insert key
    exact ⟨congrArg Answer.inserted hAnswer, hNext⟩
  | get key => exact ⟨congrArg Answer.found (h.get? key), h⟩
  | remove key =>
    obtain ⟨hAnswer, hNext⟩ := h.remove key
    exact ⟨congrArg Answer.found hAnswer, hNext⟩
  | encode => exact ⟨congrArg Answer.encoded (h.encode checksum), h⟩
  | reload options source =>
    rw [Page.step, BoundedSet.step]
    cases hEncode : page.encode checksum with
    | ok data =>
      obtain ⟨next, hReload, hNext⟩ := h.reload hEncode options source
      rw [hReload, ← h.encode, hEncode]
      exact ⟨rfl, hNext⟩
    | error e =>
      have hReload : page.reload options source checksum = .error e := by
        rw [Page.reload, hEncode]
        rfl
      rw [hReload, ← h.encode, hEncode]
      exact ⟨rfl, h⟩

theorem Represents.run (h : page.Represents schema set) (checksum : Bytes → UInt32)
    (operations : List Operation) :
    (page.run checksum operations).1.map Answer.content =
        (set.run schema checksum operations).1 ∧
      (page.run checksum operations).2.Represents schema (set.run schema checksum operations).2 := by
  induction operations generalizing page set with
  | nil => exact ⟨rfl, h⟩
  | cons operation operations ih =>
    obtain ⟨hAnswer, hNext⟩ := h.step checksum operation
    obtain ⟨hAnswers, hLast⟩ := ih hNext
    exact ⟨congrArg₂ List.cons hAnswer hAnswers, hLast⟩

theorem represents_new (schema : Schema) (options : Options) :
    (new schema options).Represents schema (.empty options.capacity.toNat) := by
  rw [new_eq_ofKeys]
  refine (holds_ofKeys schema options (by decide)).represents ?_ ?_ rfl
  · exact Finset.sort_empty (· ≤ ·)
  · rw [capacity_ofKeys]
    exact Nat.max_eq_left (Nat.zero_le _)

theorem Represents.withHint (h : page.Represents schema set) (hint : Nat) :
    ({ page with hint } : Page).Represents schema set where
  holds := ⟨h.holds.slots, h.holds.length, h.holds.memory, h.holds.capacity_lt⟩
  sorted := h.sorted
  capacity := h.capacity
  schema := h.schema

theorem Represents.ascending (h : page.Represents schema set) :
    page.keys.Pairwise fun x y => x.order y = .lt := by
  have hSorted := set.members.sortedLT_sort.pairwise
  rw [h.sorted, List.pairwise_map] at hSorted
  exact hSorted.imp Datum.datum_lt_iff.mp

theorem sum_memory (xs : List Value) :
    ((xs.map Value.datum).map fun d => d.value.memory).sum = Value.memoryAll xs := by
  induction xs with
  | nil => rfl
  | cons x xs ih =>
    have hMemory : x.datum.value.memory = x.memory := x.memory_content
    rw [List.map_cons, List.map_cons, List.sum_cons, ih, hMemory, Value.memoryAll]

theorem Represents.memory (h : page.Represents schema set) :
    page.memory = ∑ d ∈ set.members, d.value.memory := by
  have hSum : ∑ d ∈ set.members, d.value.memory =
      (set.members.sort.map fun d => d.value.memory).sum := by
    rw [Finset.sum_eq_multiset_sum, ← Finset.sort_eq set.members (· ≤ ·), Multiset.map_coe,
      Multiset.sum_coe]
  rw [hSum, h.sorted, sum_memory, h.holds.memory, Schema.totalMemory_eq]

end RowStore.Page
