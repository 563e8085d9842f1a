import RowStore.Page.Run
import RowStore.Proofs.Datum
import RowStore.Proofs.Page.Encoding

/-!
# Bounded sets

What a page is to those who use it: a finite set of data with a bound on how many there may be. It
has no slots and remembers no place.
-/

namespace RowStore.Page

/-- The answer up to the places where rows are built. -/
def Answer.content : Answer → Answer
  | .found key? => .found (key?.map Value.content)
  | answer => answer

structure BoundedSet where
  members : Finset Datum
  capacity : Nat
  card_le : members.card ≤ capacity

namespace BoundedSet

def empty (capacity : Nat) : BoundedSet := ⟨∅, capacity, Nat.zero_le _⟩

/-- The members in ascending order. -/
def keys (set : BoundedSet) : List Value := set.members.sort.map Datum.value

/-- Where `key` is, or where it would go, among the members in ascending order. -/
def position (set : BoundedSet) (key : Value) : Position :=
  let index := (set.members.filter (· < key.datum)).card
  if key.datum ∈ set.members then .hit index else .gap index

def get? (set : BoundedSet) (key : Value) : Option Value :=
  if key.datum ∈ set.members then some key.content else none

def insert (set : BoundedSet) (key : Value) : Except Error Bool × BoundedSet :=
  if key.datum ∈ set.members then (.ok false, set)
  else if hFull : set.members.card = set.capacity then (.error (.pageFull set.capacity), set)
  else
    (.ok true, {
      members := Insert.insert key.datum set.members
      capacity := set.capacity
      card_le := (Finset.card_insert_le _ _).trans (Nat.lt_of_le_of_ne set.card_le hFull) })

def erase (set : BoundedSet) (key : Value) : BoundedSet where
  members := set.members.erase key.datum
  capacity := set.capacity
  card_le := Finset.card_erase_le.trans set.card_le

/-- The same members, and room for `room` of them. -/
def resize (set : BoundedSet) (room : Nat) : BoundedSet where
  members := set.members
  capacity := max room set.members.card
  card_le := le_max_right _ _

/-- Only encoding looks at the schema. -/
def step (set : BoundedSet) (schema : Schema) (checksum : Bytes → UInt32) :
    Operation → Answer × BoundedSet
  | .insert key => (.inserted (set.insert key).1, (set.insert key).2)
  | .get key => (.found (set.get? key), set)
  | .remove key => (.found (set.get? key), set.erase key)
  | .encode => (.encoded (image checksum schema set.keys), set)
  | .reload options _ =>
    match image checksum schema set.keys with
    | .ok _ => (.reloaded (.ok ()), set.resize options.capacity.toNat)
    | .error e => (.reloaded (.error e), set)

def run (set : BoundedSet) (schema : Schema) (checksum : Bytes → UInt32) :
    List Operation → List Answer × BoundedSet
  | [] => ([], set)
  | operation :: operations =>
    let (answer, next) := set.step schema checksum operation
    let (answers, last) := next.run schema checksum operations
    (answer :: answers, last)

section Splits

variable {α : Type} [LinearOrder α] {s : Finset α} {before after : List α} {a : α}

theorem sort_eq_of_pairwise {l : List α} (h : l.Pairwise (· < ·)) (hMem : ∀ b, b ∈ s ↔ b ∈ l) :
    s.sort = l := by
  apply s.sortedLT_sort.eq_of_mem_iff h.sortedLT
  intro b
  rw [Finset.mem_sort]
  exact hMem b

theorem card_filter_lt (h : s.sort = before ++ after) (hBefore : ∀ b ∈ before, b < a)
    (hAfter : ∀ b ∈ after, ¬b < a) : (s.filter (· < a)).card = before.length := by
  have hCount : (s.filter (· < a)).card = s.sort.countP (· < a) := by
    rw [Finset.card_def, Finset.filter_val, ← Multiset.countP_eq_card_filter,
      ← Finset.sort_eq s (· ≤ ·), Multiset.coe_countP]
  rw [hCount, h, countP_split hBefore hAfter]

/-- A key between two neighbours is between all of the members before it and all after it. -/
theorem lt_of_between (h : s.sort = before ++ after) (hLeft : ∀ b ∈ before.getLast?, b < a)
    (hRight : ∀ b ∈ after.head?, a < b) : (∀ b ∈ before, b < a) ∧ ∀ b ∈ after, a < b := by
  have hSorted := s.sortedLT_sort.pairwise
  rw [h, List.pairwise_append] at hSorted
  obtain ⟨hBefore, hAfter, -⟩ := hSorted
  constructor
  · exact forall_mem_of_getLast? hBefore (fun _ _ hLess hLast => hLess.trans hLast) hLeft
  · exact forall_mem_of_head? hAfter (fun _ _ hLess hFirst => hFirst.trans hLess) hRight

theorem sort_insert_between (h : s.sort = before ++ after) (hBefore : ∀ b ∈ before, b < a)
    (hAfter : ∀ b ∈ after, a < b) : (Insert.insert a s).sort = before ++ a :: after := by
  have hSorted := s.sortedLT_sort.pairwise
  rw [h, List.pairwise_append] at hSorted
  obtain ⟨hPairsBefore, hPairsAfter, hAcross⟩ := hSorted
  apply sort_eq_of_pairwise
  · rw [List.pairwise_append, List.pairwise_cons]
    refine ⟨hPairsBefore, ⟨hAfter, hPairsAfter⟩, ?_⟩
    intro b hb c hc
    rcases List.mem_cons.mp hc with rfl | hRest
    · exact hBefore b hb
    · exact hAcross b hb c hRest
  · intro b
    rw [Finset.mem_insert, ← Finset.mem_sort (· ≤ ·), h, List.mem_append, List.mem_append,
      List.mem_cons]
    exact or_left_comm

theorem lt_of_split (h : s.sort = before ++ a :: after) :
    (∀ b ∈ before, b < a) ∧ ∀ b ∈ after, a < b := by
  have hSorted := s.sortedLT_sort.pairwise
  rw [h, List.pairwise_append, List.pairwise_cons] at hSorted
  obtain ⟨-, ⟨hAfter, -⟩, hAcross⟩ := hSorted
  constructor
  · intro b hb
    exact hAcross b hb a List.mem_cons_self
  · exact hAfter

theorem sort_erase_split (h : s.sort = before ++ a :: after) :
    (s.erase a).sort = before ++ after := by
  obtain ⟨hBefore, hAfter⟩ := lt_of_split h
  have hSorted := s.sortedLT_sort.pairwise
  rw [h] at hSorted
  apply sort_eq_of_pairwise
  · exact hSorted.sublist ((List.sublist_cons_self a after).append_left before)
  · intro b
    rw [Finset.mem_erase, ← Finset.mem_sort (· ≤ ·), h, List.mem_append, List.mem_append,
      List.mem_cons]
    constructor
    · rintro ⟨hNe, hMemBefore | rfl | hMemAfter⟩
      · exact .inl hMemBefore
      · exact absurd rfl hNe
      · exact .inr hMemAfter
    · rintro (hMem | hMem)
      · exact ⟨(hBefore b hMem).ne, .inl hMem⟩
      · exact ⟨(hAfter b hMem).ne', .inr (.inr hMem)⟩

end Splits

end BoundedSet

end RowStore.Page
