import RowStore.Page.Basic
import RowStore.Proofs.Memory
import RowStore.Proofs.Search
import RowStore.Proofs.Storage

/-!
# The keys that a page holds

A page holds a list of keys when they fill the first slots, all other slots are empty, and the
accounts agree with them. An insertion or removal changes the list at one place, which the search
finds, and keeps the rest. The keys need not be sorted.
-/

namespace RowStore

namespace Storage

theorem insertIdx_length_append {α : Type} (before after : List α) (a : α) :
    (before ++ after).insertIdx before.length a = before ++ a :: after := by
  induction before with
  | nil => rfl
  | cons b before ih =>
    rw [List.cons_append, List.length_cons, List.insertIdx_succ_cons, ih, List.cons_append]

theorem eraseIdx_length_append {α : Type} (before after : List α) (a : α) :
    (before ++ a :: after).eraseIdx before.length = before ++ after := by
  rw [List.eraseIdx_append_of_length_le (Nat.le_refl _), Nat.sub_self]
  rfl

theorem filled_append (before after : List Value) (room : Nat) :
    filled (before ++ after) room = before.map some ++ filled after room := by
  simp [filled]

theorem filled_cons (x : Value) (xs : List Value) (room : Nat) :
    filled (x :: xs) room = some x :: filled xs room := rfl

theorem set_filled (before after : List Value) (old key : Value) (room : Nat) :
    (filled (before ++ old :: after) room).set before.length (some key) =
      filled (before ++ key :: after) room := by
  rw [filled_append, filled_append, List.set_append_right _ _ (by simp)]
  simp [filled_cons]

theorem insertIdx_filled (before after : List Value) (key : Value) (room : Nat) :
    ((filled (before ++ after) (room + 1)).eraseIdx (before ++ after).length).insertIdx
        before.length (some key) =
      filled (before ++ key :: after) room := by
  have hErase : (filled (before ++ after) (room + 1)).eraseIdx (before ++ after).length =
      filled (before ++ after) room := by
    have h := eraseIdx_length_append ((before ++ after).map some) (blank room) none
    rw [List.length_map] at h
    exact h
  have h := insertIdx_length_append (before.map some) (filled after room) (some key)
  rw [List.length_map] at h
  rw [hErase, filled_append, h, filled_append, filled_cons]

theorem removeIdx_filled (before after : List Value) (old : Value) (room : Nat) :
    ((filled (before ++ old :: after) room).eraseIdx before.length).insertIdx
        (before ++ after).length none =
      filled (before ++ after) (room + 1) := by
  have hErase : (filled (before ++ old :: after) room).eraseIdx before.length =
      filled (before ++ after) room := by
    have h := eraseIdx_length_append (before.map some) (filled after room) (some old)
    rw [List.length_map] at h
    rw [filled_append, filled_cons, h, filled_append]
  have h := insertIdx_length_append ((before ++ after).map some) (blank room) none
  rw [List.length_map] at h
  rw [hErase]
  exact h

end Storage

namespace Page

/-- The page holds `xs` in its first slots and nothing else. -/
structure Holds (page : Page) (xs : List Value) : Prop where
  slots : ∃ room, page.slots = Storage.filled xs room
  length : page.length = xs.length
  memory : page.memory = page.schema.totalMemory xs
  capacity_lt : page.capacity < UInt64.size

variable {page : Page} {xs before after : List Value} {key old : Value}

theorem Holds.length_le (h : page.Holds xs) : xs.length ≤ page.capacity := by
  obtain ⟨room, hSlots⟩ := h.slots
  rw [capacity, hSlots, Storage.length_filled]
  exact Nat.le_add_right _ _

theorem Holds.keys (h : page.Holds xs) : page.keys = xs := by
  obtain ⟨room, hSlots⟩ := h.slots
  rw [Page.keys, hSlots, h.length, Storage.filled, List.take_left' (List.length_map _),
    Storage.values_map_some]

theorem Holds.value? (h : page.Holds xs) (index : Nat) : page.slots.value? index = xs[index]? := by
  obtain ⟨room, hSlots⟩ := h.slots
  rw [hSlots, Storage.value?_filled]

theorem Holds.isFull_iff (h : page.Holds xs) : page.isFull = true ↔ xs.length = page.capacity := by
  rw [isFull, beq_iff_eq, h.length]

theorem Holds.memory_eq_add (h : page.Holds (before ++ old :: after)) :
    page.memory = page.schema.memory old + page.schema.totalMemory (before ++ after) := by
  rw [h.memory, Schema.totalMemory_append, Schema.totalMemory_append, Schema.totalMemory,
    Nat.add_left_comm]

theorem capacity_replaceAt (page : Page) (index : Nat) (key : Value) :
    (page.replaceAt index key).capacity = page.capacity := List.length_set

theorem Holds.replaceAt (h : page.Holds (before ++ old :: after)) :
    (page.replaceAt before.length key).Holds (before ++ key :: after) := by
  have hOld : page.slots.value? before.length = some old := by
    rw [h.value?]
    simp
  obtain ⟨room, hSlots⟩ := h.slots
  constructor
  · refine ⟨room, ?_⟩
    rw [Page.replaceAt, hSlots, Storage.set_filled]
  · simpa [Page.replaceAt] using h.length
  · simp only [Page.replaceAt, hOld, h.memory_eq_add, Nat.add_sub_cancel_left,
      Schema.totalMemory_append, Schema.totalMemory]
    rw [Nat.add_assoc, Nat.add_comm (page.schema.totalMemory after)]
  · rw [capacity_replaceAt]
    exact h.capacity_lt

theorem capacity_insertAt {index : Nat} (hIndex : index ≤ page.length)
    (hRoom : page.length < page.capacity) (key : Value) :
    (page.insertAt index key).capacity = page.capacity := by
  rw [capacity] at hRoom
  have hErase : (page.slots.eraseIdx page.length).length = page.slots.length - 1 :=
    List.length_eraseIdx_of_lt hRoom
  rw [capacity, Page.insertAt, List.length_insertIdx_of_le_length (by omega), hErase, capacity]
  omega

theorem Holds.length_lt (h : page.Holds xs) (hRoom : page.isFull = false) :
    page.length < page.capacity := by
  have hLengthLe := h.length_le
  rw [isFull, beq_eq_false_iff_ne, h.length] at hRoom
  rw [h.length]
  omega

theorem Holds.insertAt (h : page.Holds (before ++ after)) (hRoom : page.isFull = false) :
    (page.insertAt before.length key).Holds (before ++ key :: after) := by
  have hMemory := h.memory
  rw [Schema.totalMemory_append] at hMemory
  have hLength := h.length
  rw [List.length_append] at hLength
  have hLengthLt := h.length_lt hRoom
  have hIndex : before.length ≤ page.length := by omega
  have hCapacity := capacity_insertAt hIndex hLengthLt key
  obtain ⟨room, hSlots⟩ := h.slots
  rw [h.length, capacity, hSlots, Storage.length_filled] at hLengthLt
  obtain ⟨room, rfl⟩ := Nat.exists_eq_succ_of_ne_zero (n := room) (by omega)
  constructor
  · refine ⟨room, ?_⟩
    rw [Page.insertAt, hSlots, h.length]
    exact Storage.insertIdx_filled before after key room
  · simp only [Page.insertAt, hLength, List.length_append, List.length_cons, Nat.add_assoc]
  · simp only [Page.insertAt, hMemory, Schema.totalMemory_append, Schema.totalMemory]
    omega
  · rw [hCapacity]
    exact h.capacity_lt

theorem capacity_removeAt {index : Nat} (hIndex : index < page.length)
    (hLength : page.length ≤ page.capacity) (key : Value) :
    (page.removeAt index key).capacity = page.capacity := by
  rw [capacity] at hLength
  have hErase : (page.slots.eraseIdx index).length = page.slots.length - 1 :=
    List.length_eraseIdx_of_lt (by omega)
  rw [capacity, Page.removeAt]
  dsimp only
  rw [List.length_insertIdx_of_le_length (by omega), hErase, capacity]
  omega

theorem Holds.removeAt (h : page.Holds (before ++ old :: after)) :
    (page.removeAt before.length old).Holds (before ++ after) := by
  have hLength := h.length
  rw [List.length_append, List.length_cons] at hLength
  have hLengthLe := h.length_le
  rw [← h.length] at hLengthLe
  have hIndex : before.length < page.length := by omega
  have hCapacity := capacity_removeAt hIndex hLengthLe old
  obtain ⟨room, hSlots⟩ := h.slots
  have hNextLength : page.length - 1 = (before ++ after).length := by
    rw [hLength, List.length_append]
    omega
  constructor
  · refine ⟨room + 1, ?_⟩
    rw [Page.removeAt, hSlots]
    simp only [hNextLength]
    exact Storage.removeIdx_filled before after old room
  · exact hNextLength
  · simp only [Page.removeAt, h.memory_eq_add, Nat.add_sub_cancel_left]
  · rw [hCapacity]
    exact h.capacity_lt

/-- As far as neighbours tell, `key` belongs between `before` and `after`. -/
structure Between (before : List Value) (key : Value) (after : List Value) : Prop where
  left : ∀ x ∈ before.getLast?, key.order x = .gt
  right : ∀ x ∈ after.head?, key.order x = .lt

theorem Holds.search_sound (h : page.Holds xs) (key : Value) :
    (page.search key).value.Sound page.slots key 0 xs.length := by
  have hSound := page.schema.search_sound key page.slots page.length page.hint
  have hLength := h.length_le
  rw [capacity] at hLength
  rw [h.length, Nat.min_eq_left hLength, ← h.length] at hSound
  rw [← h.length]
  exact hSound

theorem Holds.orderAt (h : page.Holds xs) (key : Value) (index : Nat) (x : Value)
    (hx : xs[index]? = some x) : page.slots.orderAt key index = key.order x := by
  rw [Storage.orderAt, h.value?, hx]

theorem Holds.search_hit (h : page.Holds xs) {index : Nat}
    (hSearch : (page.search key).value.position = .hit index) :
    ∃ before old after, xs = before ++ old :: after ∧ index = before.length ∧
      key.order old = .eq := by
  have hFits := (h.search_sound key).fits
  rw [hSearch] at hFits
  exact hFits.exists_split_of_hit (h.orderAt key)

theorem Holds.search_gap (h : page.Holds xs) {index : Nat}
    (hSearch : (page.search key).value.position = .gap index) :
    ∃ before after, xs = before ++ after ∧ index = before.length ∧ Between before key after := by
  have hFits := (h.search_sound key).fits
  rw [hSearch] at hFits
  obtain ⟨before, after, hKeys, hIndex, hLeft, hRight⟩ :=
    hFits.exists_split_of_gap (h.orderAt key)
  exact ⟨before, after, hKeys, hIndex, hLeft, hRight⟩

theorem value_insert (page : Page) (key : Value) :
    (page.insert key).value =
      match (page.search key).value.position with
      | .hit index => (.ok false, page.replaceAt index key)
      | .gap index =>
        if page.isFull then (.error (.pageFull page.capacity), page)
        else (.ok true, page.insertAt index key) := by
  rw [Page.insert, Counted.value_bind]
  cases (page.search key).value.position with
  | hit index => rfl
  | gap index =>
    dsimp only
    split <;> rfl

theorem value_get? (page : Page) (key : Value) :
    (page.get? key).value =
      match (page.search key).value.position with
      | .hit index => page.slots.value? index
      | .gap _ => none := by
  rw [get?, Counted.value_bind]
  cases (page.search key).value.position <;> rfl

theorem value_remove (page : Page) (key : Value) :
    (page.remove key).value =
      match (page.search key).value.position with
      | .hit index =>
        match page.slots.value? index with
        | some old => (some old, page.removeAt index old)
        | none => (none, page)
      | .gap _ => (none, page) := by
  rw [Page.remove, Counted.value_bind]
  cases (page.search key).value.position with
  | hit index =>
    dsimp only
    cases page.slots.value? index <;> rfl
  | gap index => rfl

/-- All that an insertion can do. -/
theorem Holds.insert_cases (h : page.Holds xs) (key : Value) :
    (∃ before old after, xs = before ++ old :: after ∧ key.order old = .eq ∧
      (page.insert key).value = (.ok false, page.replaceAt before.length key)) ∨
    (∃ before after, xs = before ++ after ∧ Between before key after ∧
      (page.insert key).value =
        if page.isFull then (.error (.pageFull page.capacity), page)
        else (.ok true, page.insertAt before.length key)) := by
  rw [value_insert]
  cases hSearch : (page.search key).value.position with
  | hit index =>
    obtain ⟨before, old, after, hKeys, rfl, hOrder⟩ := h.search_hit hSearch
    exact .inl ⟨before, old, after, hKeys, hOrder, rfl⟩
  | gap index =>
    obtain ⟨before, after, hKeys, rfl, hBetween⟩ := h.search_gap hSearch
    exact .inr ⟨before, after, hKeys, hBetween, rfl⟩

theorem Holds.get?_cases (h : page.Holds xs) (key : Value) :
    (∃ before old after, xs = before ++ old :: after ∧ key.order old = .eq ∧
      (page.get? key).value = some old) ∨
    (∃ before after, xs = before ++ after ∧ Between before key after ∧
      (page.get? key).value = none) := by
  rw [value_get?]
  cases hSearch : (page.search key).value.position with
  | hit index =>
    obtain ⟨before, old, after, hKeys, rfl, hOrder⟩ := h.search_hit hSearch
    refine .inl ⟨before, old, after, hKeys, hOrder, ?_⟩
    simp [h.value?, hKeys]
  | gap index =>
    obtain ⟨before, after, hKeys, rfl, hBetween⟩ := h.search_gap hSearch
    exact .inr ⟨before, after, hKeys, hBetween, rfl⟩

theorem Holds.remove_cases (h : page.Holds xs) (key : Value) :
    (∃ before old after, xs = before ++ old :: after ∧ key.order old = .eq ∧
      (page.remove key).value = (some old, page.removeAt before.length old)) ∨
    (∃ before after, xs = before ++ after ∧ Between before key after ∧
      (page.remove key).value = (none, page)) := by
  rw [value_remove]
  cases hSearch : (page.search key).value.position with
  | hit index =>
    obtain ⟨before, old, after, hKeys, rfl, hOrder⟩ := h.search_hit hSearch
    have hOld : page.slots.value? before.length = some old := by
      rw [h.value?, hKeys]
      simp
    refine .inl ⟨before, old, after, hKeys, hOrder, ?_⟩
    dsimp only
    rw [hOld]
  | gap index =>
    obtain ⟨before, after, hKeys, rfl, hBetween⟩ := h.search_gap hSearch
    exact .inr ⟨before, after, hKeys, hBetween, rfl⟩

end Page

end RowStore
