import RowStore.Proofs.OrderLaws
import RowStore.Proofs.Page.Refinement

/-!
# Ranges of keys with a common beginning

Rows that begin with the same columns stand together in the natural order: what lies between a row
and an extension of it extends it too (`HasPrefix.of_between`). In a page the extensions of a row
are therefore neighbours, and the first of them is where a search for the row ends.
-/

namespace RowStore

namespace Value

/-- The value is a row that begins with columns of the contents of `xs`. -/
def HasPrefix (xs : List Value) : Value → Prop
  | row _ ys => contentAll xs <+: contentAll ys
  | _ => False

instance (xs : List Value) : DecidablePred (HasPrefix xs)
  | row _ ys => inferInstanceAs (Decidable (contentAll xs <+: contentAll ys))
  | int _ => isFalse id
  | long _ => isFalse id
  | string _ => isFalse id
  | bytes _ => isFalse id

theorem isLE_orderAll_of_isPrefix : ∀ {xs ys : List Value},
    contentAll xs <+: contentAll ys → (orderAll xs ys).isLE
  | [], [], _ => rfl
  | [], _ :: _, _ => rfl
  | _ :: _, [], h => by
    rw [contentAll, contentAll, List.prefix_nil] at h
    cases h
  | x :: xs, y :: ys, h => by
    rw [contentAll, contentAll, List.cons_prefix_cons] at h
    rw [orderAll, order_eq_iff.mpr h.1]
    exact isLE_orderAll_of_isPrefix h.2

/-- Columns between others and an extension of these extend them: the first one lies between two of
one content, and the ones behind it are in the same case. -/
theorem isPrefix_of_between : ∀ {xs ys zs : List Value}, (orderAll xs ys).isLE →
    (orderAll ys zs).isLE → contentAll xs <+: contentAll zs → contentAll xs <+: contentAll ys
  | [], ys, _, _, _, _ => List.nil_prefix
  | _ :: _, [], _, h, _, _ => by cases h
  | _ :: _, _ :: _, [], _, h, _ => by cases h
  | x :: xs, y :: ys, z :: zs, hxy, hyz, hPrefix => by
    rw [contentAll, contentAll, List.cons_prefix_cons] at hPrefix
    obtain ⟨hContent, hRest⟩ := hPrefix
    rw [orderAll, Ordering.isLE_then_iff_and] at hxy hyz
    rw [order_congr rfl hContent.symm] at hyz
    have hEq : x.order y = .eq := Std.OrientedCmp.isLE_antisymm hxy.1 hyz.1
    have hSwap : y.order x = .eq := by
      rw [← order_swap, hEq]
      rfl
    rw [contentAll, contentAll, List.cons_prefix_cons]
    refine ⟨order_eq_iff.mp hEq, isPrefix_of_between ?_ ?_ hRest⟩
    · exact hxy.2.resolve_left (by simp [hEq])
    · exact hyz.2.resolve_left (by simp [hSwap])

variable {origin : Origin} {xs : List Value} {x y : Value}

theorem HasPrefix.isLE_order (h : y.HasPrefix xs) (origin : Origin) :
    ((row origin xs).order y).isLE := by
  cases y with
  | row p ys =>
    rw [order_row]
    exact isLE_orderAll_of_isPrefix h
  | _ => exact h.elim

/-- Values above a row are rows. -/
theorem exists_row_of_isLE (h : ((row origin xs).order x).isLE) : ∃ p ys, x = row p ys := by
  cases x with
  | row p ys => exact ⟨p, ys, rfl⟩
  | _ => cases h

theorem HasPrefix.of_between (hLow : ((row origin xs).order x).isLE) (hHigh : (x.order y).isLE)
    (h : y.HasPrefix xs) : x.HasPrefix xs := by
  obtain ⟨p, ys, rfl⟩ := exists_row_of_isLE hLow
  obtain ⟨q, zs, rfl⟩ := exists_row_of_isLE hHigh
  rw [order_row] at hLow hHigh
  exact isPrefix_of_between hLow hHigh h

end Value

namespace Page

variable {schema : Schema} {page : Page} {set : BoundedSet} {key : Value}

/-- A search ends where the keys that are not below the searched one begin. -/
theorem Represents.exists_split (h : page.Represents schema set) (key : Value) :
    ∃ before after, page.keys = before ++ after ∧
      (page.search key).value.position.index = before.length ∧
      (∀ x ∈ before, x.order key = .lt) ∧ ∀ x ∈ after, (key.order x).isLE := by
  have hBelow {xs : List Value} (hBefore : ∀ d ∈ xs.map Value.datum, d < key.datum) :
      ∀ x ∈ xs, x.order key = .lt := by
    intro x hx
    exact Datum.datum_lt_iff.mp (hBefore x.datum (List.mem_map_of_mem hx))
  have hAbove {xs : List Value} (hAfter : ∀ d ∈ xs.map Value.datum, key.datum < d) :
      ∀ x ∈ xs, (key.order x).isLE := by
    intro x hx
    rw [Datum.datum_lt_iff.mp (hAfter x.datum (List.mem_map_of_mem hx))]
    rfl
  cases hSearch : (page.search key).value.position with
  | hit index =>
    obtain ⟨before, old, after, hKeys, rfl, hOrder⟩ := h.holds.search_hit hSearch
    obtain ⟨-, -, hSorted⟩ := h.split_of_eq hKeys hOrder
    obtain ⟨hBefore, hAfter⟩ := BoundedSet.lt_of_split hSorted
    have hOld : (key.order old).isLE := by
      rw [hOrder]
      rfl
    exact ⟨before, old :: after, hKeys, rfl, hBelow hBefore,
      List.forall_mem_cons.mpr ⟨hOld, hAbove hAfter⟩⟩
  | gap index =>
    obtain ⟨before, after, hKeys, rfl, hBetween⟩ := h.holds.search_gap hSearch
    obtain ⟨-, -, hBefore, hAfter⟩ := h.split_of_between hKeys hBetween
    exact ⟨before, after, hKeys, rfl, hBelow hBefore, hAbove hAfter⟩

/-- The keys that extend a row stand between those below it and those that no longer do. -/
theorem Represents.exists_extensions (h : page.Represents schema set) (origin : Origin)
    (xs : List Value) :
    ∃ before within after, page.keys = before ++ (within ++ after) ∧
      (page.search (.row origin xs)).value.position.index = before.length ∧
      (∀ x ∈ before, ¬x.HasPrefix xs) ∧ (∀ x ∈ within, x.HasPrefix xs) ∧
      ∀ x ∈ after, ¬x.HasPrefix xs := by
  obtain ⟨before, rest, hKeys, hIndex, hBefore, hRest⟩ := h.exists_split (.row origin xs)
  have hAscending := h.ascending
  rw [hKeys, List.pairwise_append] at hAscending
  obtain ⟨-, hAscendingRest, -⟩ := hAscending
  -- Above the row, a key that does not extend it has only such keys behind it.
  have hLeft : rest.Pairwise fun x y => ¬x.HasPrefix xs → ¬y.HasPrefix xs := by
    apply hAscendingRest.imp_of_mem
    intro x y hx _ hLess hNot hExtends
    have hHigh : (x.order y).isLE := by
      rw [hLess]
      rfl
    exact hNot (hExtends.of_between (hRest x hx) hHigh)
  obtain ⟨within, after, rfl, hWithin, hAfter⟩ := exists_split_of_pairwise hLeft
  refine ⟨before, within, after, hKeys, hIndex, ?_, hWithin, hAfter⟩
  intro x hx hExtends
  have hLE := hExtends.isLE_order origin
  rw [← Value.order_swap, hBefore x hx] at hLE
  cases hLE

/-- The keys from `first` up to `last` are those that extend a row, and `first` is where any search
for the row ends. -/
structure ExtensionsBetween (page : Page) (origin : Origin) (xs : List Value) (first last : Nat) :
    Prop where
  search : ∀ guess, (page.schema.search (.row origin xs) page.slots page.length
    guess).value.position.index = first
  first_le : first ≤ last
  le_length : last ≤ page.keys.length
  extends_iff : ∀ index key, page.keys[index]? = some key →
    (key.HasPrefix xs ↔ first ≤ index ∧ index < last)

theorem Represents.exists_extensionsBetween (h : page.Represents schema set) (origin : Origin)
    (xs : List Value) : ∃ first last, page.ExtensionsBetween origin xs first last := by
  obtain ⟨before, within, after, hKeys, hIndex, hBefore, hWithin, hAfter⟩ :=
    h.exists_extensions origin xs
  refine ⟨before.length, before.length + within.length, ?_, Nat.le_add_right _ _, ?_, ?_⟩
  · intro hint
    have hPosition := (h.withHint hint).position (.row origin xs)
    rw [← h.position] at hPosition
    exact (congrArg Position.index hPosition).trans hIndex
  · rw [hKeys, List.length_append, List.length_append]
    omega
  · intro index key hKey
    rw [hKeys] at hKey
    exact iff_of_getElem? hBefore hWithin hAfter hKey

/-- In a page that was made empty the extensions of any row are neighbours, because in the order of
every schema nothing else lies between a row and its extensions. -/
theorem extensions_adjacent (checksum : Bytes → UInt32) (schema : Schema) (options : Options)
    (operations : List Operation) (origin : Origin) (xs : List Value) :
    (∃ first last, ((new schema options).run checksum operations).2.ExtensionsBetween origin xs
      first last) ∧
    ∀ (s : Schema) (x y : Value), (s.compare (.row origin xs) x).isLE → (s.compare x y).isLE →
      y.HasPrefix xs → x.HasPrefix xs := by
  constructor
  · have hLast := ((represents_new schema options).run checksum operations).2
    exact hLast.exists_extensionsBetween origin xs
  · intro s x y hLow hHigh hExtends
    rw [s.compare_eq] at hLow hHigh
    exact hExtends.of_between hLow hHigh

/-- Rows that extend the row of `1`, one of them beyond the schema, among other rows and a key that
is no row. -/
theorem extensions_adjacent_mixed :
    let operations : List Operation :=
      [.insert (.row ⟨0, 3⟩ [.int 2]), .insert (.int 5), .insert (.row ⟨0, 2⟩ [.int 1, .int 3]),
        .insert (.row ⟨0, 0⟩ []), .insert (.row ⟨0, 1⟩ [.int 1])]
    let page := ((new (.row [.int]) {}).run Checksum.crc32 operations).2
    page.keys = [.int 5, .row ⟨0, 0⟩ [], .row ⟨0, 1⟩ [.int 1], .row ⟨0, 2⟩ [.int 1, .int 3],
      .row ⟨0, 3⟩ [.int 2]] ∧ page.ExtensionsBetween ⟨1, 0⟩ [.int 1] 2 4 := by
  intro operations page
  have hKeys : page.keys = [.int 5, .row ⟨0, 0⟩ [], .row ⟨0, 1⟩ [.int 1],
      .row ⟨0, 2⟩ [.int 1, .int 3], .row ⟨0, 3⟩ [.int 2]] := by decide +kernel
  obtain ⟨⟨first, last, h⟩, -⟩ :=
    extensions_adjacent Checksum.crc32 (.row [.int]) {} operations ⟨1, 0⟩ [.int 1]
  obtain rfl : first = 2 := (h.search 0).symm.trans (by decide +kernel)
  have hLonger := h.extends_iff 3 (.row ⟨0, 2⟩ [.int 1, .int 3]) (congrArg (·[3]?) hKeys)
  have hGreater := h.extends_iff 4 (.row ⟨0, 3⟩ [.int 2]) (congrArg (·[4]?) hKeys)
  obtain ⟨-, hAbove⟩ := hLonger.mp (by decide)
  have hBelow : ¬(2 ≤ 4 ∧ 4 < last) := hGreater.not.mp (by decide)
  obtain rfl : last = 4 := by omega
  exact ⟨hKeys, h⟩

end Page

end RowStore
