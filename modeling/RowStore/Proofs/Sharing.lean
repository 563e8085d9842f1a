import RowStore.Proofs.Order

/-!
# What sharing saves

Copies of a row are not compared column by column. No answer depends on that: values with the same
contents compare alike, whatever rows they have in common. What depends on it is the number of
comparisons, which is greatest when no row is shared, and is then at most the number of values
that the smaller side is made of (`sharing_only_saves`).
-/

namespace RowStore

namespace Tally

/-- No more comparisons of either kind. -/
instance : LE Tally := ⟨fun s t => s.leaf ≤ t.leaf ∧ s.row ≤ t.row⟩

def total (t : Tally) : Nat := t.leaf + t.row

theorem le_rfl (t : Tally) : t ≤ t := ⟨Nat.le_refl _, Nat.le_refl _⟩

theorem add_le_add {s s' t t' : Tally} (hs : s ≤ s') (ht : t ≤ t') : s + t ≤ s' + t' :=
  ⟨Nat.add_le_add hs.1 ht.1, Nat.add_le_add hs.2 ht.2⟩

theorem total_add (s t : Tally) : (s + t).total = s.total + t.total := by
  simp only [total, leaf_add, row_add]
  omega

end Tally

namespace Value

mutual

/-- The number of values that a value is made of, itself included. -/
def nodes : Value → Nat
  | row _ columns => nodesAll columns + 1
  | _ => 1

def nodesAll : List Value → Nat
  | [] => 0
  | x :: xs => nodes x + nodesAll xs

end

mutual

/-- The rows that a value is made of, each with its columns. -/
def rows : Value → List (Origin × List Value)
  | row origin columns => (origin, columns) :: rowsAll columns
  | _ => []

def rowsAll : List Value → List (Origin × List Value)
  | [] => []
  | x :: xs => rows x ++ rowsAll xs

end

/-- No row was built at the same place as one of the others. -/
def RowsApart (rows others : List (Origin × List Value)) : Prop :=
  ∀ r ∈ rows, ∀ s ∈ others, r.1 ≠ s.1

/-- The values have no row in common. -/
def Apart (x y : Value) : Prop := RowsApart x.rows y.rows

/-- What was built at one place is one row. -/
def Coherent (x y : Value) : Prop :=
  ∀ r ∈ x.rows ++ y.rows, ∀ s ∈ x.rows ++ y.rows, r.1 = s.1 → r.2 = s.2

theorem RowsApart.mono {rows rows' others others' : List (Origin × List Value)}
    (h : RowsApart rows others) (hRows : rows' ⊆ rows) (hOthers : others' ⊆ others) :
    RowsApart rows' others' :=
  fun r hr s hs => h r (hRows hr) s (hOthers hs)

mutual

theorem nodes_content : ∀ x : Value, x.content.nodes = x.nodes
  | int _ => rfl
  | long _ => rfl
  | string _ => rfl
  | bytes _ => rfl
  | row _ xs => by rw [content, nodes, nodes, nodesAll_contentAll]

theorem nodesAll_contentAll : ∀ xs : List Value, nodesAll (contentAll xs) = nodesAll xs
  | [] => rfl
  | x :: xs => by rw [contentAll, nodesAll, nodesAll, nodes_content, nodesAll_contentAll]

end

theorem nodes_congr {x y : Value} (h : x.content = y.content) : x.nodes = y.nodes := by
  rw [← nodes_content, h, nodes_content]

theorem nodes_pos (x : Value) : 0 < x.nodes := by
  cases x <;> simp [nodes]

theorem kind_congr {x y : Value} (h : x.content = y.content) : x.kind = y.kind := by
  rw [← kind_content, h, kind_content]

theorem exists_row_of_kind {x : Value} (h : x.kind = .row) : ∃ origin xs, x = row origin xs := by
  cases x with
  | row origin xs => exact ⟨origin, xs, rfl⟩
  | _ => cases h

/-- Among coherent values, rows are told to be copies by their origins alone. -/
theorem Coherent.isCopy_iff {x y : Value} (h : x.Coherent y) {r s : Origin × List Value}
    (hr : r ∈ x.rows) (hs : s ∈ y.rows) : isCopy r.1 r.2 s.1 s.2 = true ↔ r.1 = s.1 := by
  rw [Value.isCopy_iff, and_iff_left_iff_imp]
  exact h r (List.mem_append_left _ hr) s (List.mem_append_right _ hs)

end Value

namespace Schema

open Value

theorem tally_weigh_row (columns : List Schema) (o p : Origin) (xs ys : List Value) :
    (weigh (.row columns) (.row o xs) (.row p ys)).tally =
      if isCopy o xs p ys then ⟨0, 1⟩ else (weighColumns columns xs ys).tally + ⟨0, 1⟩ := by
  rw [weigh]
  split <;> rfl

theorem tally_weigh_of_kind_ne (columns : List Schema) {x y : Value}
    (h : ¬(x.kind = .row ∧ y.kind = .row)) : (weigh (.row columns) x y).tally = ⟨0, 1⟩ := by
  cases x <;> cases y <;> first | rfl | exact absurd ⟨rfl, rfl⟩ h

theorem tally_weighColumns_cons (schema : Schema) (columns : List Schema) (x y : Value)
    (xs ys : List Value) :
    (weighColumns (schema :: columns) (x :: xs) (y :: ys)).tally = (schema.weigh x y).tally +
      if x.order y = .eq then (weighColumns columns xs ys).tally else {} := by
  rw [weighColumns, Counted.tally_bind, value_weigh]
  cases x.order y <;> rfl

mutual

theorem tally_weigh_le : ∀ (schema : Schema) {x y x' y' : Value}, x'.content = x.content →
    y'.content = y.content → x'.Apart y' → (schema.weigh x y).tally ≤ (schema.weigh x' y').tally
  | .int, _, _, _, _, _, _, _ => Tally.le_rfl _
  | .long, _, _, _, _, _, _, _ => Tally.le_rfl _
  | .string, _, _, _, _, _, _, _ => Tally.le_rfl _
  | .bytes, _, _, _, _, _, _, _ => Tally.le_rfl _
  | .row columns, x, y, x', y', hx, hy, hApart => by
    have hxKind := kind_congr hx
    have hyKind := kind_congr hy
    by_cases hRows : x.kind = .row ∧ y.kind = .row
    · obtain ⟨o, xs, rfl⟩ := exists_row_of_kind hRows.1
      obtain ⟨p, ys, rfl⟩ := exists_row_of_kind hRows.2
      obtain ⟨o', xs', rfl⟩ := exists_row_of_kind hxKind
      obtain ⟨p', ys', rfl⟩ := exists_row_of_kind hyKind
      have hCopy : ¬isCopy o' xs' p' ys' = true := by
        rw [Value.isCopy_iff]
        rintro ⟨hOrigin, -⟩
        exact hApart (o', xs') List.mem_cons_self (p', ys') List.mem_cons_self hOrigin
      rw [tally_weigh_row, tally_weigh_row, if_neg hCopy]
      split
      · exact ⟨Nat.zero_le _, Nat.le_add_left _ _⟩
      · simp only [content, Value.row.injEq, true_and] at hx hy
        have hColumns := tally_weighColumns_le columns hx hy
          (hApart.mono (List.subset_cons_self _ _) (List.subset_cons_self _ _))
        exact Tally.add_le_add hColumns (Tally.le_rfl _)
    · have hRows' : ¬(x'.kind = .row ∧ y'.kind = .row) := by rwa [hxKind, hyKind]
      rw [tally_weigh_of_kind_ne columns hRows, tally_weigh_of_kind_ne columns hRows']
      exact Tally.le_rfl _

theorem tally_weighColumns_le : ∀ (columns : List Schema) {xs ys xs' ys' : List Value},
    contentAll xs' = contentAll xs → contentAll ys' = contentAll ys →
    RowsApart (rowsAll xs') (rowsAll ys') →
    (weighColumns columns xs ys).tally ≤ (weighColumns columns xs' ys').tally
  | [], _, _, _, _, _, _, _ => Tally.le_rfl _
  | _ :: _, [], _, _, _, _, _, _ => ⟨Nat.zero_le _, Nat.zero_le _⟩
  | _ :: _, _ :: _, [], _, _, _, _, _ => ⟨Nat.zero_le _, Nat.zero_le _⟩
  | schema :: columns, x :: xs, y :: ys, [], _, hxs, _, _ => by simp [contentAll] at hxs
  | schema :: columns, x :: xs, y :: ys, _ :: _, [], _, hys, _ => by simp [contentAll] at hys
  | schema :: columns, x :: xs, y :: ys, x' :: xs', y' :: ys', hxs, hys, hApart => by
    rw [contentAll, contentAll, List.cons.injEq] at hxs hys
    have hFirst := tally_weigh_le schema hxs.1 hys.1
      (hApart.mono (List.subset_append_left _ _) (List.subset_append_left _ _))
    have hRest := tally_weighColumns_le columns hxs.2 hys.2
      (hApart.mono (List.subset_append_right _ _) (List.subset_append_right _ _))
    rw [tally_weighColumns_cons, tally_weighColumns_cons, order_congr hxs.1 hys.1]
    apply Tally.add_le_add hFirst
    split
    · exact hRest
    · exact Tally.le_rfl _

end

mutual

theorem total_weigh_le : ∀ (schema : Schema) (x y : Value),
    (schema.weigh x y).tally.total ≤ min x.nodes y.nodes
  | .int, x, y => Nat.le_min.mpr ⟨x.nodes_pos, y.nodes_pos⟩
  | .long, x, y => Nat.le_min.mpr ⟨x.nodes_pos, y.nodes_pos⟩
  | .string, x, y => Nat.le_min.mpr ⟨x.nodes_pos, y.nodes_pos⟩
  | .bytes, x, y => Nat.le_min.mpr ⟨x.nodes_pos, y.nodes_pos⟩
  | .row columns, x, y => by
    by_cases hRows : x.kind = .row ∧ y.kind = .row
    · obtain ⟨o, xs, rfl⟩ := exists_row_of_kind hRows.1
      obtain ⟨p, ys, rfl⟩ := exists_row_of_kind hRows.2
      have hColumns := total_weighColumns_le columns xs ys
      rw [tally_weigh_row, nodes, nodes]
      split
      · exact Nat.le_min.mpr ⟨Nat.le_add_left _ _, Nat.le_add_left _ _⟩
      · have hOne : (⟨0, 1⟩ : Tally).total = 1 := rfl
        rw [Tally.total_add, hOne]
        omega
    · rw [tally_weigh_of_kind_ne columns hRows]
      exact Nat.le_min.mpr ⟨x.nodes_pos, y.nodes_pos⟩

theorem total_weighColumns_le : ∀ (columns : List Schema) (xs ys : List Value),
    (weighColumns columns xs ys).tally.total ≤ min (nodesAll xs) (nodesAll ys)
  | [], _, _ => Nat.zero_le _
  | _ :: _, [], _ => Nat.zero_le _
  | _ :: _, _ :: _, [] => Nat.zero_le _
  | schema :: columns, x :: xs, y :: ys => by
    have hFirst := total_weigh_le schema x y
    have hRest := total_weighColumns_le columns xs ys
    rw [tally_weighColumns_cons, Tally.total_add, nodesAll, nodesAll]
    split
    · omega
    · have hNone : ({} : Tally).total = 0 := rfl
      rw [hNone]
      omega

end

/-- A value is compared with itself without a look at its columns. -/
theorem weigh_self (schema : Schema) (x : Value) :
    (schema.weigh x x).value = .eq ∧ (schema.weigh x x).tally.total = 1 := by
  constructor
  · rw [value_weigh, order_self]
  · cases schema with
    | row columns =>
      by_cases hRow : x.kind = .row ∧ x.kind = .row
      · obtain ⟨o, xs, rfl⟩ := exists_row_of_kind hRow.1
        rw [tally_weigh_row, if_pos (Value.isCopy_iff.mpr ⟨rfl, rfl⟩)]
        rfl
      · rw [tally_weigh_of_kind_ne columns hRow]
        rfl
    | _ => rfl

/-- Let `x'` and `y'` hold what `x` and `y` hold, and have no row in common. Then `x` and `y`
compare as they do, with no more comparisons, and even theirs are few. -/
theorem sharing_only_saves (schema : Schema) {x y x' y' : Value} (hx : x'.content = x.content)
    (hy : y'.content = y.content) (hApart : x'.Apart y') :
    schema.compare x y = schema.compare x' y' ∧
    x.order y = x'.order y' ∧
    (schema.weigh x y).tally ≤ (schema.weigh x' y').tally ∧
    (schema.weigh x' y').tally.total ≤ min x.nodes y.nodes ∧
    ((schema.weigh x x).value = .eq ∧ (schema.weigh x x).tally.total = 1) ∧
    (x.Coherent y → ∀ r ∈ x.rows, ∀ s ∈ y.rows, isCopy r.1 r.2 s.1 s.2 = true ↔ r.1 = s.1) := by
  refine ⟨?_, order_congr hx.symm hy.symm, ?_, ?_, schema.weigh_self x, ?_⟩
  · rw [compare_eq_order, compare_eq_order, order_congr hx.symm hy.symm]
  · exact schema.tally_weigh_le hx hy hApart
  · rw [← nodes_congr hx, ← nodes_congr hy]
    exact schema.total_weigh_le x' y'
  · intro hCoherent r hr s hs
    exact hCoherent.isCopy_iff hr hs

/-- The first column is one row in both values, and is written out twice in the others. -/
theorem sharing_only_saves_column :
    let shared : Value := .row ⟨0, 0⟩ [.int 5, .int 6]
    let x : Value := .row ⟨0, 1⟩ [shared, .int 1]
    let y : Value := .row ⟨0, 2⟩ [shared, .int 2]
    let x' : Value := .row ⟨1, 0⟩ [.row ⟨1, 1⟩ [.int 5, .int 6], .int 1]
    let y' : Value := .row ⟨1, 2⟩ [.row ⟨1, 3⟩ [.int 5, .int 6], .int 2]
    let schema : Schema := row [row [int, int], int]
    schema.compare x' y' = .lt ∧ schema.compare x y = .lt ∧ x.order y = x'.order y' ∧
      (schema.weigh x y).tally = ⟨1, 2⟩ ∧ (schema.weigh x' y').tally = ⟨3, 2⟩ ∧
      (schema.weigh x y).tally ≤ (schema.weigh x' y').tally ∧
      (schema.weigh x' y').tally.total ≤ min x.nodes y.nodes ∧
      isCopy ⟨0, 0⟩ [.int 5, .int 6] ⟨0, 0⟩ [.int 5, .int 6] = true := by
  intro shared x y x' y' schema
  have hApart : x'.Apart y' := by
    unfold Apart RowsApart
    decide
  have hCoherent : x.Coherent y := by
    unfold Coherent
    decide
  have hx : x'.content = x.content := rfl
  have hy : y'.content = y.content := rfl
  obtain ⟨hCompare, hOrder, hTally, hTotal, -, hCopies⟩ := sharing_only_saves schema hx hy hApart
  have hLess : schema.compare x' y' = .lt := by decide
  refine ⟨hLess, hCompare.trans hLess, hOrder, by decide, by decide, hTally, hTotal, ?_⟩
  exact (hCopies hCoherent (⟨0, 0⟩, [.int 5, .int 6]) (by decide) (⟨0, 0⟩, [.int 5, .int 6])
    (by decide)).mpr rfl

end Schema

end RowStore
