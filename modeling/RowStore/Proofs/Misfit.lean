import RowStore.Schema.Writing
import RowStore.Value.Content

/-!
# The first place that does not fit

`misfit?` looks for it in the order of writing: at a row its kind, then its number of columns, then
its columns from the left. The places of a value are found by paths of column numbers, and in the
lexicographic order of paths the place that `misfit?` answers for is the first one at fault
(`exists_firstFault`).
-/

namespace RowStore.Schema

mutual

def misfit? : Schema → Value → Option Error
  | .row columns, .row _ xs =>
    if columns.length < xs.length ∨ UInt32.size ≤ xs.length then
      some (.arityOverflow xs.length columns.length)
    else misfitColumns? columns xs
  | schema, x => if schema.kind = x.kind then none else some (.typeMismatch schema.kind x.kind)

def misfitColumns? : List Schema → List Value → Option Error
  | schema :: columns, x :: xs => (misfit? schema x).or (misfitColumns? columns xs)
  | _, _ => none

end

mutual

theorem misfit?_eq_none_iff : ∀ {schema : Schema} {x : Value},
    misfit? schema x = none ↔ Conforms schema x
  | .int, x => by cases x <;> simp [misfit?, Conforms]
  | .long, x => by cases x <;> simp [misfit?, Conforms]
  | .string, x => by cases x <;> simp [misfit?, Conforms]
  | .bytes, x => by cases x <;> simp [misfit?, Conforms]
  | .row columns, x => by
    cases x with
    | row origin xs =>
      rw [misfit?, Conforms]
      split
      · rename_i hWide
        constructor
        · intro h
          cases h
        · rintro ⟨hCount, hColumns⟩
          have hLength := hColumns.length_le
          omega
      · rename_i hNarrow
        rw [misfitColumns?_eq_none_iff (by omega)]
        exact (and_iff_right (by omega)).symm
    | _ => simp [misfit?, Conforms]

theorem misfitColumns?_eq_none_iff : ∀ {columns : List Schema} {xs : List Value},
    xs.length ≤ columns.length → (misfitColumns? columns xs = none ↔ ConformAll columns xs)
  | [], [], _ => by simp [misfitColumns?, ConformAll]
  | _ :: _, [], _ => by simp [misfitColumns?, ConformAll]
  | [], _ :: _, hLength => by simp at hLength
  | schema :: columns, x :: xs, hLength => by
    rw [misfitColumns?, ConformAll, Option.or_eq_none_iff, misfit?_eq_none_iff,
      misfitColumns?_eq_none_iff (by simpa using hLength)]

end

mutual

theorem misfit?_content : ∀ (schema : Schema) (x : Value),
    misfit? schema x.content = misfit? schema x
  | .int, x => by cases x <;> rfl
  | .long, x => by cases x <;> rfl
  | .string, x => by cases x <;> rfl
  | .bytes, x => by cases x <;> rfl
  | .row columns, x => by
    cases x with
    | row origin xs =>
      rw [Value.content, misfit?, misfit?, misfitColumns?_contentAll, Value.contentAll_eq_map,
        List.length_map]
    | _ => rfl

theorem misfitColumns?_contentAll : ∀ (columns : List Schema) (xs : List Value),
    misfitColumns? columns (Value.contentAll xs) = misfitColumns? columns xs
  | [], _ => by simp [misfitColumns?]
  | _ :: _, [] => rfl
  | schema :: columns, x :: xs => by
    rw [Value.contentAll, misfitColumns?, misfitColumns?, misfit?_content,
      misfitColumns?_contentAll]

end

mutual

/-- A misfit lies in the value, not in the bytes written before it. -/
theorem misfit?_ne_corruption (cause : Corruption) : ∀ {schema : Schema} {x : Value},
    misfit? schema x ≠ some (.corruption cause)
  | .int, x => by cases x <;> simp [misfit?, kind, Value.kind]
  | .long, x => by cases x <;> simp [misfit?, kind, Value.kind]
  | .string, x => by cases x <;> simp [misfit?, kind, Value.kind]
  | .bytes, x => by cases x <;> simp [misfit?, kind, Value.kind]
  | .row columns, x => by
    cases x with
    | row origin xs =>
      rw [misfit?]
      split
      · simp
      · exact misfitColumns?_ne_corruption cause
    | _ => simp [misfit?, kind, Value.kind]

theorem misfitColumns?_ne_corruption (cause : Corruption) : ∀ {columns : List Schema}
    {xs : List Value}, misfitColumns? columns xs ≠ some (.corruption cause)
  | [], _ => by simp [misfitColumns?]
  | _ :: _, [] => by simp [misfitColumns?]
  | schema :: columns, x :: xs => by
    rw [misfitColumns?, ne_eq, Option.or_eq_some_iff]
    rintro (h | ⟨-, h⟩)
    · exact misfit?_ne_corruption cause h
    · exact misfitColumns?_ne_corruption cause h

end

/-- What is wrong with a value itself, its columns apart. -/
def fault? : Schema → Value → Option Error
  | .row columns, .row _ xs =>
    if columns.length < xs.length ∨ UInt32.size ≤ xs.length then
      some (.arityOverflow xs.length columns.length)
    else none
  | schema, x => if schema.kind = x.kind then none else some (.typeMismatch schema.kind x.kind)

/-- The value that a path of column numbers leads to, and the schema it has to fit. -/
def descend? : Schema → Value → List Nat → Option (Schema × Value)
  | schema, x, [] => some (schema, x)
  | .row columns, .row _ xs, index :: path => do
    descend? (← columns[index]?) (← xs[index]?) path
  | _, _, _ :: _ => none

/-- The path leads to a fault, and no path before it in lexicographic order does. -/
structure FirstFault (schema : Schema) (x : Value) (path : List Nat) (e : Error) : Prop where
  found : ∃ s y, descend? schema x path = some (s, y) ∧ fault? s y = some e
  first : ∀ earlier < path, ∀ s y, descend? schema x earlier = some (s, y) → fault? s y = none

section Faults

variable {schema s : Schema} {x y : Value} {columns : List Schema} {xs : List Value}
  {origin : Origin} {index : Nat} {path : List Nat} {e : Error}

theorem descend?_cons_eq_some_iff :
    descend? schema x (index :: path) = some (s, y) ↔
      ∃ columns origin xs column z, schema = .row columns ∧ x = .row origin xs ∧
        columns[index]? = some column ∧ xs[index]? = some z ∧
        descend? column z path = some (s, y) := by
  constructor
  · intro h
    cases schema with
    | row columns =>
      cases x with
      | row origin xs =>
        simp only [descend?, Option.bind_eq_bind, Option.bind_eq_some_iff] at h
        obtain ⟨column, hColumn, z, hValue, hRest⟩ := h
        exact ⟨columns, origin, xs, column, z, rfl, rfl, hColumn, hValue, hRest⟩
      | _ => cases h
    | _ => cases h
  · rintro ⟨columns, origin, xs, column, z, rfl, rfl, hColumn, hValue, hRest⟩
    simp only [descend?, hColumn, hValue, Option.bind_eq_bind, Option.bind_some, hRest]

theorem misfit?_of_fault (h : fault? schema x = some e) : misfit? schema x = some e := by
  cases schema <;> cases x <;> simp_all [fault?, misfit?]

/-- Only a row has places of its own where it may not fit. -/
theorem misfit?_eq_fault? (h : schema.kind ≠ .row ∨ x.kind ≠ .row) :
    misfit? schema x = fault? schema x := by
  cases schema <;> cases x <;> simp_all [fault?, misfit?, kind, Value.kind]

theorem misfit?_row_of_fits (h : fault? (.row columns) (.row origin xs) = none) :
    misfit? (.row columns) (.row origin xs) = misfitColumns? columns xs := by
  rw [fault?] at h
  split at h
  · cases h
  · rename_i hNarrow
    rw [misfit?, if_neg hNarrow]

theorem fault?_eq_none_of_misfit? (h : misfit? schema x = none) : fault? schema x = none := by
  cases hFault : fault? schema x with
  | none => rfl
  | some e =>
    rw [misfit?_of_fault hFault] at h
    cases h

theorem misfit?_column_eq_none (h : misfitColumns? columns xs = none)
    (hColumn : columns[index]? = some s) (hValue : xs[index]? = some y) : misfit? s y = none := by
  induction columns generalizing xs index with
  | nil => cases hColumn
  | cons schema columns ih =>
    cases xs with
    | nil => cases hValue
    | cons x xs =>
      rw [misfitColumns?, Option.or_eq_none_iff] at h
      cases index with
      | zero =>
        cases hColumn
        cases hValue
        exact h.1
      | succ index => exact ih h.2 hColumn hValue

theorem fault?_eq_none_of_descend? (h : misfit? schema x = none)
    (hPath : descend? schema x path = some (s, y)) : fault? s y = none := by
  induction path generalizing schema x with
  | nil =>
    cases hPath
    exact fault?_eq_none_of_misfit? h
  | cons index path ih =>
    obtain ⟨columns, origin, xs, column, z, rfl, rfl, hColumn, hValue, hRest⟩ :=
      descend?_cons_eq_some_iff.mp hPath
    rw [misfit?_row_of_fits (fault?_eq_none_of_misfit? h)] at h
    exact ih (misfit?_column_eq_none h hColumn hValue) hRest

theorem firstFault_here (h : fault? schema x = some e) : FirstFault schema x [] e where
  found := ⟨schema, x, rfl, h⟩
  first earlier hEarlier := absurd hEarlier (List.not_lt_nil earlier)

theorem exists_firstFault_here (hLeaf : schema.kind ≠ .row ∨ x.kind ≠ .row)
    (h : misfit? schema x = some e) : ∃ path, FirstFault schema x path e :=
  ⟨[], firstFault_here (misfit?_eq_fault? hLeaf ▸ h)⟩

theorem FirstFault.column (h : FirstFault s y path e)
    (hFits : fault? (.row columns) (.row origin xs) = none)
    (hColumn : columns[index]? = some s) (hValue : xs[index]? = some y)
    (hBefore : ∀ i < index, ∀ (s : Schema) (y : Value), columns[i]? = some s → xs[i]? = some y →
      misfit? s y = none) :
    FirstFault (.row columns) (.row origin xs) (index :: path) e where
  found := by
    obtain ⟨s', y', hPath, hFault⟩ := h.found
    exact ⟨s', y', descend?_cons_eq_some_iff.mpr
      ⟨columns, origin, xs, s, y, rfl, rfl, hColumn, hValue, hPath⟩, hFault⟩
  first earlier hEarlier s' y' hPath := by
    cases earlier with
    | nil =>
      cases hPath
      exact hFits
    | cons i rest =>
      obtain ⟨_, _, _, column, z, hSchema, hRow, hColumn', hValue', hRest⟩ :=
        descend?_cons_eq_some_iff.mp hPath
      cases hSchema
      cases hRow
      rcases List.cons_lt_cons_iff.mp hEarlier with hLt | ⟨rfl, hLt⟩
      · exact fault?_eq_none_of_descend? (hBefore i hLt column z hColumn' hValue') hRest
      · rw [hColumn, Option.some.injEq] at hColumn'
        rw [hValue, Option.some.injEq] at hValue'
        subst hColumn' hValue'
        exact h.first rest hLt s' y' hRest

end Faults

mutual

theorem exists_firstFault : ∀ {schema : Schema} {x : Value} {e : Error},
    misfit? schema x = some e → ∃ path, FirstFault schema x path e
  | .int, _, _, h => exists_firstFault_here (.inl Kind.noConfusion) h
  | .long, _, _, h => exists_firstFault_here (.inl Kind.noConfusion) h
  | .string, _, _, h => exists_firstFault_here (.inl Kind.noConfusion) h
  | .bytes, _, _, h => exists_firstFault_here (.inl Kind.noConfusion) h
  | .row columns, x, e, h => by
    cases x with
    | row origin xs =>
      cases hFault : fault? (.row columns) (.row origin xs) with
      | some e' =>
        rw [misfit?_of_fault hFault] at h
        exact ⟨[], firstFault_here (h ▸ hFault)⟩
      | none =>
        rw [misfit?_row_of_fits hFault] at h
        obtain ⟨index, s, y, path, hColumn, hValue, hFirst, hBefore⟩ :=
          exists_firstFault_column h
        exact ⟨index :: path, hFirst.column hFault hColumn hValue hBefore⟩
    | _ => exact exists_firstFault_here (.inr Kind.noConfusion) h

theorem exists_firstFault_column : ∀ {columns : List Schema} {xs : List Value} {e : Error},
    misfitColumns? columns xs = some e →
    ∃ (index : Nat) (s : Schema) (y : Value) (path : List Nat), columns[index]? = some s ∧
      xs[index]? = some y ∧ FirstFault s y path e ∧
      ∀ i < index, ∀ (s : Schema) (y : Value), columns[i]? = some s → xs[i]? = some y →
        misfit? s y = none
  | [], _, _, h => by simp [misfitColumns?] at h
  | _ :: _, [], _, h => by simp [misfitColumns?] at h
  | schema :: columns, x :: xs, e, h => by
    rw [misfitColumns?, Option.or_eq_some_iff] at h
    rcases h with h | ⟨hFits, hRest⟩
    · obtain ⟨path, hFirst⟩ := exists_firstFault h
      exact ⟨0, schema, x, path, rfl, rfl, hFirst, fun i hi => absurd hi (Nat.not_lt_zero i)⟩
    · obtain ⟨index, s, y, path, hColumn, hValue, hFirst, hBefore⟩ :=
        exists_firstFault_column hRest
      refine ⟨index + 1, s, y, path, hColumn, hValue, hFirst, ?_⟩
      intro i hi s' y' hColumn' hValue'
      cases i with
      | zero =>
        cases hColumn'
        cases hValue'
        exact hFits
      | succ i => exact hBefore i (by omega) s' y' hColumn' hValue'

end

end RowStore.Schema
