import Mathlib.Data.Finset.Sort
import Mathlib.Order.Std
import RowStore.Proofs.Order

/-!
# Data

A datum is what a value holds, with no regard to where its rows were built. Values with the same
content hold one datum, and the natural order is a linear order of data.
-/

namespace RowStore

structure Datum where
  value : Value
  plain : value.content = value
deriving DecidableEq

namespace Value

mutual

@[simp] theorem content_content : ∀ x : Value, x.content.content = x.content
  | int _ => rfl
  | long _ => rfl
  | string _ => rfl
  | bytes _ => rfl
  | row _ xs => by rw [content, content, contentAll_contentAll]

theorem contentAll_contentAll : ∀ xs : List Value, contentAll (contentAll xs) = contentAll xs
  | [] => rfl
  | x :: xs => by rw [contentAll, contentAll, content_content, contentAll_contentAll]

end

/-- What the value holds. -/
def datum (x : Value) : Datum := ⟨x.content, x.content_content⟩

theorem datum_eq_iff {x y : Value} : x.datum = y.datum ↔ x.content = y.content := by
  simp [datum]

theorem map_datum_congr {xs ys : List Value} (h : xs.map content = ys.map content) :
    xs.map datum = ys.map datum := by
  have hDatum : datum = datum ∘ content := by
    funext x
    exact (datum_eq_iff.mpr x.content_content).symm
  rw [hDatum, ← List.map_map, ← List.map_map, h]

end Value

namespace Datum

@[simp] theorem datum_value (d : Datum) : d.value.datum = d := by
  cases d
  simpa [Value.datum]

instance : Ord Datum where
  compare a b := a.value.order b.value

instance : Std.TransOrd Datum where
  eq_swap := Value.order_swap.symm
  isLE_trans {a b c} hab hbc := by
    change (a.value.order c.value).isLE
    exact Std.TransCmp.isLE_trans hab hbc

instance : Std.LawfulEqOrd Datum where
  eq_of_compare {a b} h := by
    have hContent := Value.order_eq_iff.mp h
    rw [← a.datum_value, ← b.datum_value]
    exact Value.datum_eq_iff.mpr hContent

instance : LinearOrder Datum := .ofStd Datum

theorem compare_datum (x y : Value) : compare x.datum y.datum = x.order y := Value.order_content

theorem datum_lt_iff {x y : Value} : x.datum < y.datum ↔ x.order y = .lt := by
  rw [← compare_datum, compare_lt_iff_lt]

end Datum

end RowStore
