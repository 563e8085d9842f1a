import RowStore.Schema.Basic
import RowStore.Value.Basic

/-!
# Values that fit a schema

A leaf fits the schema of its kind. A row fits a row schema when it has no more columns than the
schema, and no more than a 32-bit word can count, and each fits the schema of its column.
-/

namespace RowStore.Schema

mutual

def Conforms : Schema → Value → Prop
  | .row columns, .row _ xs => xs.length < UInt32.size ∧ ConformAll columns xs
  | schema, x => schema.kind = x.kind

/-- Each value fits the schema in its place. -/
def ConformAll : List Schema → List Value → Prop
  | _, [] => True
  | [], _ :: _ => False
  | schema :: columns, x :: xs => Conforms schema x ∧ ConformAll columns xs

end

theorem ConformAll.length_le {columns : List Schema} {xs : List Value} (h : ConformAll columns xs) :
    xs.length ≤ columns.length := by
  induction xs generalizing columns with
  | nil => simp
  | cons x xs ih =>
    cases columns with
    | nil => simp [ConformAll] at h
    | cons schema columns =>
      simp only [ConformAll] at h
      simpa using ih h.2

end RowStore.Schema
