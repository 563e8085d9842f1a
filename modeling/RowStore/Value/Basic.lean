import RowStore.Kind
import RowStore.Text

/-!
# Values

A value is a number, a text, a byte string, or a row of values. A row is built once, and every copy
of it shares the columns it was built with: its origin tells which rows are copies of one another
(`isCopy`), so that they need not be compared column by column.
-/

namespace RowStore

/-- Where a row was built: at an offset of a source. -/
structure Origin where
  source : Nat := 0
  offset : Nat := 0
deriving DecidableEq

inductive Value where
  | int (n : Int32)
  | long (n : Int64)
  | string (text : Text)
  | bytes (blob : Blob)
  | row (origin : Origin) (columns : List Value)

namespace Value

def kind : Value → Kind
  | int _ => .int
  | long _ => .long
  | string _ => .string
  | bytes _ => .bytes
  | row _ _ => .row

def columns? : Value → Option (List Value)
  | row _ columns => some columns
  | _ => none

mutual

/-- Equality, of origins too. -/
def beq : Value → Value → Bool
  | int m, int n => m == n
  | long m, long n => m == n
  | string s, string t => s == t
  | bytes a, bytes b => a == b
  | row o xs, row p ys => o == p && beqAll xs ys
  | _, _ => false

def beqAll : List Value → List Value → Bool
  | [], [] => true
  | x :: xs, y :: ys => beq x y && beqAll xs ys
  | _, _ => false

end

mutual

theorem eq_of_beq : ∀ {x y : Value}, beq x y = true → x = y
  | int m, y, h => by cases y <;> simp_all [beq]
  | long m, y, h => by cases y <;> simp_all [beq]
  | string s, y, h => by cases y <;> simp_all [beq]
  | bytes a, y, h => by cases y <;> simp_all [beq]
  | row o xs, y, h => by
    cases y with
    | row p ys =>
      simp only [beq, Bool.and_eq_true, beq_iff_eq] at h
      rw [h.1, eq_of_beqAll h.2]
    | _ => simp [beq] at h

theorem eq_of_beqAll : ∀ {xs ys : List Value}, beqAll xs ys = true → xs = ys
  | [], ys, h => by cases ys <;> simp_all [beqAll]
  | x :: xs, ys, h => by
    cases ys with
    | nil => simp [beqAll] at h
    | cons y ys =>
      simp only [beqAll, Bool.and_eq_true] at h
      rw [eq_of_beq h.1, eq_of_beqAll h.2]

end

mutual

theorem beq_rfl : ∀ x : Value, beq x x = true
  | int _ | long _ | string _ | bytes _ => by simp [beq]
  | row _ xs => by simp [beq, beqAll_rfl xs]

theorem beqAll_rfl : ∀ xs : List Value, beqAll xs xs = true
  | [] => rfl
  | x :: xs => by simp [beqAll, beq_rfl x, beqAll_rfl xs]

end

instance : DecidableEq Value := fun x y =>
  decidable_of_iff (beq x y = true) ⟨eq_of_beq, fun h => h ▸ beq_rfl x⟩

/-- Whether two rows, given by their origins and columns, are copies of one row. Copies have their
columns in common, so that looking at where the columns are kept answers without comparing them. -/
def isCopy (o : Origin) (xs : List Value) (p : Origin) (ys : List Value) : Bool :=
  o == p && withPtrEq xs ys (fun _ => beqAll xs ys) fun h => h ▸ beqAll_rfl xs

theorem isCopy_iff {o p : Origin} {xs ys : List Value} :
    isCopy o xs p ys = true ↔ o = p ∧ xs = ys := by
  simp only [isCopy, withPtrEq, Bool.and_eq_true, beq_iff_eq]
  exact and_congr_right fun _ => ⟨eq_of_beqAll, fun h => h ▸ beqAll_rfl xs⟩

end Value

end RowStore
