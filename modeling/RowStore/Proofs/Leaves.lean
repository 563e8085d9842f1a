import Mathlib.Algebra.BigOperators.Group.List.Basic
import Mathlib.Algebra.GroupWithZero.Nat
import RowStore.Proofs.Memory

/-!
# Estimates are sums over leaves

What a value takes is what its leaves take, at whatever depth they lie: rows take nothing of their
own. So every schema gives the same estimate, which does not depend on where rows were built, and
only grows when columns are appended (`memory_sums_leaves`).
-/

namespace RowStore

/-- A part of a value that has no parts. -/
inductive Leaf where
  | int (n : Int32)
  | long (n : Int64)
  | string (text : Text)
  | bytes (blob : Blob)

namespace Leaf

def memory : Leaf → Nat
  | int _ => 16
  | long _ => 24
  | string text => 24 + 2 * text.encode.bytes.length
  | bytes blob => 24 + blob.bytes.length

theorem memory_pos (leaf : Leaf) : 0 < leaf.memory := by
  cases leaf with
  | int | long => exact Nat.succ_pos _
  | string | bytes => exact Nat.add_pos_left (by decide) _

end Leaf

namespace Value

mutual

/-- The leaves of a value at every depth, from the left. -/
def leaves : Value → List Leaf
  | int n => [.int n]
  | long n => [.long n]
  | string text => [.string text]
  | bytes blob => [.bytes blob]
  | row _ columns => leavesAll columns

def leavesAll : List Value → List Leaf
  | [] => []
  | x :: xs => leaves x ++ leavesAll xs

end

mutual

theorem memory_eq_sum : ∀ x : Value, x.memory = (x.leaves.map Leaf.memory).sum
  | int _ => rfl
  | long _ => rfl
  | string text => by
    rw [leaves, List.map_singleton, List.sum_singleton, Leaf.memory, text.length_encode, memory,
      heapOverhead]
  | bytes _ => rfl
  | row _ xs => by rw [memory, leaves, memoryAll_eq_sum]

theorem memoryAll_eq_sum : ∀ xs : List Value,
    memoryAll xs = ((leavesAll xs).map Leaf.memory).sum
  | [] => rfl
  | x :: xs => by
    rw [memoryAll, leavesAll, List.map_append, List.sum_append, memory_eq_sum, memoryAll_eq_sum]

end

theorem memory_eq_zero_iff {x : Value} : x.memory = 0 ↔ x.leaves = [] := by
  rw [memory_eq_sum]
  cases x.leaves with
  | nil => simp
  | cons leaf leaves =>
    have hPos := leaf.memory_pos
    rw [List.map_cons, List.sum_cons]
    simp only [reduceCtorEq, iff_false]
    omega

end Value

namespace Schema

/-- Neither the schema nor whether the value fits it matters, and of a row nothing matters but what
its columns hold. -/
theorem memory_sums_leaves :
    (∀ (schema : Schema) (x : Value), schema.memory x = x.memory ∧
      schema.memory x = (x.leaves.map Leaf.memory).sum ∧
      (schema.memory x = 0 ↔ x.leaves = [])) ∧
    (∀ (schema other : Schema) (x y : Value), x.content = y.content →
      schema.memory x = other.memory y) ∧
    ∀ (schema other : Schema) (origin origin' : Origin) (xs more : List Value),
      schema.memory (.row origin xs) ≤ other.memory (.row origin' (xs ++ more)) := by
  refine ⟨?_, ?_, ?_⟩
  · intro schema x
    rw [memory_eq]
    exact ⟨rfl, x.memory_eq_sum, Value.memory_eq_zero_iff⟩
  · intro schema other x y h
    rw [memory_eq, memory_eq, Value.memory_congr h]
  · intro schema other origin origin' xs more
    rw [memory_eq, memory_eq, Value.memory, Value.memory, Value.memoryAll_append]
    exact Nat.le_add_right _ _

/-- One row under a leaf schema, and a row with the same columns under a schema that has a text in
place of the first one and no second one. -/
theorem memory_sums_leaves_misfit :
    Schema.int.memory
        (.row {} [.row { offset := 2 } [.int 1, .long 2], .bytes { bytes := [7, 8] }]) = 66 ∧
      (row [.string]).memory
        (.row { source := 4 } [.row {} [.int 1, .long 2], .bytes { bytes := [7, 8] }]) = 66 := by
  obtain ⟨hSum, hSame, -⟩ := memory_sums_leaves
  have hMemory : Schema.int.memory
      (.row {} [.row { offset := 2 } [.int 1, .long 2], .bytes { bytes := [7, 8] }]) = 66 :=
    (hSum .int _).2.1
  exact ⟨hMemory, (hSame (row [.string]) .int _ _ rfl).trans hMemory⟩

end Schema

end RowStore
