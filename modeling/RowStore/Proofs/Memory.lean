import RowStore.Schema.Memory
import RowStore.Value.Content

/-!
# Estimates are the same under every schema

A schema measures a value as the value measures itself, and values with the same content take the
same memory.
-/

namespace RowStore

namespace Value

mutual

theorem memory_content : ∀ x : Value, x.content.memory = x.memory
  | int _ => rfl
  | long _ => rfl
  | string _ => rfl
  | bytes _ => rfl
  | row _ xs => memoryAll_contentAll xs

theorem memoryAll_contentAll : ∀ xs : List Value, memoryAll (contentAll xs) = memoryAll xs
  | [] => rfl
  | x :: xs => by rw [contentAll, memoryAll, memoryAll, memory_content, memoryAll_contentAll]

end

theorem memory_congr {x y : Value} (h : x.content = y.content) : x.memory = y.memory := by
  rw [← memory_content, h, memory_content]

theorem memoryAll_append (xs ys : List Value) :
    memoryAll (xs ++ ys) = memoryAll xs + memoryAll ys := by
  induction xs with
  | nil => rw [List.nil_append, memoryAll, Nat.zero_add]
  | cons x xs ih => rw [List.cons_append, memoryAll, memoryAll, ih, Nat.add_assoc]

end Value

namespace Schema

mutual

theorem memory_eq : ∀ (schema : Schema) (x : Value), schema.memory x = x.memory
  | .int, _ => rfl
  | .long, _ => rfl
  | .string, _ => rfl
  | .bytes, _ => rfl
  | .row columns, x => by
    cases x with
    | row origin xs => exact memoryColumns_eq columns xs
    | _ => rfl

theorem memoryColumns_eq : ∀ (columns : List Schema) (xs : List Value),
    memoryColumns columns xs = Value.memoryAll xs
  | [], xs => rfl
  | _ :: _, [] => rfl
  | schema :: columns, x :: xs => by
    rw [memoryColumns, Value.memoryAll, memory_eq, memoryColumns_eq]

end

theorem totalMemory_eq (schema : Schema) (xs : List Value) :
    schema.totalMemory xs = Value.memoryAll xs := by
  induction xs with
  | nil => rfl
  | cons x xs ih => rw [totalMemory, Value.memoryAll, memory_eq, ih]

@[simp] theorem totalMemory_append (schema : Schema) (xs ys : List Value) :
    schema.totalMemory (xs ++ ys) = schema.totalMemory xs + schema.totalMemory ys := by
  rw [totalMemory_eq, totalMemory_eq, totalMemory_eq, Value.memoryAll_append]

theorem totalMemory_congr (schema : Schema) {xs ys : List Value}
    (h : xs.map Value.content = ys.map Value.content) :
    schema.totalMemory xs = schema.totalMemory ys := by
  rw [totalMemory_eq, totalMemory_eq, ← Value.memoryAll_contentAll xs,
    ← Value.memoryAll_contentAll ys, Value.contentAll_eq_map, Value.contentAll_eq_map, h]

end Schema

end RowStore
