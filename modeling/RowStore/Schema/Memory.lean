import RowStore.Schema.Basic
import RowStore.Value.Memory

/-!
# How much memory a value takes under a schema

Each column of a row is measured by its own schema, and the columns beyond the last one by
themselves.
-/

namespace RowStore.Schema

mutual

def memory : Schema → Value → Nat
  | .row columns, .row _ xs => memoryColumns columns xs
  | _, x => x.memory

def memoryColumns : List Schema → List Value → Nat
  | schema :: columns, x :: xs => memory schema x + memoryColumns columns xs
  | _, xs => Value.memoryAll xs

end

/-- What values take, all measured by one schema. -/
def totalMemory (schema : Schema) : List Value → Nat
  | [] => 0
  | x :: xs => schema.memory x + schema.totalMemory xs

end RowStore.Schema
