import RowStore.Kind

/-!
# Schemas

A schema says what kind of value a column holds and, for a row, what its columns hold. A value need
not fit the schema it is compared or measured under; it has to fit the one it is written under.
-/

namespace RowStore

inductive Schema where
  | int
  | long
  | string
  | bytes
  | row (columns : List Schema)

/-- The kind of value that fits the schema. -/
def Schema.kind : Schema → Kind
  | int => .int
  | long => .long
  | string => .string
  | bytes => .bytes
  | row _ => .row

end RowStore
