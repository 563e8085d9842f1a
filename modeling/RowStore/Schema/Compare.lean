import RowStore.Schema.Basic
import RowStore.Value.Order
import RowStore.Counted

/-!
# Comparison under a schema

A leaf schema compares values of its own kind by what they hold. A row schema compares rows column
by column, each column under its own schema, and columns beyond its last one in the natural order.
All other values are compared in the natural order. `weigh` counts the schemas that were asked,
`compare` is its answer.
-/

namespace RowStore.Schema

/-- The comparison of a leaf schema. -/
def compareLeaf : Schema → Value → Value → Ordering
  | .int, .int m, .int n => Ord.compare m n
  | .long, .long m, .long n => Ord.compare m n
  | .string, .string s, .string t => Ord.compare s.string t.string
  | .bytes, .bytes a, .bytes b => Ord.compare a.bytes b.bytes
  | _, x, y => x.order y

mutual

def weigh : Schema → Value → Value → Counted Ordering
  | .row columns, x, y => .row (match x, y with
    | .row o xs, .row p ys =>
      if Value.isCopy o xs p ys then pure .eq else weighColumns columns xs ys
    | x, y => pure (x.order y))
  | schema, x, y => .leaf (schema.compareLeaf x y)

/-- Compares columns from the left, up to the first pair that differs. -/
def weighColumns : List Schema → List Value → List Value → Counted Ordering
  | schema :: columns, x :: xs, y :: ys => do
    match ← weigh schema x y with
    | .eq => weighColumns columns xs ys
    | differs => pure differs
  | _, xs, ys => pure (Value.orderAll xs ys)

end

def compare (schema : Schema) (x y : Value) : Ordering := (schema.weigh x y).value

end RowStore.Schema
