import RowStore.Value.Basic

/-!
# The natural order of values

Values of one kind are ordered by what they hold: numbers by size, texts by code points, byte
strings and rows lexicographically, a proper beginning first. Values of different kinds are ordered
by kind. Copies of a row are equal without a look at their columns.
-/

namespace RowStore.Value

mutual

def order : Value → Value → Ordering
  | int m, int n => compare m n
  | long m, long n => compare m n
  | string s, string t => compare s.string t.string
  | bytes a, bytes b => compare a.bytes b.bytes
  | row o xs, row p ys => if isCopy o xs p ys then .eq else orderAll xs ys
  | x, y => compare x.kind.rank y.kind.rank

/-- The lexicographic order of columns. -/
def orderAll : List Value → List Value → Ordering
  | [], [] => .eq
  | [], _ :: _ => .lt
  | _ :: _, [] => .gt
  | x :: xs, y :: ys => (order x y).then (orderAll xs ys)

end

end RowStore.Value
