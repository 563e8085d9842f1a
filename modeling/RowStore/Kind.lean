/-!
# Kinds of value

The five kinds of value a column can hold, the names under which messages speak of them, and the
rank by which values of different kinds are ordered.
-/

namespace RowStore

inductive Kind where
  | int
  | long
  | string
  | bytes
  | row
deriving DecidableEq

namespace Kind

def name : Kind → String
  | int => "int"
  | long => "long"
  | string => "string"
  | bytes => "bytes"
  | row => "row"

/-- Values of different kinds are ordered by rank alone. -/
def rank : Kind → Nat
  | int => 0
  | long => 1
  | string => 2
  | bytes => 3
  | row => 4

theorem rank_inj {k l : Kind} : k.rank = l.rank ↔ k = l := by
  cases k <;> cases l <;> decide

end Kind

end RowStore
