import RowStore.Value.Basic

/-!
# Storage

A storage is a run of slots, each empty or holding a value.
-/

namespace RowStore

abbrev Storage := List (Option Value)

namespace Storage

/-- A storage of empty slots. -/
def blank (size : Nat) : Storage := List.replicate size none

/-- The value in a slot, when there is such a slot and it is filled. -/
def value? (slots : Storage) (index : Nat) : Option Value := slots[index]?.join

/-- The values held, in slot order. -/
def values (slots : Storage) : List Value := slots.filterMap id

end Storage

end RowStore
