/-!
# Counted comparisons

A computation that compares values, with the number of comparisons it made. Counts add up along a
computation.
-/

namespace RowStore

/-- How many comparisons were made by schemas of leaves and by schemas of rows. -/
structure Tally where
  leaf : Nat := 0
  row : Nat := 0
deriving DecidableEq

namespace Tally

def add (s t : Tally) : Tally := ⟨s.leaf + t.leaf, s.row + t.row⟩

instance : Add Tally := ⟨add⟩

@[simp] theorem leaf_add (s t : Tally) : (s + t).leaf = s.leaf + t.leaf := rfl

@[simp] theorem row_add (s t : Tally) : (s + t).row = s.row + t.row := rfl

end Tally

structure Counted (α : Type) where
  value : α
  tally : Tally

namespace Counted

instance : Monad Counted where
  pure a := ⟨a, {}⟩
  bind x f := ⟨(f x.value).value, x.tally + (f x.value).tally⟩

/-- An answer found by one comparison of a leaf schema. -/
def leaf {α : Type} (a : α) : Counted α := ⟨a, { leaf := 1 }⟩

/-- One comparison of a row schema, and those that `x` makes. -/
def row {α : Type} (x : Counted α) : Counted α := ⟨x.value, ⟨x.tally.leaf, x.tally.row + 1⟩⟩

@[simp] theorem value_pure {α : Type} (a : α) : (pure a : Counted α).value = a := rfl

@[simp] theorem tally_pure {α : Type} (a : α) : (pure a : Counted α).tally = {} := rfl

@[simp] theorem value_bind {α β : Type} (x : Counted α) (f : α → Counted β) :
    (x >>= f).value = (f x.value).value := rfl

@[simp] theorem tally_bind {α β : Type} (x : Counted α) (f : α → Counted β) :
    (x >>= f).tally = x.tally + (f x.value).tally := rfl

end Counted

end RowStore
