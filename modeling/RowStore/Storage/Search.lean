import RowStore.Storage.Basic
import RowStore.Schema.Compare

/-!
# Binary search

A search looks for a key among the first slots of a storage. It looks first at a slot the caller
guesses, and from then on at the middle of the slots that are left. An empty slot counts as less
than every key. The slots need not be sorted: the answer is then what the slots looked at give.
-/

namespace RowStore

/-- Where a key is, or where it would have to be put. -/
inductive Position where
  | hit (index : Nat)
  | gap (index : Nat)
deriving DecidableEq

def Position.index : Position → Nat
  | hit index => index
  | gap index => index

/-- The answer of a search, and the slots it looked at, in order. -/
structure Search where
  position : Position
  probes : List Nat
deriving DecidableEq

namespace Schema

def weighSlot (schema : Schema) (key : Value) : Option Value → Counted Ordering
  | some x => schema.weigh key x
  | none => pure .gt

/-- Searches the slots from `low` on and below `high`, looking first at `probe`, which lies among them
when there are any. -/
def bisect (schema : Schema) (key : Value) (slots : Storage) (low high probe : Nat) :
    Counted Search :=
  if _h : low ≤ probe ∧ probe < high then do
    match ← schema.weighSlot key (slots.value? probe) with
    | .eq => pure ⟨.hit probe, [probe]⟩
    | .gt =>
      let found ← schema.bisect key slots (probe + 1) high (probe + 1 + (high - (probe + 1)) / 2)
      pure { found with probes := probe :: found.probes }
    | .lt =>
      let found ← schema.bisect key slots low probe (low + (probe - low) / 2)
      pure { found with probes := probe :: found.probes }
  else pure ⟨.gap low, []⟩
termination_by high - low

/-- Searches the first `len` slots, or all when there are fewer. A guess beyond them is replaced by
the middle slot. -/
def search (schema : Schema) (key : Value) (slots : Storage) (len guess : Nat) : Counted Search :=
  let len := min len slots.length
  schema.bisect key slots 0 len (if guess < len then guess else len / 2)

end Schema

end RowStore
