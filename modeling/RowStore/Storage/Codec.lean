import RowStore.Storage.Basic
import RowStore.Schema.Codec

/-!
# Writing and reading the slots of a storage

The values of the first slots are written one after another, with nothing between them. Reading
fills as many slots. When it fails, the slots filled before stay filled, and the others keep what
they held.
-/

namespace RowStore.Schema

/-- Writes the values of `slots`, of which the first has the number `index`. -/
def writeSlots (schema : Schema) : (index : Nat) → (slots : Storage) → Writer Unit
  | _, [] => pure ()
  | index, none :: _ => throw (.corruption (.slotEmpty index))
  | index, some x :: slots => do
    schema.write x
    schema.writeSlots (index + 1) slots

def writeStorage (schema : Schema) (slots : Storage) (len : Nat) : Writer Unit := do
  if slots.length < len then throw (.corruption (.slotsMissing len slots.length))
  schema.writeSlots 0 (slots.take len)

/-- What reading into a storage leaves behind. -/
structure Loaded where
  outcome : Except Error Unit
  slots : Storage
  cursor : Cursor

/-- Fills slots from the first one on, until `count` are filled. -/
def readSlots (schema : Schema) : (count : Nat) → Storage → Cursor → Loaded
  | count + 1, slot :: slots, cursor =>
    match schema.read cursor with
    | .ok x cursor =>
      let loaded := schema.readSlots count slots cursor
      { loaded with slots := some x :: loaded.slots }
    | .error e cursor => ⟨.error e, slot :: slots, cursor⟩
  | _, slots, cursor => ⟨.ok (), slots, cursor⟩

def readStorage (schema : Schema) (slots : Storage) (len : Nat) (cursor : Cursor) : Loaded :=
  if slots.length < len then ⟨.error (.corruption (.slotsMissing len slots.length)), slots, cursor⟩
  else schema.readSlots len slots cursor

end RowStore.Schema
