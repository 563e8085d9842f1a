import RowStore.Schema.Codec

/-!
# Scripts

A script is a sequence of things to append to a sink, of any kinds and in any order. To each of them
belongs the request that takes it from a cursor again. Running a script, and running its requests,
keeps a record of where the sink ended and where the cursor stood after every single step.
-/

namespace RowStore.Script

/-- One thing to append. -/
inductive Item where
  | piece (part : Sink.Piece)
  | value (schema : Schema) (x : Value)

/-- One thing to take. Bytes do not tell how many they are. -/
inductive Request where
  | byte
  | word32
  | word64
  | varint32
  | varint64
  | bytes (count : Nat)
  | value (schema : Schema)

def Item.put : Item → Writer Unit
  | piece part => modify part.put
  | value schema x => schema.write x

/-- The request that takes the item again. -/
def Item.request : Item → Request
  | piece (.byte _) => .byte
  | piece (.word32 _) => .word32
  | piece (.word64 _) => .word64
  | piece (.varint32 _) => .varint32
  | piece (.varint64 _) => .varint64
  | piece (.bytes data) => .bytes data.length
  | value schema _ => .value schema

def Request.take : Request → Reader Item
  | byte => do return .piece (.byte (← Reader.byte))
  | word32 => do return .piece (.word32 (← Reader.word32))
  | word64 => do return .piece (.word64 (← Reader.word64))
  | varint32 => do return .piece (.varint32 (← Reader.varint32))
  | varint64 => do return .piece (.varint64 (← Reader.varint64))
  | bytes count => do return .piece (.bytes (← Reader.take count).val)
  | value schema => do return .value schema (← schema.read)

/-- Appends all items, and answers with the size of the sink after each. -/
def putAll : List Item → Writer (List Nat)
  | [] => pure []
  | item :: items => do
    item.put
    let size := (← get).size
    return size :: (← putAll items)

/-- What a request took, and where the cursor stood then. -/
structure Taken where
  item : Item
  position : Nat

def takeAll : List Request → Reader (List Taken)
  | [] => pure []
  | request :: requests => do
    let item ← request.take
    let position := (← get).position
    return ⟨item, position⟩ :: (← takeAll requests)

end RowStore.Script
