import RowStore.Page.Basic
import RowStore.Storage.Codec
import RowStore.Checksum

/-!
# The encoding of a page

The number of keys as a varint, the keys in order, and the checksum of all that as four bytes.
Decoding checks the checksum before it looks at anything else, and refuses bytes that are left over.
It does not check that the keys are in order. The checksum is a parameter, and CRC-32 by default.
-/

namespace RowStore.Page

def checksumLength : Nat := 4

def writePayload (page : Page) : Writer Unit := do
  modify (·.putVarint64 page.length.toUInt64)
  page.schema.writeStorage page.slots page.length

def encode (page : Page) (checksum : Bytes → UInt32 := Checksum.crc32) : Except Error Bytes :=
  match page.writePayload (.withCapacity page.options.bufferCapacity.toNat) with
  | .ok _ sink => .ok (sink.putWord32 (checksum sink.toList)).toList
  | .error e _ => .error e

/-- Reads the number of keys. Every key takes at least a byte. -/
def readCount : Reader Nat := do
  let count := (← Reader.varint64).toNat
  if (← get).remaining < count then throw (.corruption (.countTooLarge count))
  return count

/-- The page with the keys that `payload` lists. -/
def ofPayload (schema : Schema) (options : Options) (source : Nat) (payload : Bytes) :
    Except Error Page :=
  match readCount (.ofBytes source payload) with
  | .error e _ => .error e
  | .ok count cursor => do
    let loaded := schema.readStorage (.blank (max options.capacity.toNat count)) count cursor
    loaded.outcome
    if !loaded.cursor.isExhausted then
      throw (.corruption (.trailingBytes loaded.cursor.remaining count))
    return {
      schema
      slots := loaded.slots
      length := count
      memory := schema.totalMemory loaded.slots.values
      options }

/-- The page that `data` encodes. Its rows are built in `source`. -/
def decode (schema : Schema) (options : Options) (source : Nat) (data : Bytes)
    (checksum : Bytes → UInt32 := Checksum.crc32) : Except Error Page := do
  if data.length < checksumLength then throw (.corruption .pageTooShort)
  let payload := data.take (data.length - checksumLength)
  let stored := ofBigEndian (data.drop (data.length - checksumLength))
  if stored ≠ (checksum payload).toNat then throw (.corruption .checksumMismatch)
  ofPayload schema options source payload

def reload (page : Page) (options : Options) (source : Nat)
    (checksum : Bytes → UInt32 := Checksum.crc32) : Except Error Page := do
  decode page.schema options source (← page.encode checksum) checksum

end RowStore.Page
