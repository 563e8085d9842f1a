import RowStore.Varint

/-!
# Cursors

A cursor stands in a source of bytes. The readers below take one item each from the front of what
lies ahead. A reader that fails leaves the cursor where it stood; only `blob` has taken the length
by then, when the bytes are missing.
-/

namespace RowStore

structure Cursor where
  /-- Tells this source from others. -/
  source : Nat
  position : Nat
  rest : Bytes

/-- An action that takes bytes from a cursor and may fail. What it took before a failure stays
taken. -/
abbrev Reader := EStateM Error Cursor

namespace Cursor

def ofBytes (source : Nat) (data : Bytes) : Cursor := ⟨source, 0, data⟩

def remaining (cursor : Cursor) : Nat := cursor.rest.length

def isExhausted (cursor : Cursor) : Bool := cursor.rest.isEmpty

def advance (cursor : Cursor) (count : Nat) : Cursor :=
  { cursor with position := cursor.position + count, rest := cursor.rest.drop count }

end Cursor

namespace Reader

def take (count : Nat) : Reader { taken : Bytes // taken.length = count } := fun cursor =>
  if h : (cursor.rest.take count).length = count then
    .ok ⟨cursor.rest.take count, h⟩ (cursor.advance count)
  else .error .eof cursor

def byte : Reader UInt8 := fun cursor =>
  match cursor.rest with
  | [] => .error .eof cursor
  | b :: _ => .ok b (cursor.advance 1)

/-- Takes a word of `width` bytes. -/
def word (width : Nat) : Reader Nat := do return ofBigEndian (← take width).val

def word32 : Reader UInt32 := do return (← word 4).toUInt32

def word64 : Reader UInt64 := do return (← word 8).toUInt64

/-- Takes the number that `decode` finds at the cursor. -/
def number (decode : Bytes → Except Error (Nat × Nat)) : Reader Nat := fun cursor =>
  match decode cursor.rest with
  | .ok (value, length) => .ok value (cursor.advance length)
  | .error e => .error e cursor

def varint32 : Reader UInt32 := do return (← number Varint.decode32).toUInt32

def varint64 : Reader UInt64 := do return (← number Varint.decode64).toUInt64

/-- Takes a blob that follows its own length, written as a varint. -/
def blob : Reader Blob := do
  let size ← varint64
  let ⟨bytes, hLength⟩ ← take size.toNat
  return ⟨bytes, hLength ▸ size.toNat_lt_size⟩

end Reader

end RowStore
