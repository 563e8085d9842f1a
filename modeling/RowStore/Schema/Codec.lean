import RowStore.Schema.Basic
import RowStore.Value.Basic
import RowStore.Sink
import RowStore.Cursor

/-!
# Writing and reading values under a schema

A number is written as the varint of its two's complement bits, a text or a byte string as its
length and its bytes, a row as its number of columns and the columns in order. A row may leave out
columns at its end, and must not have more than its schema. Writing refuses a value that does not
fit the schema at the first place where it does not, and what was written before that place stays.
Reading builds each row at the place where its encoding starts.
-/

namespace RowStore.Schema

/-- Writes the number of columns of a row, which must not pass that of its schema. -/
def writeArity (arity columns : Nat) : Writer Unit := do
  if columns < arity ∨ UInt32.size ≤ arity then throw (.arityOverflow arity columns)
  modify (·.putVarint32 arity.toUInt32)

mutual

def write : Schema → Value → Writer Unit
  | .int, .int n => modify (·.putVarint32 n.toUInt32)
  | .long, .long n => modify (·.putVarint64 n.toUInt64)
  | .string, .string text => modify (·.putBlob text.encode)
  | .bytes, .bytes blob => modify (·.putBlob blob)
  | .row columns, .row _ xs => do
    writeArity xs.length columns.length
    writeColumns columns xs
  | schema, x => throw (.typeMismatch schema.kind x.kind)

def writeColumns : List Schema → List Value → Writer Unit
  | schema :: columns, x :: xs => do
    write schema x
    writeColumns columns xs
  | _, _ => pure ()

end

/-- Reads the number of columns of a row, which must not pass that of its schema. -/
def readArity (columns : Nat) : Reader Nat := do
  let arity := (← Reader.varint32).toNat
  if columns < arity then throw (.corruption (.rowTooWide arity columns))
  return arity

mutual

def read : Schema → Reader Value
  | .int => do return .int (← Reader.varint32).toInt32
  | .long => do return .long (← Reader.varint64).toInt64
  | .string => do
    match Text.ofBlob (← Reader.blob) with
    | .ok text => return .string text
    | .error cause => throw (.corruption (.notText cause))
  | .bytes => do return .bytes (← Reader.blob)
  | .row columns => do
    let start ← get
    let arity ← readArity columns.length
    return .row ⟨start.source, start.position⟩ (← readColumns columns arity)

def readColumns : List Schema → (arity : Nat) → Reader (List Value)
  | schema :: columns, arity + 1 => do
    let x ← read schema
    return x :: (← readColumns columns arity)
  | _, _ => pure []

end

end RowStore.Schema
