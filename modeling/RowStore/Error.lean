import RowStore.Kind
import RowStore.Utf8

/-!
# Errors

Every failure of the store is a value of `Error`. The causes are constructors and carry the numbers
that their texts show; the texts themselves are written in `Error.message` and the functions it
uses, and nowhere else.
-/

namespace RowStore

/-- Why bytes, or a storage, hold no valid encoding. -/
inductive Corruption where
  | varintTooLong (limit : Nat)
  | varintOver32 (value : Nat)
  | varintOver64
  | notText (cause : Utf8.Malformed)
  /-- An encoded row announces more columns than its schema has. -/
  | rowTooWide (arity columns : Nat)
  /-- More slots were asked for than the storage has. -/
  | slotsMissing (requested allocated : Nat)
  | slotEmpty (index : Nat)
  | pageTooShort
  | checksumMismatch
  /-- A page announces more keys than it has bytes for. -/
  | countTooLarge (count : Nat)
  | trailingBytes (length keys : Nat)
deriving DecidableEq

inductive Error where
  | eof
  | corruption (cause : Corruption)
  | typeMismatch (expected found : Kind)
  /-- A row has more columns than its schema can encode. -/
  | arityOverflow (arity columns : Nat)
  | pageFull (capacity : Nat)
deriving DecidableEq

def Utf8.Malformed.message : Utf8.Malformed → String
  | .incomplete start => s!"incomplete utf-8 byte sequence from index {start}"
  | .invalid length start => s!"invalid utf-8 sequence of {length} bytes from index {start}"

def Corruption.message : Corruption → String
  | .varintTooLong limit => s!"varint longer than {limit} bytes"
  | .varintOver32 value => s!"varint {value} overflows u32"
  | .varintOver64 => "varint overflows u64"
  | .notText cause => s!"invalid utf8 in string: {cause.message}"
  | .rowTooWide arity columns => s!"row arity {arity} exceeds {columns} column types"
  | .slotsMissing requested allocated => s!"{requested} slots requested, {allocated} allocated"
  | .slotEmpty index => s!"slot {index} is empty"
  | .pageTooShort => "page too short"
  | .checksumMismatch => "CRC mismatch"
  | .countTooLarge count => s!"page count {count} exceeds payload"
  | .trailingBytes length keys => s!"{length} trailing bytes after {keys} keys"

def Error.message : Error → String
  | .eof => "Unexpected end of input"
  | .corruption cause => s!"Corruption: {cause.message}"
  | .typeMismatch expected found => s!"Type mismatch: expected {expected.name}, found {found.name}"
  | .arityOverflow arity columns => s!"Row arity {arity} exceeds {columns} column types"
  | .pageFull capacity => s!"Page full ({capacity} slots)"

end RowStore
