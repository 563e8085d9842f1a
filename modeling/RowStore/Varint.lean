import RowStore.Error

/-!
# Variable-length numbers

A number is written in base 128, the least significant digit first, one digit a byte; the high bit
of a byte says that another one follows. Numbers below 128 take one byte. `decode32` and `decode64`
set the digits in a 64-bit word, one above the other, and read at most as many bytes as the widest
number needs. They accept a number padded with zero digits, and refuse one that does not fit.
-/

namespace RowStore.Varint

def maxLength32 : Nat := 5

def maxLength64 : Nat := 10

def encode (n : Nat) : Bytes :=
  if n < 128 then [n.toUInt8] else (n % 128 + 128).toUInt8 :: encode (n / 128)

/-- The number of binary digits of `n`, at least one. -/
def bitLength (n : Nat) : Nat := if n = 0 then 1 else n.log2 + 1

/-- The length of `encode n`, without encoding: seven bits go into a byte. -/
def encodedLength (n : Nat) : Nat := (bitLength n + 6) / 7

/-- Reads a number of which `index` bytes are taken and set in `word`, seven bits of each. At most
`limit` bytes are looked at. The tenth byte has room for a single bit, behind the 63 of the others.
The answer is the word and the number of bytes it takes. -/
def scan (limit : Nat) : (index : Nat) → (word : UInt64) → Bytes → Except Error (UInt64 × Nat)
  | index, _, [] =>
    .error (if index < limit then .eof else .corruption (.varintTooLong limit))
  | index, word, b :: rest =>
    if index = limit then .error (.corruption (.varintTooLong limit))
    else
      let payload := (b &&& 127).toUInt64
      let shift := 7 * index
      if shift = 63 ∧ 1 < payload then .error (.corruption .varintOver64)
      else
        let word := word ||| payload <<< shift.toUInt64
        if b &&& 128 = 0 then .ok (word, index + 1) else scan limit (index + 1) word rest

/-- Reads a number from the front of `data`, with the number of bytes it takes. -/
def decodeWithin (limit : Nat) (data : Bytes) : Except Error (Nat × Nat) := do
  let (word, length) ← scan limit 0 0 data
  return (word.toNat, length)

/-- Reads a number of at most 64 bits from the front of `data`, with the number of bytes it takes. -/
def decode64 (data : Bytes) : Except Error (Nat × Nat) := decodeWithin maxLength64 data

/-- Reads a number of at most 32 bits from the front of `data`, with the number of bytes it takes. -/
def decode32 (data : Bytes) : Except Error (Nat × Nat) := do
  let (value, length) ← decodeWithin maxLength32 data
  if value < UInt32.size then .ok (value, length) else .error (.corruption (.varintOver32 value))

end RowStore.Varint
