/-!
# Byte strings and big-endian words

`bigEndian` writes the low digits of a number in base 256 and `ofBigEndian` reads such digits. A blob
is a byte string whose length is itself a 64-bit word.
-/

namespace RowStore

abbrev Bytes := List UInt8

/-- Bytes whose number fits a 64-bit word. -/
structure Blob where
  bytes : Bytes
  length_lt : bytes.length < UInt64.size := by decide
deriving DecidableEq

def Blob.size (blob : Blob) : UInt64 := blob.bytes.length.toUInt64

@[simp] theorem Blob.toNat_size (blob : Blob) : blob.size.toNat = blob.bytes.length :=
  UInt64.toNat_ofNat_of_lt blob.length_lt

/-- The low `width` digits of `n` in base 256, the most significant first. -/
def bigEndian : (width n : Nat) → Bytes
  | 0, _ => []
  | width + 1, n => bigEndian width (n / 256) ++ [n.toUInt8]

/-- The number with these digits in base 256, the most significant first. -/
def ofBigEndian (digits : Bytes) : Nat :=
  digits.foldl (fun value digit => 256 * value + digit.toNat) 0

@[simp] theorem length_bigEndian (width n : Nat) : (bigEndian width n).length = width := by
  induction width generalizing n with
  | zero => rfl
  | succ width ih => simp [bigEndian, ih]

end RowStore
