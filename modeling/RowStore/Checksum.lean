import RowStore.Bytes

/-!
# Checksums

The 32-bit cyclic redundancy check with the reflected polynomial `0xEDB88320`, a register that
starts with all bits set, and a final complement.
-/

namespace RowStore.Checksum

def polynomial : UInt32 := 0xEDB88320

/-- One division step: the register moves down by a bit, and the polynomial is subtracted when the
bit that fell out was set. -/
def shift (register : UInt32) : UInt32 :=
  if register &&& 1 = 1 then (register >>> 1) ^^^ polynomial else register >>> 1

/-- Takes the eight bits of a byte into the register. -/
def absorb (register : UInt32) (b : UInt8) : UInt32 :=
  Nat.repeat shift 8 (register ^^^ b.toUInt32)

def crc32 (data : Bytes) : UInt32 := data.foldl absorb 0xFFFFFFFF ^^^ 0xFFFFFFFF

/-- The check value of this code, for the nine digits `1` to `9`. -/
example : crc32 [0x31, 0x32, 0x33, 0x34, 0x35, 0x36, 0x37, 0x38, 0x39] = 0xCBF43926 := by
  decide +kernel

end RowStore.Checksum
