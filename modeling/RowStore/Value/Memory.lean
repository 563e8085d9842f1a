import RowStore.Value.Basic

/-!
# How much memory a value takes

An estimate in bytes. A row takes what its columns take.
-/

namespace RowStore.Value

/-- What a text or a byte string takes besides its bytes. -/
def heapOverhead : Nat := 24

mutual

/-- A text is counted at two bytes for each byte of its UTF-8 form. -/
def memory : Value → Nat
  | int _ => 16
  | long _ => 24
  | string text => heapOverhead + 2 * text.string.utf8ByteSize
  | bytes blob => heapOverhead + blob.bytes.length
  | row _ columns => memoryAll columns

def memoryAll : List Value → Nat
  | [] => 0
  | x :: xs => memory x + memoryAll xs

end

end RowStore.Value
