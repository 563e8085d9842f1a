import RowStore.Value.Basic
import RowStore.Varint

/-!
# The encoding of a value

The bytes that stand for a value. They depend on the value alone: a schema decides whether it may be
written, not how.
-/

namespace RowStore

/-- The length of a blob, then its bytes. -/
def Blob.encoding (blob : Blob) : Bytes := Varint.encode blob.bytes.length ++ blob.bytes

namespace Value

mutual

def encoding : Value → Bytes
  | int n => Varint.encode n.toUInt32.toNat
  | long n => Varint.encode n.toUInt64.toNat
  | string text => text.encode.encoding
  | bytes blob => blob.encoding
  | row _ columns => Varint.encode columns.length ++ encodingAll columns

/-- The encodings of columns, one after another. -/
def encodingAll : List Value → Bytes
  | [] => []
  | x :: xs => encoding x ++ encodingAll xs

end

end Value

end RowStore
