import RowStore.Utf8.Lemmas

/-!
# Texts

A text is a string whose UTF-8 form is a blob. `ofBlob` reads that form, and `encode` writes it.
-/

namespace RowStore

structure Text where
  string : String
  size_lt : string.utf8ByteSize < UInt64.size := by decide
deriving DecidableEq

namespace Text

def encode (text : Text) : Blob where
  bytes := Utf8.encode text.string
  length_lt := by
    rw [Utf8.length_encode]
    exact text.size_lt

theorem length_encode (text : Text) : text.encode.bytes.length = text.string.utf8ByteSize :=
  Utf8.length_encode text.string

def ofBlob (blob : Blob) : Except Utf8.Malformed Text :=
  match h : Utf8.decode blob.bytes with
  | .ok string => .ok ⟨string, by
      rw [← Utf8.length_encode, Utf8.encode_of_decode h]
      exact blob.length_lt⟩
  | .error cause => .error cause

end Text

end RowStore
