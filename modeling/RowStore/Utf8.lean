import RowStore.Bytes

/-!
# UTF-8 text

`encode` lays a text out as the UTF-8 forms of its characters. `decode` reads bytes one at a time:
a lead byte fixes how many bytes follow it and the range of the first of them, so that overlong
forms, surrogates and code points above U+10FFFF are refused at the earliest byte that rules them
out. A refusal says where the longest readable beginning ends, and whether more bytes could help.
-/

namespace RowStore.Utf8

/-- Why bytes are no text. In both cases `start` is the length of the longest beginning that is
text and ends between characters. -/
inductive Malformed where
  /-- The bytes end inside a character that further bytes could complete. -/
  | incomplete (start : Nat)
  /-- The `length` bytes at `start` begin a character that the next byte cannot continue, or the
  one byte there begins none. -/
  | invalid (length start : Nat)
deriving DecidableEq

/-- What a lead byte announces: the range of the byte after it, the number of bytes after that one,
and its own bits of the code point. -/
structure Lead where
  low : UInt8
  high : UInt8
  further : Nat
  bits : Nat

/-- The lead bytes of characters beyond ASCII. The second byte's range is narrowed after E0 and F0
to refuse overlong forms, after ED to refuse surrogates, and after F4 to stay within U+10FFFF. -/
def lead? (b : UInt8) : Option Lead :=
  if 0xC2 ≤ b ∧ b ≤ 0xDF then some ⟨0x80, 0xBF, 0, b.toNat - 0xC0⟩
  else if b = 0xE0 then some ⟨0xA0, 0xBF, 1, 0⟩
  else if b = 0xED then some ⟨0x80, 0x9F, 1, 0xD⟩
  else if 0xE1 ≤ b ∧ b ≤ 0xEF then some ⟨0x80, 0xBF, 1, b.toNat - 0xE0⟩
  else if b = 0xF0 then some ⟨0x90, 0xBF, 2, 0⟩
  else if 0xF1 ≤ b ∧ b ≤ 0xF3 then some ⟨0x80, 0xBF, 2, b.toNat - 0xF0⟩
  else if b = 0xF4 then some ⟨0x80, 0x8F, 2, 4⟩
  else none

inductive State where
  | boundary
  /-- Inside a character of which `seen` bytes were read: the next byte must lie between `low` and
  `high`, `further` more follow it, and `bits` are the code point's bits so far. -/
  | within (seen : Nat) (low high : UInt8) (further bits : Nat)

/-- The characters of `data`, read from a state inside or between characters. The character at hand
began, or the next one begins, at index `start`. -/
def scan : State → (start : Nat) → (data : Bytes) → Except Malformed (List Char)
  | .boundary, _, [] => .ok []
  | .boundary, start, b :: rest =>
    if b < 0x80 then (scan .boundary (start + 1) rest).map (Char.ofNat b.toNat :: ·)
    else match lead? b with
      | none => .error (.invalid 1 start)
      | some lead => scan (.within 1 lead.low lead.high lead.further lead.bits) start rest
  | .within _ _ _ _ _, start, [] => .error (.incomplete start)
  | .within seen low high further bits, start, b :: rest =>
    if low ≤ b ∧ b ≤ high then
      let bits := 64 * bits + b.toNat % 64
      match further with
      | 0 => (scan .boundary (start + seen + 1) rest).map (Char.ofNat bits :: ·)
      | further + 1 => scan (.within (seen + 1) 0x80 0xBF further bits) start rest
    else .error (.invalid seen start)

def encode (s : String) : Bytes := s.toList.flatMap String.utf8EncodeChar

def decode (data : Bytes) : Except Malformed String := (scan .boundary 0 data).map String.ofList

theorem length_encode (s : String) : (encode s).length = s.utf8ByteSize := by
  obtain ⟨l, rfl⟩ : ∃ l, s = String.ofList l := ⟨s.toList, String.ofList_toList.symm⟩
  simp [encode, String.utf8ByteSize, List.utf8Encode]

end RowStore.Utf8
