import RowStore.Value.Content
import RowStore.Value.Encoding
import RowStore.Proofs.Varint

/-!
# Spellings

The bytes that stand for a number are not unique, since it may be padded with zero digits, and so
the bytes that stand for a value are not unique either. A value has one shortest spelling, which is
its encoding. It is never empty, and does not show where rows were built.
-/

namespace RowStore

/-- `short` is `data` itself or has fewer bytes. -/
def Condenses (short data : Bytes) : Prop := short = data ∨ short.length < data.length

namespace Condenses

variable {short data short' data' : Bytes}

theorem length_le (h : Condenses short data) : short.length ≤ data.length := by
  rcases h with rfl | h
  · exact Nat.le_refl _
  · exact Nat.le_of_lt h

theorem eq_iff (h : Condenses short data) : short = data ↔ short.length = data.length := by
  constructor
  · intro hEq
    exact congrArg List.length hEq
  · intro hLength
    rcases h with rfl | h
    · rfl
    · omega

theorem append (h : Condenses short data) (h' : Condenses short' data') :
    Condenses (short ++ short') (data ++ data') := by
  have hLength := h.length_le
  have hLength' := h'.length_le
  rcases h with rfl | h
  · rcases h' with rfl | h'
    · exact .inl rfl
    · right
      simp only [List.length_append]
      omega
  · right
    simp only [List.length_append]
    omega

end Condenses

/-- The digits of the number in base 128, with any number of zero digits behind them. Each byte but
the last says that another one follows. -/
inductive Varint.SpelledBy : Nat → Bytes → Prop where
  | last {b : UInt8} : b < 128 → SpelledBy b.toNat [b]
  | more {b : UInt8} {n : Nat} {rest : Bytes} :
    ¬b < 128 → SpelledBy n rest → SpelledBy (b.toNat % 128 + 128 * n) (b :: rest)

namespace Varint

theorem SpelledBy.length_pos {n : Nat} {data : Bytes} (h : SpelledBy n data) :
    0 < data.length := by
  cases h <;> simp

/-- The number that bytes spell is the exact sum of their digits. -/
theorem spelledBy_exactValue {before : Bytes} {b : UInt8} (hMore : ∀ a ∈ before, ¬a < 128)
    (hLast : b < 128) : SpelledBy (exactValue (before ++ [b])) (before ++ [b]) := by
  induction before with
  | nil =>
    have hDigit : b.toNat % 128 = b.toNat := Nat.mod_eq_of_lt (UInt8.lt_iff_toNat_lt.mp hLast)
    rw [List.nil_append, exactValue_singleton, hDigit]
    exact .last hLast
  | cons a before ih =>
    obtain ⟨hFirst, hRest⟩ := List.forall_mem_cons.mp hMore
    rw [List.cons_append, exactValue_cons]
    exact .more hFirst (ih hRest)

theorem encode_last {b : UInt8} (hLast : b < 128) : encode b.toNat = [b] := by
  rw [encode_of_lt (UInt8.lt_iff_toNat_lt.mp hLast), Nat.toUInt8_eq, UInt8.ofNat_toNat]

theorem encode_more {b : UInt8} {n : Nat} (hMore : ¬b < 128) (hn : 0 < n) :
    encode (b.toNat % 128 + 128 * n) = b :: encode n := by
  have hByte : 128 ≤ b.toNat := by
    rw [UInt8.lt_iff_toNat_lt] at hMore
    exact Nat.le_of_not_lt hMore
  have hLt := b.toNat_lt
  have hDigit : (b.toNat % 128 + 128 * n) % 128 + 128 = b.toNat := by omega
  have hShift : (b.toNat % 128 + 128 * n) / 128 = n := by omega
  rw [encode_of_le (by omega), hDigit, hShift, Nat.toUInt8_eq, UInt8.ofNat_toNat]

theorem length_encode_digit (b : UInt8) : (encode (b.toNat % 128)).length = 1 := by
  rw [encode_of_lt (by omega), List.length_singleton]

theorem SpelledBy.condenses {n : Nat} {data : Bytes} (h : SpelledBy n data) :
    Condenses (encode n) data := by
  induction h with
  | last hLast => exact .inl (encode_last hLast)
  | @more b n rest hMore hRest ih =>
    rcases Nat.eq_zero_or_pos n with rfl | hn
    · have hPos := hRest.length_pos
      right
      rw [Nat.mul_zero, Nat.add_zero, length_encode_digit, List.length_cons]
      omega
    · have hHead : Condenses [b] [b] := .inl rfl
      rw [encode_more hMore hn]
      exact hHead.append ih

end Varint

/-- The number of bytes, however it is spelled, and the bytes. -/
def Blob.SpelledBy (blob : Blob) (data : Bytes) : Prop :=
  ∃ count, Varint.SpelledBy blob.bytes.length count ∧ data = count ++ blob.bytes

theorem Blob.SpelledBy.condenses {blob : Blob} {data : Bytes} (h : blob.SpelledBy data) :
    Condenses blob.encoding data := by
  obtain ⟨count, hCount, rfl⟩ := h
  exact hCount.condenses.append (.inl rfl)

namespace Value

theorem length_encoding_pos (x : Value) : 0 < x.encoding.length := by
  cases x with
  | int n => exact Varint.length_encode_pos _
  | long n => exact Varint.length_encode_pos _
  | string text =>
    rw [encoding, Blob.encoding, List.length_append]
    exact Nat.add_pos_left (Varint.length_encode_pos _) _
  | bytes blob =>
    rw [encoding, Blob.encoding, List.length_append]
    exact Nat.add_pos_left (Varint.length_encode_pos _) _
  | row origin xs =>
    rw [encoding, List.length_append]
    exact Nat.add_pos_left (Varint.length_encode_pos _) _

mutual

theorem encoding_content : ∀ x : Value, x.content.encoding = x.encoding
  | int _ => rfl
  | long _ => rfl
  | string _ => rfl
  | bytes _ => rfl
  | row _ xs => by
    rw [content, encoding, encoding, encodingAll_contentAll, contentAll_eq_map, List.length_map]

theorem encodingAll_contentAll : ∀ xs : List Value, encodingAll (contentAll xs) = encodingAll xs
  | [] => rfl
  | x :: xs => by
    rw [contentAll, encodingAll, encodingAll, encoding_content, encodingAll_contentAll]

end

mutual

/-- The bytes encode the value, but for the padding that each number among them may have. -/
def SpelledBy : Value → Bytes → Prop
  | int n, data => Varint.SpelledBy n.toUInt32.toNat data
  | long n, data => Varint.SpelledBy n.toUInt64.toNat data
  | string text, data => text.encode.SpelledBy data
  | bytes blob, data => blob.SpelledBy data
  | row _ columns, data => ∃ arity rest,
    Varint.SpelledBy columns.length arity ∧ AllSpelledBy columns rest ∧ data = arity ++ rest

def AllSpelledBy : List Value → Bytes → Prop
  | [], data => data = []
  | x :: xs, data => ∃ first rest, SpelledBy x first ∧ AllSpelledBy xs rest ∧ data = first ++ rest

end

mutual

theorem SpelledBy.condenses : ∀ {x : Value} {data : Bytes}, x.SpelledBy data →
    Condenses x.encoding data
  | int n, _, h => Varint.SpelledBy.condenses h
  | long n, _, h => Varint.SpelledBy.condenses h
  | string text, _, h => Blob.SpelledBy.condenses h
  | bytes blob, _, h => Blob.SpelledBy.condenses h
  | row _ columns, _, h => by
    obtain ⟨arity, rest, hArity, hRest, rfl⟩ := h
    exact hArity.condenses.append hRest.condenses

theorem AllSpelledBy.condenses : ∀ {xs : List Value} {data : Bytes}, AllSpelledBy xs data →
    Condenses (encodingAll xs) data
  | [], _, h => .inl h.symm
  | x :: xs, _, h => by
    obtain ⟨first, rest, hFirst, hRest, rfl⟩ := h
    exact hFirst.condenses.append hRest.condenses

end

end Value

end RowStore
