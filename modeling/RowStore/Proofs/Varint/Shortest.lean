import RowStore.Proofs.Steady
import RowStore.Sink

/-!
# The shortest spelling of a number

A number has many spellings, since it may be padded with zero digits, and its encoding is the only
one that is not padded: it is the spelling of one byte, or the one whose last digit is not zero
(`SpelledBy.eq_encode_iff`). Every other spelling that a decoder accepts is longer.
-/

namespace RowStore.Varint

variable {n : Nat} {data : Bytes}

/-- Zero is spelled with zero digits. -/
theorem SpelledBy.getLast?_of_zero (h : SpelledBy n data) (hZero : n = 0) :
    data.getLast? = some 0 := by
  induction h with
  | @last b hLast =>
    rw [List.getLast?_singleton, UInt8.toNat_inj.mp (hZero.trans UInt8.toNat_zero.symm)]
  | @more b n rest hMore hRest ih =>
    have hRestZero : n = 0 := by omega
    rw [List.getLast?_cons, ih hRestZero, Option.getD_some]

/-- The one byte that spells a number is its digit. -/
theorem SpelledBy.getLast?_of_length (h : SpelledBy n data) (hn : 0 < n)
    (hLength : data.length = 1) : data.getLast? ≠ some 0 := by
  cases h with
  | @last b hLast =>
    intro hLastZero
    rw [List.getLast?_singleton, Option.some.injEq] at hLastZero
    rw [hLastZero] at hn
    exact absurd hn (by decide)
  | more hMore hRest =>
    have hPos := hRest.length_pos
    rw [List.length_cons] at hLength
    omega

/-- Only padding tells a spelling from the encoding. -/
theorem SpelledBy.eq_encode_iff (h : SpelledBy n data) :
    data = encode n ↔ data.length = 1 ∨ data.getLast? ≠ some 0 := by
  induction h with
  | last hLast => exact iff_of_true (encode_last hLast).symm (.inl rfl)
  | @more b n rest hMore hRest ih =>
    have hPos := hRest.length_pos
    have hLength : (b :: rest).length ≠ 1 := by
      rw [List.length_cons]
      omega
    rw [List.getLast?_cons_of_ne_nil (List.ne_nil_of_length_pos hPos), or_iff_right hLength]
    rcases Nat.eq_zero_or_pos n with rfl | hn
    · apply iff_of_false
      · intro hEq
        rw [hEq, Nat.mul_zero, Nat.add_zero, length_encode_digit] at hLength
        exact hLength rfl
      · rw [hRest.getLast?_of_zero rfl]
        exact fun hNe => hNe rfl
    · rw [encode_more hMore hn, List.cons_inj_right, ih]
      constructor
      · rintro (hOne | hNe)
        · exact hRest.getLast?_of_length hn hOne
        · exact hNe
      · exact .inr

/-- What `put` appends for `n`, and how `decode` takes it and other bytes that stand for `n`. -/
structure Shortest (put : Sink → Sink) (decode : Bytes → Except Error (Nat × Nat))
    (limit n : Nat) : Prop where
  appended : ∀ sink, (put sink).toList = sink.toList ++ encode n
  length_eq : (encode n).length = encodedLength n
  length_pos : 1 ≤ (encode n).length
  length_le : (encode n).length ≤ limit
  decoded : ∀ rest, decode (encode n ++ rest) = .ok (n, (encode n).length)
  unique : ∀ data, decode data = .ok (n, data.length) → data.length ≤ encodedLength n →
    data = encode n
  eq_iff : ∀ data, decode data = .ok (n, data.length) →
    (data = encode n ↔ data.length = 1 ∨ data.getLast? ≠ some 0)

theorem shortest {put : Sink → Sink} {decode : Bytes → Except Error (Nat × Nat)}
    {limit bound : Nat} (hPut : ∀ sink, (put sink).toList = sink.toList ++ encode n)
    (hLength : (encode n).length ≤ limit)
    (hDecode : ∀ rest, decode (encode n ++ rest) = .ok (n, (encode n).length))
    (hDecides : Decides decode limit bound) :
    Shortest put decode limit n where
  appended := hPut
  length_eq := length_encode n
  length_pos := length_encode_pos n
  length_le := hLength
  decoded := hDecode
  unique data hData hShort := by
    obtain ⟨hSpelled, -, -⟩ := hDecides.of_ok_length hData
    rcases hSpelled.condenses with hEq | hLonger
    · exact hEq.symm
    · rw [length_encode] at hLonger
      omega
  eq_iff data hData := (hDecides.of_ok_length hData).1.eq_encode_iff

theorem encode_shortest :
    (∀ word : UInt32, Shortest (·.putVarint32 word) decode32 maxLength32 word.toNat) ∧
    (∀ word : UInt64, Shortest (·.putVarint64 word) decode64 maxLength64 word.toNat) := by
  constructor
  · intro word
    have hLt := word.toNat_lt_size
    exact shortest (fun sink => sink.toList_putVarint32 word) (length_encode_le32 hLt)
      (decode32_encode hLt) decides_decode32
  · intro word
    have hLt := word.toNat_lt_size
    exact shortest (fun sink => sink.toList_putVarint64 word) (length_encode_le64 hLt)
      (decode64_encode hLt) decides_decode64

/-- Five with a padding byte is accepted, and is not the encoding of five. -/
theorem encode_shortest_padded :
    decode32 [133, 0] = .ok (5, 2) ∧ [133, 0] ≠ encode 5 ∧
      ∀ data, decode32 data = .ok (5, data.length) → data.length ≤ 1 → data = encode 5 := by
  have hDecode : decode32 [133, 0] = .ok (5, 2) := rfl
  have hShortest := encode_shortest.1 5
  refine ⟨hDecode, ?_, fun data hData hShort => hShortest.unique data hData hShort⟩
  intro hEq
  rcases (hShortest.eq_iff [133, 0] hDecode).mp hEq with hOne | hNe
  · cases hOne
  · exact hNe rfl

end RowStore.Varint
