import Mathlib.Data.List.Induction
import Mathlib.Data.Nat.Bitwise
import Mathlib.Data.Nat.Digits.Defs
import RowStore.Varint

/-!
# What a decoder answers

The first byte without its high bit ends a number. A decoder accepts the number when that byte is
among the first `limit` and the exact sum of the digits up to it is below `bound`. It asks for more
when the bytes end before, and refuses all else (`decode_classifies`).

The decoder itself knows no exact sum. It shifts the digits into a 64-bit word and refuses a tenth
byte that carries more than one bit. `scan_cons` says what it does with one byte: it refuses the
byte just when the exact sum does not fit, and else holds that sum in the word.
-/

namespace RowStore.Varint

/-- The number with the low seven bits of the bytes as digits in base 128, the least significant
first. -/
def exactValue (data : Bytes) : Nat := Nat.ofDigits 128 (data.map fun b => b.toNat % 128)

/-- The answers of a decoder that reads at most `limit` bytes and accepts numbers below `bound`. -/
structure Classifies (decode : Bytes → Except Error (Nat × Nat)) (limit bound : Nat) : Prop where
  ok_iff : ∀ data value length, decode data = .ok (value, length) ↔
    ∃ last, data.findIdx? (· < 128) = some last ∧ last < limit ∧ length = last + 1 ∧
      value = exactValue (data.take length) ∧ value < bound
  eof_iff : ∀ data, decode data = .error .eof ↔ data.length < limit ∧ ∀ b ∈ data, ¬b < 128
  refused : ∀ data e, decode data = .error e → e = .eof ∨ ∃ cause, e = .corruption cause
  /-- Bytes behind the last one of the number, or behind the first `limit`, are not looked at. -/
  settled : ∀ data rest, (∃ b ∈ data, b < 128) ∨ limit ≤ data.length →
    decode (data ++ rest) = decode data

variable {decode : Bytes → Except Error (Nat × Nat)} {limit bound : Nat} {before data : Bytes}
  {b : UInt8} {word : UInt64}

theorem exactValue_cons (b : UInt8) (data : Bytes) :
    exactValue (b :: data) = b.toNat % 128 + 128 * exactValue data := by
  rw [exactValue, List.map_cons, Nat.ofDigits_cons]
  rfl

theorem exactValue_append (before data : Bytes) :
    exactValue (before ++ data) = exactValue before + 128 ^ before.length * exactValue data := by
  rw [exactValue, List.map_append, Nat.ofDigits_append, List.length_map]
  rfl

theorem exactValue_singleton (b : UInt8) : exactValue [b] = b.toNat % 128 :=
  Nat.ofDigits_singleton

theorem exactValue_lt (data : Bytes) : exactValue data < 128 ^ data.length := by
  have hDigits : ∀ digit ∈ data.map fun b => b.toNat % 128, digit < 128 := by
    intro digit hDigit
    obtain ⟨b, -, rfl⟩ := List.mem_map.mp hDigit
    exact Nat.mod_lt _ (by decide)
  have hLt := Nat.ofDigits_lt_base_pow_length (by decide) hDigits
  rw [List.length_map] at hLt
  exact hLt

theorem exactValue_snoc (before : Bytes) (b : UInt8) :
    exactValue (before ++ [b]) = exactValue before + b.toNat % 128 * 128 ^ before.length := by
  rw [exactValue_append, exactValue_singleton, Nat.mul_comm]

/-- Nine digits have 63 bits. -/
theorem exactValue_lt_of_length (h : data.length < maxLength64) : exactValue data < 128 ^ 9 :=
  Nat.lt_of_lt_of_le (exactValue_lt data) (Nat.pow_le_pow_right (by decide) (Nat.le_of_lt_succ h))

theorem and_128_eq_zero_iff (b : UInt8) : b &&& 128 = 0 ↔ b < 128 := by
  have hLt := b.toNat_lt
  have hHigh : (b &&& 128).toNat = (b.toNat.testBit 7).toNat * 2 ^ 7 := by
    rw [UInt8.toNat_and]
    exact Nat.and_two_pow b.toNat 7
  have hBit : b.toNat.testBit 7 = decide (128 ≤ b.toNat) := by
    rw [Nat.testBit_eq_decide_div_mod_eq, decide_eq_decide]
    omega
  rw [← UInt8.toNat_inj, hHigh, hBit, UInt8.lt_iff_toNat_lt]
  by_cases h : 128 ≤ b.toNat
  · exact iff_of_false (by simp [h]) (Nat.not_lt.mpr h)
  · exact iff_of_true (by simp [h]) (Nat.lt_of_not_le h)

theorem toNat_payload (b : UInt8) : (b &&& 127).toUInt64.toNat = b.toNat % 128 := by
  rw [UInt8.toNat_toUInt64, UInt8.toNat_and]
  exact Nat.and_two_pow_sub_one_eq_mod b.toNat 7

/-- The test on the tenth byte is the test whether the exact sum fits. -/
theorem overflows_iff (b : UInt8) (hLength : before.length < maxLength64) :
    (7 * before.length = 63 ∧ 1 < (b &&& 127).toUInt64) ↔
      UInt64.size ≤ exactValue (before ++ [b]) := by
  have hTen : maxLength64 = 10 := rfl
  rcases Nat.lt_or_ge before.length 9 with hShort | hTenth
  · have hFits : exactValue (before ++ [b]) < 128 ^ 9 := by
      apply exactValue_lt_of_length
      rw [List.length_append, List.length_singleton]
      omega
    apply iff_of_false
    · omega
    · exact Nat.not_le.mpr (Nat.lt_trans hFits (by decide))
  · have hNine : before.length = 9 := by omega
    have hBefore := exactValue_lt_of_length hLength
    rw [and_iff_right (by omega), exactValue_snoc, hNine, UInt64.lt_iff_toNat_lt, toNat_payload,
      UInt64.size]
    simp only [UInt64.reduceToNat]
    omega

/-- A digit that is set above those before it is added to them. -/
theorem toNat_or_shiftLeft {place : Nat} (b : UInt8) (hPlace : place < 64)
    (hWord : word.toNat < 2 ^ place) (hFits : b.toNat % 128 * 2 ^ place < UInt64.size) :
    (word ||| (b &&& 127).toUInt64 <<< place.toUInt64).toNat =
      word.toNat + b.toNat % 128 * 2 ^ place := by
  have hShift : place.toUInt64.toNat % 64 = place := by
    rw [Nat.toUInt64_eq, UInt64.toNat_ofNat']
    omega
  rw [UInt64.toNat_or, UInt64.toNat_shiftLeft, toNat_payload, hShift, Nat.shiftLeft_eq,
    Nat.mod_eq_of_lt hFits, Nat.or_comm, Nat.mul_comm, ← Nat.two_pow_add_eq_or_of_lt hWord,
    Nat.add_comm]

theorem toNat_snoc (hLength : before.length < maxLength64) (hWord : word.toNat = exactValue before)
    (hFits : exactValue (before ++ [b]) < UInt64.size) :
    (word ||| (b &&& 127).toUInt64 <<< (7 * before.length).toUInt64).toNat =
      exactValue (before ++ [b]) := by
  have hPlace : 7 * before.length < 64 := by
    rw [maxLength64] at hLength
    omega
  have hPower : 2 ^ (7 * before.length) = 128 ^ before.length := Nat.pow_mul 2 7 before.length
  have hBelow : word.toNat < 2 ^ (7 * before.length) := by
    rw [hWord, hPower]
    exact exactValue_lt before
  rw [exactValue_snoc, ← hPower] at hFits ⊢
  rw [toNat_or_shiftLeft b hPlace hBelow (by omega), hWord]

/-- One byte is refused when the sum with its digit does not fit. Else the sum is set in the word,
and the byte ends the number or not. -/
theorem scan_cons (hLimit : limit ≤ maxLength64) (hLength : before.length < limit)
    (hWord : word.toNat = exactValue before) (b : UInt8) :
    (UInt64.size ≤ exactValue (before ++ [b]) ∧
      ∀ rest, scan limit before.length word (b :: rest) = .error (.corruption .varintOver64)) ∨
    (exactValue (before ++ [b]) < UInt64.size ∧
      ∃ next : UInt64, next.toNat = exactValue (before ++ [b]) ∧
        ∀ rest, scan limit before.length word (b :: rest) =
          if b < 128 then .ok (next, before.length + 1)
          else scan limit (before.length + 1) next rest) := by
  have hInside : before.length < maxLength64 := Nat.lt_of_lt_of_le hLength hLimit
  have hTest := overflows_iff b hInside
  rcases Nat.lt_or_ge (exactValue (before ++ [b])) UInt64.size with hFits | hOver
  · have hPassed := mt hTest.mp (Nat.not_le.mpr hFits)
    refine .inr ⟨hFits, _, toNat_snoc hInside hWord hFits, fun rest => ?_⟩
    rw [scan, if_neg (Nat.ne_of_lt hLength)]
    simp only [if_neg hPassed, and_128_eq_zero_iff]
  · refine .inl ⟨hOver, fun rest => ?_⟩
    rw [scan, if_neg (Nat.ne_of_lt hLength)]
    exact if_pos (hTest.mpr hOver)

/-- Bytes that say that another one follows are taken, and the word holds their exact sum. -/
theorem scan_append (hLimit : limit ≤ maxLength64) (hMore : ∀ b ∈ before, ¬b < 128)
    (hLength : before.length < limit) :
    ∃ word : UInt64, word.toNat = exactValue before ∧
      ∀ rest, scan limit 0 0 (before ++ rest) = scan limit before.length word rest := by
  induction before using List.reverseRec with
  | nil => exact ⟨0, rfl, fun rest => rfl⟩
  | append_singleton before b ih =>
    rw [List.length_append, List.length_singleton] at hLength
    obtain ⟨word, hWord, hScan⟩ :=
      ih (fun a ha => hMore a (List.mem_append_left [b] ha)) (by omega)
    rcases scan_cons hLimit (by omega) hWord b with ⟨hOver, -⟩ | ⟨-, next, hNext, hStep⟩
    · -- A byte that others follow is among the first nine.
      have hFits : exactValue (before ++ [b]) < 128 ^ 9 := by
        apply exactValue_lt_of_length
        rw [List.length_append, List.length_singleton]
        omega
      exact absurd hOver (Nat.not_le.mpr (Nat.lt_trans hFits (by decide)))
    · refine ⟨next, hNext, fun rest => ?_⟩
      rw [List.append_assoc, List.singleton_append, hScan, hStep, if_neg (hMore b (by simp)),
        List.length_append, List.length_singleton]

theorem scan_full (limit : Nat) (word : UInt64) (rest : Bytes) :
    scan limit limit word rest = .error (.corruption (.varintTooLong limit)) := by
  cases rest with
  | nil => rw [scan, if_neg (Nat.lt_irrefl limit)]
  | cons b rest => rw [scan, if_pos rfl]

/-- The three forms that bytes can have: a number ends within the first `limit`, or the bytes do,
or neither. -/
inductive Form (limit : Nat) : Bytes → Prop where
  | last {before : Bytes} {b : UInt8} (rest : Bytes) : (∀ a ∈ before, ¬a < 128) → b < 128 →
    before.length < limit → Form limit (before ++ b :: rest)
  | unfinished {data : Bytes} : (∀ b ∈ data, ¬b < 128) → data.length < limit → Form limit data
  | tooLong {before : Bytes} (rest : Bytes) : (∀ b ∈ before, ¬b < 128) → before.length = limit →
    Form limit (before ++ rest)

theorem Form.cons (hMore : ¬b < 128) (h : Form limit data) : Form (limit + 1) (b :: data) := by
  cases h with
  | last rest hBefore hLast hLength =>
    exact .last rest (List.forall_mem_cons.mpr ⟨hMore, hBefore⟩) hLast (by simpa using hLength)
  | unfinished hData hLength =>
    exact .unfinished (List.forall_mem_cons.mpr ⟨hMore, hData⟩) (by simpa using hLength)
  | tooLong rest hBefore hLength =>
    exact .tooLong rest (List.forall_mem_cons.mpr ⟨hMore, hBefore⟩) (by simpa using hLength)

theorem form (limit : Nat) (data : Bytes) : Form limit data := by
  induction limit generalizing data with
  | zero =>
    show Form 0 ([] ++ data)
    exact .tooLong data (List.forall_mem_nil _) rfl
  | succ limit ih =>
    cases data with
    | nil => exact .unfinished (List.forall_mem_nil _) (Nat.succ_pos limit)
    | cons b data =>
      by_cases hLast : b < 128
      · show Form (limit + 1) ([] ++ b :: data)
        exact .last data (List.forall_mem_nil _) hLast (Nat.succ_pos limit)
      · exact (ih data).cons hLast

/-- What a decoder answers to bytes of each form. -/
structure Decides (decode : Bytes → Except Error (Nat × Nat)) (limit bound : Nat) : Prop where
  last : ∀ before b, (∀ a ∈ before, ¬a < 128) → b < 128 → before.length < limit →
    (exactValue (before ++ [b]) < bound ∧ ∀ rest, decode (before ++ b :: rest) =
      .ok (exactValue (before ++ [b]), before.length + 1)) ∨
    (bound ≤ exactValue (before ++ [b]) ∧
      ∃ cause, ∀ rest, decode (before ++ b :: rest) = .error (.corruption cause))
  unfinished : ∀ data, (∀ b ∈ data, ¬b < 128) → data.length < limit → decode data = .error .eof
  tooLong : ∀ before, (∀ b ∈ before, ¬b < 128) → before.length = limit →
    ∃ cause, ∀ rest, decode (before ++ rest) = .error (.corruption cause)

theorem decides_decodeWithin (hLimit : limit ≤ maxLength64) :
    Decides (decodeWithin limit) limit UInt64.size where
  last before b hMore hLast hLength := by
    obtain ⟨word, hWord, hScan⟩ := scan_append hLimit hMore hLength
    rcases scan_cons hLimit hLength hWord b with ⟨hOver, hRefused⟩ | ⟨hFits, next, hNext, hStep⟩
    · refine .inr ⟨hOver, .varintOver64, fun rest => ?_⟩
      rw [decodeWithin, hScan, hRefused]
      rfl
    · refine .inl ⟨hFits, fun rest => ?_⟩
      rw [decodeWithin, hScan, hStep, if_pos hLast, ← hNext]
      rfl
  unfinished data hMore hLength := by
    obtain ⟨word, -, hScan⟩ := scan_append hLimit hMore hLength
    have hEnd := hScan []
    rw [List.append_nil, scan, if_pos hLength] at hEnd
    rw [decodeWithin, hEnd]
    rfl
  tooLong before hMore hLength := by
    rcases List.eq_nil_or_concat before with rfl | ⟨init, b, rfl⟩
    · rw [List.length_nil] at hLength
      subst hLength
      refine ⟨.varintTooLong 0, fun rest => ?_⟩
      rw [decodeWithin, List.nil_append, scan_full]
      rfl
    · rw [List.concat_eq_append] at hMore hLength ⊢
      rw [List.length_append, List.length_singleton] at hLength
      obtain ⟨word, hWord, hScan⟩ := scan_append hLimit
        (fun a ha => hMore a (List.mem_append_left [b] ha)) (by omega : init.length < limit)
      rcases scan_cons hLimit (by omega) hWord b with ⟨-, hRefused⟩ | ⟨-, next, -, hStep⟩
      · refine ⟨.varintOver64, fun rest => ?_⟩
        rw [decodeWithin, List.append_assoc, List.singleton_append, hScan, hRefused]
        rfl
      · refine ⟨.varintTooLong limit, fun rest => ?_⟩
        rw [decodeWithin, List.append_assoc, List.singleton_append, hScan, hStep,
          if_neg (hMore b (by simp)), hLength, scan_full]
        rfl

/-- A decoder that refuses more of the numbers. -/
theorem Decides.narrow (h : Decides decode limit UInt64.size) (hBound : bound ≤ UInt64.size)
    (cause : Nat → Corruption) :
    Decides (fun data => do
      let (value, length) ← decode data
      if value < bound then .ok (value, length) else .error (.corruption (cause value)))
      limit bound where
  last before b hMore hLast hLength := by
    rcases h.last before b hMore hLast hLength with ⟨-, hDecode⟩ | ⟨hWide, reason, hRefused⟩
    · rcases Nat.lt_or_ge (exactValue (before ++ [b])) bound with hFits | hOver
      · refine .inl ⟨hFits, fun rest => ?_⟩
        rw [hDecode]
        exact if_pos hFits
      · refine .inr ⟨hOver, cause (exactValue (before ++ [b])), fun rest => ?_⟩
        rw [hDecode]
        exact if_neg (Nat.not_lt.mpr hOver)
    · refine .inr ⟨Nat.le_trans hBound hWide, reason, fun rest => ?_⟩
      rw [hRefused]
      rfl
  unfinished data hMore hLength := by
    rw [h.unfinished data hMore hLength]
    rfl
  tooLong before hMore hLength := by
    obtain ⟨reason, hRefused⟩ := h.tooLong before hMore hLength
    refine ⟨reason, fun rest => ?_⟩
    rw [hRefused]
    rfl

theorem decides_decode64 : Decides decode64 maxLength64 UInt64.size :=
  decides_decodeWithin (Nat.le_refl _)

theorem decides_decode32 : Decides decode32 maxLength32 UInt32.size :=
  (decides_decodeWithin (by decide)).narrow (by decide) .varintOver32

theorem findIdx?_eq_none (hMore : ∀ b ∈ data, ¬b < 128) : data.findIdx? (· < 128) = none := by
  rw [List.findIdx?_eq_none_iff]
  intro b hb
  exact decide_eq_false (hMore b hb)

theorem findIdx?_last (hMore : ∀ a ∈ before, ¬a < 128) (hLast : b < 128) (rest : Bytes) :
    (before ++ b :: rest).findIdx? (· < 128) = some before.length := by
  rw [List.findIdx?_append, findIdx?_eq_none hMore, List.findIdx?_cons, decide_eq_true hLast]
  simp

theorem le_of_findIdx? {last : Nat} (hMore : ∀ a ∈ before, ¬a < 128) {rest : Bytes}
    (h : (before ++ rest).findIdx? (· < 128) = some last) : before.length ≤ last := by
  rw [List.findIdx?_append, findIdx?_eq_none hMore, Option.none_or, Option.map_eq_some_iff] at h
  obtain ⟨index, -, rfl⟩ := h
  exact Nat.le_add_left _ _

theorem take_last (before rest : Bytes) (b : UInt8) :
    (before ++ b :: rest).take (before.length + 1) = before ++ [b] := by
  rw [List.take_append, List.take_of_length_le (Nat.le_add_right _ _), Nat.add_sub_cancel_left]
  rfl

theorem Decides.ok_iff (h : Decides decode limit bound) (data : Bytes) (value length : Nat) :
    decode data = .ok (value, length) ↔
      ∃ last, data.findIdx? (· < 128) = some last ∧ last < limit ∧ length = last + 1 ∧
        value = exactValue (data.take length) ∧ value < bound := by
  cases form limit data with
  | @last before b rest hMore hLast hLength =>
    rw [findIdx?_last hMore hLast]
    rcases h.last before b hMore hLast hLength with ⟨hFits, hDecode⟩ | ⟨hOver, cause, hRefused⟩
    · rw [hDecode, Except.ok.injEq, Prod.mk.injEq]
      constructor
      · rintro ⟨rfl, rfl⟩
        exact ⟨before.length, rfl, hLength, rfl, by rw [take_last], hFits⟩
      · rintro ⟨last, hIndex, -, rfl, rfl, -⟩
        cases hIndex
        rw [take_last]
        exact ⟨rfl, rfl⟩
    · rw [hRefused]
      apply iff_of_false nofun
      rintro ⟨last, hIndex, -, rfl, rfl, hValue⟩
      cases hIndex
      rw [take_last] at hValue
      exact absurd hOver (Nat.not_le.mpr hValue)
  | unfinished hMore hLength =>
    rw [h.unfinished data hMore hLength, findIdx?_eq_none hMore]
    apply iff_of_false nofun
    rintro ⟨last, ⟨⟩, -⟩
  | @tooLong before rest hMore hLength =>
    obtain ⟨cause, hRefused⟩ := h.tooLong before hMore hLength
    rw [hRefused]
    apply iff_of_false nofun
    rintro ⟨last, hIndex, hLast, -⟩
    have hBehind := le_of_findIdx? hMore hIndex
    omega

theorem Decides.eof_iff (h : Decides decode limit bound) (data : Bytes) :
    decode data = .error .eof ↔ data.length < limit ∧ ∀ b ∈ data, ¬b < 128 := by
  cases form limit data with
  | @last before b rest hMore hLast hLength =>
    have hEnds : ¬∀ a ∈ before ++ b :: rest, ¬a < 128 := fun hAll => hAll b (by simp) hLast
    rcases h.last before b hMore hLast hLength with ⟨-, hDecode⟩ | ⟨-, cause, hRefused⟩
    · rw [hDecode]
      exact iff_of_false nofun fun hData => hEnds hData.2
    · rw [hRefused]
      exact iff_of_false nofun fun hData => hEnds hData.2
  | unfinished hMore hLength => exact iff_of_true (h.unfinished data hMore hLength) ⟨hLength, hMore⟩
  | @tooLong before rest hMore hLength =>
    obtain ⟨cause, hRefused⟩ := h.tooLong before hMore hLength
    rw [hRefused]
    apply iff_of_false nofun
    rintro ⟨hShort, -⟩
    rw [List.length_append] at hShort
    omega

theorem Decides.refused (h : Decides decode limit bound) (data : Bytes) {e : Error}
    (hError : decode data = .error e) : e = .eof ∨ ∃ cause, e = .corruption cause := by
  cases form limit data with
  | @last before b rest hMore hLast hLength =>
    rcases h.last before b hMore hLast hLength with ⟨-, hDecode⟩ | ⟨-, cause, hRefused⟩
    · rw [hDecode] at hError
      cases hError
    · rw [hRefused] at hError
      cases hError
      exact .inr ⟨cause, rfl⟩
  | unfinished hMore hLength =>
    rw [h.unfinished data hMore hLength] at hError
    cases hError
    exact .inl rfl
  | @tooLong before rest hMore hLength =>
    obtain ⟨cause, hRefused⟩ := h.tooLong before hMore hLength
    rw [hRefused] at hError
    cases hError
    exact .inr ⟨cause, rfl⟩

theorem Decides.settled (h : Decides decode limit bound) (data rest : Bytes)
    (hData : (∃ b ∈ data, b < 128) ∨ limit ≤ data.length) :
    decode (data ++ rest) = decode data := by
  cases form limit data with
  | @last before b behind hMore hLast hLength =>
    rw [List.append_assoc, List.cons_append]
    rcases h.last before b hMore hLast hLength with ⟨-, hDecode⟩ | ⟨-, cause, hRefused⟩
    · rw [hDecode, hDecode]
    · rw [hRefused, hRefused]
  | unfinished hMore hLength =>
    rcases hData with ⟨b, hb, hLast⟩ | hLong
    · exact absurd hLast (hMore b hb)
    · exact absurd hLength (Nat.not_lt.mpr hLong)
  | @tooLong before behind hMore hLength =>
    obtain ⟨cause, hRefused⟩ := h.tooLong before hMore hLength
    rw [List.append_assoc, hRefused, hRefused]

theorem Decides.classifies (h : Decides decode limit bound) : Classifies decode limit bound where
  ok_iff := h.ok_iff
  eof_iff := h.eof_iff
  refused data _ := h.refused data
  settled := h.settled

/-- A word that is answered holds the exact sum, so that no bit was lost in it. -/
theorem decode_classifies : Classifies decode32 maxLength32 UInt32.size ∧
    Classifies decode64 maxLength64 UInt64.size ∧
    ∀ limit ≤ maxLength64, ∀ data word length, scan limit 0 0 data = .ok (word, length) →
      word.toNat = exactValue (data.take length) := by
  refine ⟨decides_decode32.classifies, decides_decode64.classifies, ?_⟩
  intro limit hLimit data word length hScan
  have hDecode : decodeWithin limit data = .ok (word.toNat, length) := by
    rw [decodeWithin, hScan]
    rfl
  obtain ⟨last, -, -, -, hValue, -⟩ := ((decides_decodeWithin hLimit).ok_iff _ _ _).mp hDecode
  exact hValue

/-- The tenth byte of a number has room for one bit. -/
theorem decode_classifies_tenth_byte :
    decode64 [255, 255, 255, 255, 255, 255, 255, 255, 255, 1, 7] =
      .ok (18446744073709551615, 10) ∧
    (18446744073709551615 : UInt64).toNat =
      exactValue [255, 255, 255, 255, 255, 255, 255, 255, 255, 1] ∧
    ∃ cause, decode64 [255, 255, 255, 255, 255, 255, 255, 255, 255, 2, 7] =
      .error (.corruption cause) := by
  obtain ⟨-, hClassifies, hExact⟩ := decode_classifies
  refine ⟨?_, hExact maxLength64 (Nat.le_refl _)
    [255, 255, 255, 255, 255, 255, 255, 255, 255, 1, 7] _ 10 (by decide +kernel), ?_⟩
  · refine (hClassifies.ok_iff _ _ _).mpr ⟨9, rfl, by decide, rfl, ?_, by decide⟩
    decide +kernel
  · cases hDecode : decode64 [255, 255, 255, 255, 255, 255, 255, 255, 255, 2, 7] with
    | ok answer =>
      obtain ⟨last, hIndex, -, hLength, hValue, hBound⟩ :=
        (hClassifies.ok_iff _ answer.1 answer.2).mp hDecode
      cases hIndex
      rw [hValue, hLength] at hBound
      exact absurd hBound (by decide +kernel)
    | error e =>
      rcases hClassifies.refused _ _ hDecode with rfl | ⟨cause, rfl⟩
      · have hShort := ((hClassifies.eof_iff _).mp hDecode).1
        exact absurd hShort (by decide)
      · exact ⟨cause, rfl⟩

end RowStore.Varint
