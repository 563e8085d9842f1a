import Mathlib.Algebra.GroupWithZero.Nat
import RowStore.Checksum

/-!
# What the checksum detects

The register is linear over exclusive or, and no step of it forgets anything. Four bytes at most
enter it side by side before its first step matters, so that they can be told from it afterwards.
A change within four neighbouring bytes therefore always shows in the checksum
(`eq_of_crc32_eq`).
-/

namespace RowStore.Checksum

/-- What a step subtracts from the register. -/
def remainder (register : UInt32) : UInt32 := if register.toNat % 2 = 1 then polynomial else 0

theorem and_one_eq_one_iff {register : UInt32} : register &&& 1 = 1 ↔ register.toNat % 2 = 1 := by
  have hLow : (register &&& 1).toNat = register.toNat % 2 := by
    rw [UInt32.toNat_and]
    exact Nat.and_one_is_mod _
  rw [← UInt32.toNat_inj, hLow]
  rfl

theorem shift_eq (register : UInt32) :
    shift register = (register >>> 1) ^^^ remainder register := by
  unfold shift remainder
  simp only [and_one_eq_one_iff]
  split
  · rfl
  · rw [UInt32.xor_zero]

theorem remainder_xor (x y : UInt32) : remainder (x ^^^ y) = remainder x ^^^ remainder y := by
  have hLow : decide ((x ^^^ y).toNat % 2 = 1) =
      (decide (x.toNat % 2 = 1) ^^ decide (y.toNat % 2 = 1)) := by
    rw [UInt32.toNat_xor, ← Nat.testBit_zero, ← Nat.testBit_zero, ← Nat.testBit_zero]
    exact Nat.testBit_xor ..
  unfold remainder
  by_cases hx : x.toNat % 2 = 1 <;> by_cases hy : y.toNat % 2 = 1 <;> simp_all

theorem shift_xor (x y : UInt32) : shift (x ^^^ y) = shift x ^^^ shift y := by
  rw [shift_eq, shift_eq x, shift_eq y, UInt32.shiftRight_xor, remainder_xor]
  ac_rfl

theorem toNat_shiftRight_one (register : UInt32) :
    (register >>> 1).toNat = register.toNat / 2 := by
  rw [UInt32.toNat_shiftRight]
  rfl

/-- The highest bit tells whether the polynomial was subtracted, so that nothing is forgotten. -/
theorem eq_zero_of_shift_eq_zero {register : UInt32} (h : shift register = 0) : register = 0 := by
  rw [shift_eq, UInt32.xor_eq_zero_iff, ← UInt32.toNat_inj, toNat_shiftRight_one] at h
  have hLt := register.toNat_lt
  unfold remainder at h
  split at h
  · have hPolynomial : polynomial.toNat = 3988292384 := rfl
    omega
  · rw [UInt32.toNat_zero] at h
    rw [← UInt32.toNat_inj, UInt32.toNat_zero]
    omega

theorem shift_injective {x y : UInt32} (h : shift x = shift y) : x = y := by
  rw [← UInt32.xor_eq_zero_iff] at h ⊢
  rw [← shift_xor] at h
  exact eq_zero_of_shift_eq_zero h

theorem repeat_shift_xor (count : Nat) (x y : UInt32) :
    Nat.repeat shift count (x ^^^ y) = Nat.repeat shift count x ^^^ Nat.repeat shift count y := by
  induction count with
  | zero => rfl
  | succ count ih => rw [Nat.repeat, Nat.repeat, Nat.repeat, ih, shift_xor]

theorem repeat_shift_injective (count : Nat) {x y : UInt32}
    (h : Nat.repeat shift count x = Nat.repeat shift count y) : x = y := by
  induction count with
  | zero => exact h
  | succ count ih => exact ih (shift_injective h)

theorem repeat_shift_add (first count : Nat) (register : UInt32) :
    Nat.repeat shift (first + count) register =
      Nat.repeat shift count (Nat.repeat shift first register) := by
  induction count with
  | zero => rfl
  | succ count ih => rw [← Nat.add_assoc, Nat.repeat, Nat.repeat, ih]

theorem toNat_repeat_shift (count : Nat) {register : UInt32} (h : 2 ^ count ∣ register.toNat) :
    (Nat.repeat shift count register).toNat = register.toNat / 2 ^ count := by
  induction count with
  | zero => rw [Nat.repeat, Nat.pow_zero, Nat.div_one]
  | succ count ih =>
    have hRest := ih (Nat.dvd_trans (Nat.pow_dvd_pow 2 (Nat.le_succ count)) h)
    have hEven : (Nat.repeat shift count register).toNat % 2 = 0 := by
      obtain ⟨n, hn⟩ := h
      rw [hRest, hn, Nat.pow_succ, Nat.mul_assoc, Nat.mul_div_cancel_left _ (Nat.two_pow_pos count)]
      exact Nat.mul_mod_right 2 n
    rw [Nat.repeat, shift_eq, remainder, if_neg (by omega), UInt32.xor_zero, toNat_shiftRight_one,
      hRest, Nat.div_div_eq_div_mul, Nat.pow_succ]

theorem absorb_injective {x y : UInt32} {b : UInt8} (h : absorb x b = absorb y b) : x = y :=
  (UInt32.xor_left_inj _).mp (repeat_shift_injective 8 h)

theorem foldl_absorb_injective {x y : UInt32} {data : Bytes}
    (h : data.foldl absorb x = data.foldl absorb y) : x = y := by
  induction data generalizing x y with
  | nil => exact h
  | cons b data ih => exact absorb_injective (ih h)

/-- The bytes side by side, the first one lowest. -/
def word : Bytes → UInt32
  | [] => 0
  | b :: rest => b.toUInt32 ^^^ (word rest <<< 8)

theorem toNat_shiftLeft_eight {x : UInt32} (h : x.toNat < 2 ^ 24) :
    (x <<< 8).toNat = 2 ^ 8 * x.toNat := by
  have hFits : 2 ^ 8 * x.toNat < 2 ^ 32 := by omega
  rw [UInt32.toNat_shiftLeft, Nat.shiftLeft_eq, Nat.mul_comm]
  exact Nat.mod_eq_of_lt hFits

theorem toNat_shiftRight_eight (x : UInt32) : (x >>> 8).toNat = x.toNat / 2 ^ 8 := by
  rw [UInt32.toNat_shiftRight]
  exact Nat.shiftRight_eq_div_pow ..

theorem shiftRight_shiftLeft_eight {x : UInt32} (h : x.toNat < 2 ^ 24) : x <<< 8 >>> 8 = x := by
  rw [← UInt32.toNat_inj, toNat_shiftRight_eight, toNat_shiftLeft_eight h,
    Nat.mul_div_cancel_left _ (Nat.two_pow_pos 8)]

theorem repeat_shift_shiftLeft_eight {x : UInt32} (h : x.toNat < 2 ^ 24) :
    Nat.repeat shift 8 (x <<< 8) = x := by
  have hLeft := toNat_shiftLeft_eight h
  rw [← UInt32.toNat_inj, toNat_repeat_shift 8 ⟨x.toNat, hLeft⟩, hLeft,
    Nat.mul_div_cancel_left _ (Nat.two_pow_pos 8)]

theorem toNat_word_lt {data : Bytes} (h : data.length ≤ 4) :
    (word data).toNat < 2 ^ (8 * data.length) := by
  induction data with
  | nil => decide
  | cons b data ih =>
    rw [List.length_cons] at h ⊢
    have hRest := ih (by omega)
    have hRoom : 2 ^ (8 * data.length) ≤ 2 ^ 24 := Nat.pow_le_pow_right (by decide) (by omega)
    have hSplit : 2 ^ (8 * (data.length + 1)) = 2 ^ 8 * 2 ^ (8 * data.length) := by
      rw [← Nat.pow_add, Nat.mul_succ, Nat.add_comm]
    rw [word, UInt32.toNat_xor, toNat_shiftLeft_eight (by omega), UInt8.toNat_toUInt32]
    apply Nat.xor_lt_two_pow
    · have hByte := b.toNat_lt
      have hPos := Nat.two_pow_pos (8 * data.length)
      omega
    · omega

theorem toNat_word_lt_of_lt {data : Bytes} (h : data.length < 4) :
    (word data).toNat < 2 ^ 24 :=
  Nat.lt_of_lt_of_le (toNat_word_lt (Nat.le_of_lt h)) (Nat.pow_le_pow_right (by decide) (by omega))

theorem word_injective {data data' : Bytes} (hLength : data'.length = data.length)
    (hShort : data.length ≤ 4) (h : word data = word data') : data = data' := by
  induction data generalizing data' with
  | nil => exact (List.length_eq_zero_iff.mp hLength).symm
  | cons b data ih =>
    cases data' with
    | nil => cases hLength
    | cons b' data' =>
      rw [List.length_cons] at hLength hShort
      rw [List.length_cons, Nat.add_right_cancel_iff] at hLength
      have hData : (word data).toNat < 2 ^ 24 := toNat_word_lt_of_lt (by omega)
      have hData' : (word data').toNat < 2 ^ 24 := toNat_word_lt_of_lt (by omega)
      have hByte (c : UInt8) : c.toUInt32 >>> 8 = 0 := by
        have hLt := c.toNat_lt
        rw [← UInt32.toNat_inj, toNat_shiftRight_eight, UInt8.toNat_toUInt32, Nat.div_eq_of_lt hLt]
        rfl
      have hHigh := congrArg (fun x : UInt32 => x >>> 8) h
      simp only [word, UInt32.shiftRight_xor, hByte, UInt32.zero_xor,
        shiftRight_shiftLeft_eight hData, shiftRight_shiftLeft_eight hData'] at hHigh
      rw [word, word, hHigh, UInt32.xor_left_inj, UInt8.toUInt32_inj] at h
      rw [h, ih hLength (by omega) hHigh]

theorem foldl_absorb (register : UInt32) {data : Bytes} (h : data.length ≤ 4) :
    data.foldl absorb register = Nat.repeat shift (8 * data.length) (register ^^^ word data) := by
  induction data generalizing register with
  | nil => exact (UInt32.xor_zero).symm
  | cons b data ih =>
    rw [List.length_cons] at h
    have hRest : (word data).toNat < 2 ^ 24 := toNat_word_lt_of_lt (by omega)
    have hWord := repeat_shift_shiftLeft_eight hRest
    have hAbsorb : absorb register b ^^^ word data =
        Nat.repeat shift 8 (register ^^^ word (b :: data)) := by
      rw [word, ← UInt32.xor_assoc, repeat_shift_xor, hWord, absorb]
    rw [List.foldl_cons, ih _ (by omega), hAbsorb, ← repeat_shift_add, List.length_cons,
      Nat.mul_succ, Nat.add_comm]

/-- The checksum tells apart what replaces at most four bytes in a row. -/
theorem eq_of_crc32_eq {before burst burst' after : Bytes} (hLength : burst'.length = burst.length)
    (hShort : burst.length ≤ 4)
    (h : crc32 (before ++ burst ++ after) = crc32 (before ++ burst' ++ after)) :
    burst = burst' := by
  rw [crc32, crc32, UInt32.xor_left_inj, List.foldl_append, List.foldl_append, List.foldl_append,
    List.foldl_append] at h
  have hBurst := foldl_absorb_injective h
  have hShort' : burst'.length ≤ 4 := hLength ▸ hShort
  rw [foldl_absorb _ hShort, foldl_absorb _ hShort', hLength] at hBurst
  have hWord := (UInt32.xor_right_inj _).mp (repeat_shift_injective _ hBurst)
  exact word_injective hLength hShort hWord

end RowStore.Checksum
