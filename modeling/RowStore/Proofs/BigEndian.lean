import Mathlib.Algebra.Order.Ring.Nat
import Mathlib.Data.List.Induction
import RowStore.Cursor

/-!
# Big-endian words

Digits in base 256 and the numbers they stand for tell each other: a number that fits the width is
read again from the digits that were written, and its digits are written again from the number that
was read.
-/

namespace RowStore

variable {width n : Nat} {digits : Bytes}

theorem ofBigEndian_append_singleton (digits : Bytes) (digit : UInt8) :
    ofBigEndian (digits ++ [digit]) = 256 * ofBigEndian digits + digit.toNat := by
  simp [ofBigEndian]

theorem ofBigEndian_bigEndian (h : n < 256 ^ width) : ofBigEndian (bigEndian width n) = n := by
  induction width generalizing n with
  | zero => exact (Nat.lt_one_iff.mp h).symm
  | succ width ih =>
    have hHigh : n / 256 < 256 ^ width := by
      rw [Nat.div_lt_iff_lt_mul (by decide), ← Nat.pow_succ]
      exact h
    rw [bigEndian, ofBigEndian_append_singleton, ih hHigh, Nat.toUInt8_eq, UInt8.toNat_ofNat']
    exact Nat.div_add_mod n 256

theorem bigEndian_ofBigEndian (h : digits.length = width) :
    bigEndian width (ofBigEndian digits) = digits := by
  subst h
  induction digits using List.reverseRec with
  | nil => rfl
  | append_singleton digits digit ih =>
    have hLt := digit.toNat_lt
    have hHigh : (256 * ofBigEndian digits + digit.toNat) / 256 = ofBigEndian digits := by omega
    have hLow : (256 * ofBigEndian digits + digit.toNat).toUInt8 = digit := by
      rw [← UInt8.toNat_inj, Nat.toUInt8_eq, UInt8.toNat_ofNat']
      omega
    rw [List.length_append, List.length_singleton, ofBigEndian_append_singleton, bigEndian, hHigh,
      hLow, ih]

theorem ofBigEndian_lt (h : digits.length = width) : ofBigEndian digits < 256 ^ width := by
  subst h
  induction digits using List.reverseRec with
  | nil => exact Nat.one_pos
  | append_singleton digits digit ih =>
    have hLt := digit.toNat_lt
    rw [List.length_append, List.length_singleton, ofBigEndian_append_singleton, Nat.pow_succ]
    omega

end RowStore
