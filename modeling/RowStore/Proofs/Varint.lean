import RowStore.Cursor
import RowStore.Proofs.Varint.Classification

/-!
# Numbers read back

A decoder that meets the encoding of a number answers that number, whatever follows it, and the
readers for words and blobs stop behind what was written.
-/

namespace RowStore

namespace Varint

theorem encode_of_lt {n : Nat} (h : n < 128) : encode n = [n.toUInt8] := by
  rw [encode, if_pos h]

theorem encode_of_le {n : Nat} (h : 128 ≤ n) :
    encode n = (n % 128 + 128).toUInt8 :: encode (n / 128) := by
  rw [encode, if_neg (by omega)]

theorem length_encode_pos (n : Nat) : 0 < (encode n).length := by
  rw [encode]
  split <;> simp

/-- One byte fewer carries seven bits fewer. -/
theorem bitLength_of_le {n : Nat} (h : 128 ≤ n) : bitLength n = bitLength (n / 128) + 7 := by
  have hDiv : n / 2 / 2 / 2 / 2 / 2 / 2 / 2 = n / 128 := by omega
  have hLog : n.log2 = (n / 128).log2 + 7 := by
    rw [Nat.log2_def, if_pos (by omega), Nat.log2_def, if_pos (by omega), Nat.log2_def,
      if_pos (by omega), Nat.log2_def, if_pos (by omega), Nat.log2_def, if_pos (by omega),
      Nat.log2_def, if_pos (by omega), Nat.log2_def, if_pos (by omega), hDiv]
  rw [bitLength, bitLength, if_neg (by omega), if_neg (by omega), hLog]

theorem bitLength_le {n bits : Nat} (hBits : 0 < bits) (h : n ≠ 0 → n.log2 < bits) :
    bitLength n ≤ bits := by
  unfold bitLength
  split
  · exact hBits
  · rename_i hNonzero
    exact h hNonzero

theorem length_encode (n : Nat) : (encode n).length = encodedLength n := by
  induction n using Nat.strongRecOn with
  | ind n ih =>
    by_cases h : n < 128
    · have hPos : 0 < bitLength n := by
        unfold bitLength
        split <;> omega
      have hBits : bitLength n ≤ 7 := by
        apply bitLength_le (by decide)
        intro hNonzero
        exact (Nat.log2_lt hNonzero).mpr h
      rw [encode_of_lt h, encodedLength, List.length_singleton]
      omega
    · have hLength := ih (n / 128) (by omega)
      have hBits := bitLength_of_le (n := n) (by omega)
      rw [encode_of_le (by omega), List.length_cons, hLength, encodedLength, encodedLength, hBits]
      omega

theorem length_encode_le {n bits : Nat} (hBits : 0 < bits) (h : n ≠ 0 → n.log2 < bits) :
    (encode n).length ≤ (bits + 6) / 7 := by
  have hLength := bitLength_le hBits h
  rw [length_encode, encodedLength]
  omega

theorem length_encode_le32 {n : Nat} (h : n < UInt32.size) : (encode n).length ≤ maxLength32 := by
  have hBits : 0 < 32 := by decide
  apply length_encode_le hBits
  intro hNonzero
  exact (Nat.log2_lt hNonzero).mpr h

theorem length_encode_le64 {n : Nat} (h : n < UInt64.size) : (encode n).length ≤ maxLength64 := by
  have hBits : 0 < 64 := by decide
  apply length_encode_le hBits
  intro hNonzero
  exact (Nat.log2_lt hNonzero).mpr h

/-- Every byte of an encoding but the last says that another one follows, and the digits add up to
the number. -/
theorem exists_encode_eq (n : Nat) : ∃ before b, encode n = before ++ [b] ∧
    (∀ a ∈ before, ¬a < 128) ∧ b < 128 ∧ exactValue (before ++ [b]) = n := by
  induction n using Nat.strongRecOn with
  | ind n ih =>
    by_cases h : n < 128
    · have hByte : n.toUInt8.toNat = n := by
        simp only [Nat.toUInt8_eq, UInt8.toNat_ofNat']
        omega
      refine ⟨[], n.toUInt8, encode_of_lt h, List.forall_mem_nil _, ?_, ?_⟩
      · rw [UInt8.lt_iff_toNat_lt, hByte]
        exact h
      · rw [List.nil_append, exactValue_singleton, hByte, Nat.mod_eq_of_lt h]
    · obtain ⟨before, b, hEncode, hMore, hLast, hValue⟩ := ih (n / 128) (by omega)
      have hByte : (n % 128 + 128).toUInt8.toNat = n % 128 + 128 := by
        simp only [Nat.toUInt8_eq, UInt8.toNat_ofNat']
        omega
      refine ⟨(n % 128 + 128).toUInt8 :: before, b, ?_, ?_, hLast, ?_⟩
      · rw [encode_of_le (by omega), hEncode, List.cons_append]
      · refine List.forall_mem_cons.mpr ⟨?_, hMore⟩
        rw [UInt8.lt_iff_toNat_lt, hByte]
        exact Nat.not_lt.mpr (Nat.le_add_left 128 _)
      · rw [List.cons_append, exactValue_cons, hByte, hValue]
        omega

theorem Decides.decode_encode {decode : Bytes → Except Error (Nat × Nat)} {limit bound n : Nat}
    (h : Decides decode limit bound) (hBound : n < bound) (hLength : (encode n).length ≤ limit)
    (rest : Bytes) : decode (encode n ++ rest) = .ok (n, (encode n).length) := by
  obtain ⟨before, b, hEncode, hMore, hLast, rfl⟩ := exists_encode_eq n
  rw [hEncode, List.length_append, List.length_singleton] at hLength ⊢
  rcases h.last before b hMore hLast hLength with ⟨-, hDecode⟩ | ⟨hOver, -⟩
  · rw [List.append_assoc, List.singleton_append, hDecode]
  · exact absurd hOver (Nat.not_le.mpr hBound)

theorem decode64_encode {n : Nat} (h : n < UInt64.size) (rest : Bytes) :
    decode64 (encode n ++ rest) = .ok (n, (encode n).length) :=
  decides_decode64.decode_encode h (length_encode_le64 h) rest

theorem decode32_encode {n : Nat} (h : n < UInt32.size) (rest : Bytes) :
    decode32 (encode n ++ rest) = .ok (n, (encode n).length) :=
  decides_decode32.decode_encode h (length_encode_le32 h) rest

end Varint

namespace Reader

theorem get_eq (cursor : Cursor) : (get : Reader Cursor) cursor = .ok cursor cursor := rfl

variable (source position : Nat) (rest : Bytes)

theorem varint64_encode (word : UInt64) :
    varint64 ⟨source, position, Varint.encode word.toNat ++ rest⟩ =
      .ok word ⟨source, position + (Varint.encode word.toNat).length, rest⟩ := by
  simp [varint64, number, bind, EStateM.bind, Varint.decode64_encode word.toNat_lt_size,
    Cursor.advance, pure, EStateM.pure]

theorem varint32_encode (word : UInt32) :
    varint32 ⟨source, position, Varint.encode word.toNat ++ rest⟩ =
      .ok word ⟨source, position + (Varint.encode word.toNat).length, rest⟩ := by
  simp [varint32, number, bind, EStateM.bind, Varint.decode32_encode word.toNat_lt_size,
    Cursor.advance, pure, EStateM.pure]

theorem take_append {data : Bytes} {count : Nat} (h : data.length = count) :
    take count ⟨source, position, data ++ rest⟩ =
      .ok ⟨data, h⟩ ⟨source, position + count, rest⟩ := by
  subst h
  simp [take, Cursor.advance]

theorem blob_encode (data : Blob) :
    blob ⟨source, position, Varint.encode data.bytes.length ++ (data.bytes ++ rest)⟩ =
      .ok data ⟨source, position + (Varint.encode data.bytes.length ++ data.bytes).length, rest⟩ := by
  have hSize := Blob.toNat_size data
  simp only [blob, bind, EStateM.bind]
  rw [← hSize, varint64_encode]
  simp only [take_append source _ rest hSize.symm]
  simp [pure, EStateM.pure, Nat.add_assoc]

end Reader

end RowStore
