import RowStore.Text

/-!
# Texts read back

Every text is read back from its encoding. With `encode_of_decode`, the bytes that decode to a text
are its encoding and no others.
-/

namespace RowStore

namespace Utf8

theorem exists_lead {b : UInt8} (h : 0xC2 ≤ b.toNat ∧ b.toNat ≤ 0xF4) :
    ∃ lead, lead? b = some lead := by
  cases hLead : lead? b with
  | some lead => exact ⟨lead, rfl⟩
  | none =>
    simp only [lead?, UInt8.le_iff_toNat_le, ← UInt8.toNat_inj, UInt8.reduceToNat] at hLead
    grind

theorem scan_lead {b : UInt8} {lead : Lead} (h : lead? b = some lead) (start : Nat) (rest : Bytes) :
    scan .boundary start (b :: rest) =
      scan (.within 1 lead.low lead.high lead.further lead.bits) start rest := by
  have hNotAscii : ¬b < 0x80 := by
    rw [UInt8.lt_iff_toNat_lt]
    rcases lead?_eq_some h with hLead | hLead | hLead <;> simp <;> omega
  rw [scan, if_neg hNotAscii, h]

theorem scan_last {low high b : UInt8} (h : low ≤ b ∧ b ≤ high) (seen bits start : Nat)
    (rest : Bytes) :
    scan (.within seen low high 0 bits) start (b :: rest) =
      (scan .boundary (start + seen + 1) rest).map (Char.ofNat (64 * bits + b.toNat % 64) :: ·) := by
  rw [scan, if_pos h]

theorem scan_inner {low high b : UInt8} (h : low ≤ b ∧ b ≤ high) (seen further bits start : Nat)
    (rest : Bytes) :
    scan (.within seen low high (further + 1) bits) start (b :: rest) =
      scan (.within (seen + 1) 0x80 0xBF further (64 * bits + b.toNat % 64)) start rest := by
  rw [scan, if_pos h]

theorem toNat_ofNat_of_lt {n : Nat} (h : n < 256) : (UInt8.ofNat n).toNat = n := by
  rw [UInt8.toNat_ofNat']
  omega

theorem scan_two {n : Nat} (hLow : 128 ≤ n) (hHigh : n ≤ 2047) (start : Nat) (rest : Bytes) :
    scan .boundary start (UInt8.ofNat (n / 64 % 32 + 192) :: UInt8.ofNat (n % 64 + 128) :: rest) =
      (scan .boundary (start + 2) rest).map (Char.ofNat n :: ·) := by
  have hb := toNat_ofNat_of_lt (n := n / 64 % 32 + 192) (by omega)
  have hc := toNat_ofNat_of_lt (n := n % 64 + 128) (by omega)
  obtain ⟨lead, hLead⟩ := exists_lead (b := UInt8.ofNat (n / 64 % 32 + 192)) (by omega)
  rw [scan_lead hLead]
  rcases lead?_eq_some hLead with ⟨hFurther, hRest⟩ | ⟨hFurther, hRest⟩ | ⟨hFurther, hRest⟩ <;>
    rw [hb] at hRest
  · obtain ⟨-, -, hBits, hFrom, hTo⟩ := hRest
    rw [hFurther, scan_last, hBits, hc]
    · have hCode : 64 * (n / 64 % 32 + 192 - 192) + (n % 64 + 128) % 64 = n := by omega
      rw [hCode]
    · rw [UInt8.le_iff_toNat_le, UInt8.le_iff_toNat_le, hFrom, hTo, hc]
      omega
  · omega
  · omega

theorem scan_three {n : Nat} (hLow : 2048 ≤ n) (hHigh : n ≤ 65535) (hValid : n.isValidChar)
    (start : Nat) (rest : Bytes) :
    scan .boundary start (UInt8.ofNat (n / 4096 % 16 + 224) :: UInt8.ofNat (n / 64 % 64 + 128) ::
        UInt8.ofNat (n % 64 + 128) :: rest) =
      (scan .boundary (start + 3) rest).map (Char.ofNat n :: ·) := by
  have hb := toNat_ofNat_of_lt (n := n / 4096 % 16 + 224) (by omega)
  have hc := toNat_ofNat_of_lt (n := n / 64 % 64 + 128) (by omega)
  have hd := toNat_ofNat_of_lt (n := n % 64 + 128) (by omega)
  obtain ⟨lead, hLead⟩ := exists_lead (b := UInt8.ofNat (n / 4096 % 16 + 224)) (by omega)
  rw [scan_lead hLead]
  rcases lead?_eq_some hLead with ⟨hFurther, hRest⟩ | ⟨hFurther, hRest⟩ | ⟨hFurther, hRest⟩ <;>
    rw [hb] at hRest
  · omega
  · obtain ⟨-, -, hBits, hFrom, hTo⟩ := hRest
    rw [hFurther, scan_inner, scan_last, hBits, hc, hd]
    · have hCode : 64 * (64 * (n / 4096 % 16 + 224 - 224) + (n / 64 % 64 + 128) % 64) +
          (n % 64 + 128) % 64 = n := by omega
      rw [hCode]
    · rw [UInt8.le_iff_toNat_le, UInt8.le_iff_toNat_le, hd]
      simp only [UInt8.reduceToNat]
      omega
    · rw [UInt8.le_iff_toNat_le, UInt8.le_iff_toNat_le, hFrom, hTo, hc]
      unfold Nat.isValidChar at hValid
      constructor <;> split <;> omega
  · omega

theorem scan_four {n : Nat} (hLow : 65536 ≤ n) (hValid : n.isValidChar) (start : Nat)
    (rest : Bytes) :
    scan .boundary start (UInt8.ofNat (n / 262144 % 8 + 240) ::
        UInt8.ofNat (n / 4096 % 64 + 128) :: UInt8.ofNat (n / 64 % 64 + 128) ::
        UInt8.ofNat (n % 64 + 128) :: rest) =
      (scan .boundary (start + 4) rest).map (Char.ofNat n :: ·) := by
  have hHigh : n < 1114112 := by
    unfold Nat.isValidChar at hValid
    omega
  have hb := toNat_ofNat_of_lt (n := n / 262144 % 8 + 240) (by omega)
  have hc := toNat_ofNat_of_lt (n := n / 4096 % 64 + 128) (by omega)
  have hd := toNat_ofNat_of_lt (n := n / 64 % 64 + 128) (by omega)
  have he := toNat_ofNat_of_lt (n := n % 64 + 128) (by omega)
  obtain ⟨lead, hLead⟩ := exists_lead (b := UInt8.ofNat (n / 262144 % 8 + 240)) (by omega)
  rw [scan_lead hLead]
  rcases lead?_eq_some hLead with ⟨hFurther, hRest⟩ | ⟨hFurther, hRest⟩ | ⟨hFurther, hRest⟩ <;>
    rw [hb] at hRest
  · omega
  · omega
  · obtain ⟨-, -, hBits, hFrom, hTo⟩ := hRest
    rw [hFurther, scan_inner, scan_inner, scan_last, hBits, hc, hd, he]
    · have hCode : 64 * (64 * (64 * (n / 262144 % 8 + 240 - 240) + (n / 4096 % 64 + 128) % 64) +
          (n / 64 % 64 + 128) % 64) + (n % 64 + 128) % 64 = n := by omega
      rw [hCode]
    · rw [UInt8.le_iff_toNat_le, UInt8.le_iff_toNat_le, he]
      simp only [UInt8.reduceToNat]
      omega
    · rw [UInt8.le_iff_toNat_le, UInt8.le_iff_toNat_le, hd]
      simp only [UInt8.reduceToNat]
      omega
    · rw [UInt8.le_iff_toNat_le, UInt8.le_iff_toNat_le, hFrom, hTo, hc]
      constructor <;> split <;> omega

theorem scan_char (c : Char) (start : Nat) (rest : Bytes) :
    scan .boundary start (String.utf8EncodeChar c ++ rest) =
      (scan .boundary (start + (String.utf8EncodeChar c).length) rest).map (c :: ·) := by
  have hValid : c.toNat.isValidChar := c.valid
  have hChar : Char.ofNat c.toNat = c := Char.ofNat_toNat c
  rw [← hChar, utf8EncodeChar_ofNat hValid]
  split
  · rename_i hAscii
    have hByte := toNat_ofNat_of_lt (n := c.toNat) (by omega)
    rw [List.singleton_append, scan, if_pos, hByte, List.length_singleton]
    rw [UInt8.lt_iff_toNat_lt, hByte]
    simp only [UInt8.reduceToNat]
    omega
  split
  · exact scan_two (by omega) (by omega) start rest
  split
  · exact scan_three (by omega) (by omega) hValid start rest
  · exact scan_four (by omega) hValid start rest

theorem scan_flatMap_append (chars : List Char) (rest : Bytes) : ∀ start,
    scan .boundary start (chars.flatMap String.utf8EncodeChar ++ rest) =
      (scan .boundary (start + (chars.flatMap String.utf8EncodeChar).length) rest).map
        (chars ++ ·) := by
  induction chars with
  | nil =>
    intro start
    cases hScan : scan .boundary start rest <;> simp [hScan, Except.map]
  | cons c chars ih =>
    intro start
    rw [List.flatMap_cons, List.append_assoc, scan_char, ih, List.length_append, Nat.add_assoc]
    cases scan .boundary _ rest <;> rfl

theorem scan_flatMap (chars : List Char) (start : Nat) :
    scan .boundary start (chars.flatMap String.utf8EncodeChar) = .ok chars := by
  have hScan := scan_flatMap_append chars [] start
  rw [List.append_nil, scan] at hScan
  rw [hScan]
  exact congrArg Except.ok (List.append_nil chars)

theorem decode_encode (s : String) : decode (encode s) = .ok s := by
  rw [decode, encode, scan_flatMap]
  exact congrArg Except.ok String.ofList_toList

theorem decode_eq_ok_iff {data : Bytes} {s : String} : decode data = .ok s ↔ data = encode s := by
  constructor
  · intro h
    exact (encode_of_decode h).symm
  · rintro rfl
    exact decode_encode s

end Utf8

namespace Text

theorem ofBlob_encode (text : Text) : ofBlob text.encode = .ok text := by
  have hDecode : Utf8.decode text.encode.bytes = .ok text.string := Utf8.decode_encode text.string
  unfold ofBlob
  split
  · rename_i string h
    rw [hDecode] at h
    cases h
    rfl
  · rename_i cause h
    rw [hDecode] at h
    cases h

theorem encode_of_ofBlob {blob : Blob} {text : Text} (h : ofBlob blob = .ok text) :
    text.encode = blob := by
  unfold ofBlob at h
  split at h
  · rename_i string hDecode
    cases h
    obtain ⟨data, hLength⟩ := blob
    have hData : Utf8.encode string = data := Utf8.encode_of_decode hDecode
    subst hData
    rfl
  · cases h

end Text

end RowStore
