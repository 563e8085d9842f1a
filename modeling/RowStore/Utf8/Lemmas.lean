import RowStore.Utf8

/-!
# What decoding accepts

Bytes that decode to a text are the encoding of that text (`encode_of_decode`). Each form of a
character, from one byte to four, is treated by a lemma of its own.
-/

namespace RowStore.Utf8

/-- The leads of two, three and four bytes. -/
theorem lead?_eq_some {b : UInt8} {lead : Lead} (h : lead? b = some lead) :
    (lead.further = 0 ∧ 0xC2 ≤ b.toNat ∧ b.toNat ≤ 0xDF ∧ lead.bits = b.toNat - 0xC0 ∧
      lead.low.toNat = 0x80 ∧ lead.high.toNat = 0xBF) ∨
    (lead.further = 1 ∧ 0xE0 ≤ b.toNat ∧ b.toNat ≤ 0xEF ∧ lead.bits = b.toNat - 0xE0 ∧
      lead.low.toNat = (if b.toNat = 0xE0 then 0xA0 else 0x80) ∧
      lead.high.toNat = (if b.toNat = 0xED then 0x9F else 0xBF)) ∨
    (lead.further = 2 ∧ 0xF0 ≤ b.toNat ∧ b.toNat ≤ 0xF4 ∧ lead.bits = b.toNat - 0xF0 ∧
      lead.low.toNat = (if b.toNat = 0xF0 then 0x90 else 0x80) ∧
      lead.high.toNat = (if b.toNat = 0xF4 then 0x8F else 0xBF)) := by
  simp only [lead?, UInt8.le_iff_toNat_le, ← UInt8.toNat_inj, UInt8.reduceToNat] at h
  split at h
  · cases h
    simp_all
  split at h
  · cases h
    simp_all
  split at h
  · cases h
    simp_all
  split at h
  · cases h
    refine .inr (.inl ?_)
    simp_all
    omega
  split at h
  · cases h
    simp_all
  split at h
  · cases h
    refine .inr (.inr ?_)
    simp
    omega
  split at h
  · cases h
    simp_all
  · cases h

theorem scan_within_zero {seen : Nat} {low high : UInt8} {bits start : Nat} {data : Bytes}
    {chars : List Char} (h : scan (.within seen low high 0 bits) start data = .ok chars) :
    ∃ b rest cs, data = b :: rest ∧ (low ≤ b ∧ b ≤ high) ∧
      chars = Char.ofNat (64 * bits + b.toNat % 64) :: cs ∧
      scan .boundary (start + seen + 1) rest = .ok cs := by
  cases data with
  | nil => simp [scan] at h
  | cons b rest =>
    rw [scan] at h
    split at h
    · rename_i hRange
      cases hRest : scan .boundary (start + seen + 1) rest with
      | error e => simp [hRest, Except.map] at h
      | ok cs =>
        simp only [hRest, Except.map, Except.ok.injEq] at h
        exact ⟨b, rest, cs, rfl, hRange, h.symm, hRest⟩
    · cases h

theorem scan_within_succ {seen : Nat} {low high : UInt8} {further bits start : Nat} {data : Bytes}
    {chars : List Char} (h : scan (.within seen low high (further + 1) bits) start data = .ok chars) :
    ∃ b rest, data = b :: rest ∧ (low ≤ b ∧ b ≤ high) ∧
      scan (.within (seen + 1) 0x80 0xBF further (64 * bits + b.toNat % 64)) start rest =
        .ok chars := by
  cases data with
  | nil => simp [scan] at h
  | cons b rest =>
    rw [scan] at h
    split at h
    · rename_i hRange
      exact ⟨b, rest, rfl, hRange, h⟩
    · cases h

theorem utf8EncodeChar_ofNat {n : Nat} (hValid : n.isValidChar) :
    String.utf8EncodeChar (Char.ofNat n) =
      if n ≤ 127 then [UInt8.ofNat n]
      else if n ≤ 2047 then [UInt8.ofNat (n / 64 % 32 + 192), UInt8.ofNat (n % 64 + 128)]
      else if n ≤ 65535 then
        [UInt8.ofNat (n / 4096 % 16 + 224), UInt8.ofNat (n / 64 % 64 + 128),
          UInt8.ofNat (n % 64 + 128)]
      else [UInt8.ofNat (n / 262144 % 8 + 240), UInt8.ofNat (n / 4096 % 64 + 128),
        UInt8.ofNat (n / 64 % 64 + 128), UInt8.ofNat (n % 64 + 128)] := by
  have hNat : (Char.ofNat n).val.toNat = n := by
    rw [Char.ofNat, dif_pos hValid]
    rfl
  simp only [String.utf8EncodeChar, hNat]

theorem ofNat_eq {b : UInt8} {n : Nat} (h : n = b.toNat) : UInt8.ofNat n = b := by
  rw [h, UInt8.ofNat_toNat]

theorem utf8EncodeChar_one {b : UInt8} (hb : b.toNat < 0x80) :
    String.utf8EncodeChar (Char.ofNat b.toNat) = [b] := by
  rw [utf8EncodeChar_ofNat (.inl (by omega)), if_pos (by omega), ofNat_eq rfl]

theorem utf8EncodeChar_two {b c : UInt8} (hb : 0xC2 ≤ b.toNat ∧ b.toNat ≤ 0xDF)
    (hc : 0x80 ≤ c.toNat ∧ c.toNat ≤ 0xBF) :
    String.utf8EncodeChar (Char.ofNat (64 * (b.toNat - 0xC0) + c.toNat % 64)) = [b, c] := by
  rw [utf8EncodeChar_ofNat (.inl (by omega)), if_neg (by omega), if_pos (by omega),
    ofNat_eq (b := b) (by omega), ofNat_eq (b := c) (by omega)]

theorem utf8EncodeChar_three {b c d : UInt8} (hb : 0xE0 ≤ b.toNat ∧ b.toNat ≤ 0xEF)
    (hc : (if b.toNat = 0xE0 then 0xA0 else 0x80) ≤ c.toNat ∧
      c.toNat ≤ (if b.toNat = 0xED then 0x9F else 0xBF))
    (hd : 0x80 ≤ d.toNat ∧ d.toNat ≤ 0xBF) :
    String.utf8EncodeChar
      (Char.ofNat (64 * (64 * (b.toNat - 0xE0) + c.toNat % 64) + d.toNat % 64)) = [b, c, d] := by
  have hBounds : 0x80 ≤ c.toNat ∧ c.toNat ≤ 0xBF ∧ (b.toNat = 0xE0 → 0xA0 ≤ c.toNat) ∧
      (b.toNat = 0xED → c.toNat ≤ 0x9F) := by grind
  rw [utf8EncodeChar_ofNat (by unfold Nat.isValidChar; omega), if_neg (by omega),
    if_neg (by omega), if_pos (by omega), ofNat_eq (b := b) (by omega),
    ofNat_eq (b := c) (by omega), ofNat_eq (b := d) (by omega)]

theorem utf8EncodeChar_four {b c d e : UInt8} (hb : 0xF0 ≤ b.toNat ∧ b.toNat ≤ 0xF4)
    (hc : (if b.toNat = 0xF0 then 0x90 else 0x80) ≤ c.toNat ∧
      c.toNat ≤ (if b.toNat = 0xF4 then 0x8F else 0xBF))
    (hd : 0x80 ≤ d.toNat ∧ d.toNat ≤ 0xBF) (he : 0x80 ≤ e.toNat ∧ e.toNat ≤ 0xBF) :
    String.utf8EncodeChar (Char.ofNat
      (64 * (64 * (64 * (b.toNat - 0xF0) + c.toNat % 64) + d.toNat % 64) + e.toNat % 64)) =
        [b, c, d, e] := by
  have hBounds : 0x80 ≤ c.toNat ∧ c.toNat ≤ 0xBF ∧ (b.toNat = 0xF0 → 0x90 ≤ c.toNat) ∧
      (b.toNat = 0xF4 → c.toNat ≤ 0x8F) := by grind
  rw [utf8EncodeChar_ofNat (by unfold Nat.isValidChar; omega), if_neg (by omega),
    if_neg (by omega), if_neg (by omega), ofNat_eq (b := b) (by omega),
    ofNat_eq (b := c) (by omega), ofNat_eq (b := d) (by omega), ofNat_eq (b := e) (by omega)]

/-- Encoding the characters read gives the bytes back. -/
theorem flatMap_of_scan (data : Bytes) : ∀ {start : Nat} {chars : List Char},
    scan .boundary start data = .ok chars → chars.flatMap String.utf8EncodeChar = data := by
  induction hLength : data.length using Nat.strongRecOn generalizing data with
  | _ length ih =>
  subst hLength
  intro start chars h
  cases data with
  | nil =>
    cases h
    rfl
  | cons b rest =>
    rw [scan] at h
    split at h
    · rename_i hAscii
      cases hRest : scan .boundary (start + 1) rest with
      | error e => simp [hRest, Except.map] at h
      | ok cs =>
        simp only [hRest, Except.map, Except.ok.injEq] at h
        subst h
        rw [List.flatMap_cons, ih _ (by simp only [List.length_cons]; omega) rest rfl hRest,
          utf8EncodeChar_one (by simpa [UInt8.lt_iff_toNat_lt] using hAscii)]
        rfl
    · split at h
      · cases h
      · rename_i lead hLead
        rcases lead?_eq_some hLead with hKind | hKind | hKind <;>
          obtain ⟨hFurther, hFrom, hTo, hBits, hLow, hHigh⟩ := hKind <;>
          rw [hFurther, hBits] at h
        · obtain ⟨c, rest, cs, rfl, hc, rfl, hRest⟩ := scan_within_zero h
          simp only [UInt8.le_iff_toNat_le, hLow, hHigh] at hc
          rw [List.flatMap_cons, ih _ (by simp only [List.length_cons]; omega) rest rfl hRest,
            utf8EncodeChar_two ⟨hFrom, hTo⟩ hc]
          rfl
        · obtain ⟨c, rest, rfl, hc, h⟩ := scan_within_succ h
          obtain ⟨d, rest, cs, rfl, hd, rfl, hRest⟩ := scan_within_zero h
          simp only [UInt8.le_iff_toNat_le, UInt8.reduceToNat, hLow, hHigh] at hc hd
          rw [List.flatMap_cons, ih _ (by simp only [List.length_cons]; omega) rest rfl hRest,
            utf8EncodeChar_three ⟨hFrom, hTo⟩ hc hd]
          rfl
        · obtain ⟨c, rest, rfl, hc, h⟩ := scan_within_succ h
          obtain ⟨d, rest, rfl, hd, h⟩ := scan_within_succ h
          obtain ⟨e, rest, cs, rfl, he, rfl, hRest⟩ := scan_within_zero h
          simp only [UInt8.le_iff_toNat_le, UInt8.reduceToNat, hLow, hHigh] at hc hd he
          rw [List.flatMap_cons, ih _ (by simp only [List.length_cons]; omega) rest rfl hRest,
            utf8EncodeChar_four ⟨hFrom, hTo⟩ hc hd he]
          rfl

theorem encode_of_decode {data : Bytes} {s : String} (h : decode data = .ok s) :
    encode s = data := by
  unfold decode at h
  cases hScan : scan .boundary 0 data with
  | error e => simp [hScan, Except.map] at h
  | ok chars =>
    simp only [hScan, Except.map, Except.ok.injEq] at h
    subst h
    simpa [encode] using flatMap_of_scan data hScan

end RowStore.Utf8
