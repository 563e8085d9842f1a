import RowStore.Proofs.Utf8
import RowStore.Schema.Codec

/-!
# Where text breaks off

Bytes are read as text exactly when they are the UTF-8 forms of characters. A refusal names the end
of the longest beginning that is text, tells a character that is cut off from one that no further
bytes could complete, and counts the bytes that are to blame for the latter (`reports_of_decode`).
Texts and byte strings are read alike up to that verdict (`read_string_and_bytes`).
-/

namespace RowStore

namespace Utf8

/-- The bytes are the UTF-8 forms of characters, one after another. -/
def WellFormed (data : Bytes) : Prop :=
  ∃ chars : List Char, data = chars.flatMap String.utf8EncodeChar

def Malformed.start : Malformed → Nat
  | incomplete start => start
  | invalid _ start => start

/-- Some text begins with the bytes. -/
def Begins (data : Bytes) : Prop := ∃ more, WellFormed (data ++ more)

/-- No text begins with the bytes, and the first `length` of them are to blame: the most that a text
can begin with, but one byte at least. -/
structure Broken (length : Nat) (data : Bytes) : Prop where
  pos : 0 < length
  le : length ≤ data.length
  begins : length = 1 ∨ Begins (data.take length)
  longest : ∀ k ≤ data.length, Begins (data.take k) → k ≤ length

/-- What a refusal tells of the bytes: where the longest beginning that is text ends, and whether
the bytes behind it are a proper beginning of some text. -/
structure Malformed.Reports (cause : Malformed) (data : Bytes) : Prop where
  start_le : cause.start ≤ data.length
  wellFormed : WellFormed (data.take cause.start)
  longest : ∀ k ≤ data.length, WellFormed (data.take k) → k ≤ cause.start
  incomplete_iff : cause = .incomplete cause.start ↔
    ∃ more, more ≠ [] ∧ WellFormed (data.drop cause.start ++ more)
  broken : ∀ length start, cause = .invalid length start → Broken length (data.drop start)

variable {state : State} {start place length : Nat} {data : Bytes} {chars : List Char}
  {cause : Malformed}

theorem wellFormed_of_scan (h : scan .boundary start data = .ok chars) : WellFormed data :=
  ⟨chars, (flatMap_of_scan data h).symm⟩

theorem map_eq_error_iff {α β ε : Type} {x : Except ε α} {f : α → β} {e : ε} :
    x.map f = .error e ↔ x = .error e := by
  cases x <;> simp [Except.map]

/-- How many bytes of the character at hand were read. -/
def State.seen : State → Nat
  | boundary => 0
  | within seen _ _ _ _ => seen

/-- A character at hand has begun, and some byte may come next. -/
def State.Open : State → Prop
  | boundary => True
  | within seen low high _ _ => 0 < seen ∧ low ≤ high

theorem State.open_boundary : State.boundary.Open := trivial

/-- What one byte does. It is refused whatever follows, or it is taken into the character at hand,
or it ends a character. -/
inductive Step (state : State) (start : Nat) (b : UInt8) : Prop where
  | refused (length : Nat) : length = max 1 state.seen →
    (∀ rest, scan state start (b :: rest) = .error (.invalid length start)) → Step state start b
  | taken (next : State) (place : Nat) (f : List Char → List Char) : next.Open →
    place + next.seen = start + state.seen + 1 → place = start ∨ next = .boundary →
    (∀ rest, scan state start (b :: rest) = (scan next place rest).map f) → Step state start b

theorem low_le_high {b : UInt8} {lead : Lead} (h : lead? b = some lead) : lead.low ≤ lead.high := by
  rw [UInt8.le_iff_toNat_le]
  rcases lead?_eq_some h with hLead | hLead | hLead <;> grind

theorem map_id_scan (state : State) (start : Nat) (data : Bytes) :
    (scan state start data).map id = scan state start data := by
  cases scan state start data <;> rfl

theorem step (hOpen : state.Open) (start : Nat) (b : UInt8) : Step state start b := by
  cases state with
  | boundary =>
    by_cases hAscii : b < 0x80
    · refine .taken .boundary (start + 1) (Char.ofNat b.toNat :: ·) trivial rfl (.inr rfl) ?_
      intro rest
      rw [scan, if_pos hAscii]
    cases hLead : lead? b with
    | none =>
      refine .refused 1 rfl fun rest => ?_
      rw [scan, if_neg hAscii, hLead]
    | some lead =>
      refine .taken (.within 1 lead.low lead.high lead.further lead.bits) start id
        ⟨Nat.succ_pos 0, low_le_high hLead⟩ rfl (.inl rfl) ?_
      intro rest
      rw [scan_lead hLead, map_id_scan]
  | within seen low high further bits =>
    by_cases hRange : low ≤ b ∧ b ≤ high
    · cases further with
      | zero =>
        refine .taken .boundary (start + seen + 1) (Char.ofNat (64 * bits + b.toNat % 64) :: ·)
          trivial rfl (.inr rfl) ?_
        intro rest
        rw [scan_last hRange]
      | succ further =>
        refine .taken (.within (seen + 1) 0x80 0xBF further (64 * bits + b.toNat % 64)) start id
          ⟨Nat.succ_pos seen, UInt8.le_iff_toNat_le.mpr (by decide)⟩ rfl (.inl rfl) ?_
        intro rest
        rw [scan_inner hRange, map_id_scan]
    · refine .refused seen (Nat.max_eq_right hOpen.1).symm fun rest => ?_
      rw [scan, if_neg hRange]

/-- No further bytes mend what is invalid. -/
theorem scan_append_of_invalid (hOpen : state.Open) (more : Bytes)
    (h : scan state start data = .error (.invalid length place)) :
    scan state start (data ++ more) = .error (.invalid length place) := by
  induction data generalizing state start with
  | nil => cases state <;> cases h
  | cons b data ih =>
    cases step hOpen start b with
    | refused _ _ hRefused =>
      rw [hRefused] at h
      rw [List.cons_append, hRefused, h]
    | taken next place' f hNext _ _ hTaken =>
      rw [hTaken, map_eq_error_iff] at h
      rw [List.cons_append, hTaken, ih hNext h]
      rfl

theorem exists_completion (seen : Nat) {low high : UInt8} (hRange : low ≤ high)
    (further bits start : Nat) :
    ∃ more chars, more ≠ [] ∧ scan (.within seen low high further bits) start more = .ok chars := by
  have hLow : low ≤ low ∧ low ≤ high := ⟨UInt8.le_refl low, hRange⟩
  induction further generalizing seen low high bits with
  | zero => exact ⟨[low], _, List.cons_ne_nil _ _, scan_last hLow ..⟩
  | succ further ih =>
    have hTail : (0x80 : UInt8) ≤ 0xBF := UInt8.le_iff_toNat_le.mpr (by decide)
    obtain ⟨more, chars, -, hScan⟩ :=
      ih (seen + 1) hTail (64 * bits + low.toNat % 64) ⟨UInt8.le_refl _, hTail⟩
    exact ⟨low :: more, chars, List.cons_ne_nil _ _, (scan_inner hLow ..).trans hScan⟩

/-- What is incomplete can be completed. -/
theorem exists_scan_of_incomplete (hOpen : state.Open)
    (h : scan state start data = .error (.incomplete place)) :
    ∃ more chars, more ≠ [] ∧ scan state start (data ++ more) = .ok chars := by
  induction data generalizing state start with
  | nil =>
    cases state with
    | boundary => cases h
    | within seen low high further bits => exact exists_completion seen hOpen.2 further bits start
  | cons b data ih =>
    cases step hOpen start b with
    | refused _ _ hRefused =>
      rw [hRefused] at h
      cases h
    | taken next place' f hNext _ _ hTaken =>
      rw [hTaken, map_eq_error_iff] at h
      obtain ⟨more, chars, hMore, hScan⟩ := ih hNext h
      refine ⟨more, f chars, hMore, ?_⟩
      rw [List.cons_append, hTaken, hScan]
      rfl

theorem incomplete_iff (h : scan .boundary start data = .error cause) :
    cause = .incomplete cause.start ↔ ∃ more, more ≠ [] ∧ WellFormed (data ++ more) := by
  constructor
  · intro hCause
    rw [hCause] at h
    obtain ⟨more, chars, hMore, hScan⟩ := exists_scan_of_incomplete State.open_boundary h
    exact ⟨more, hMore, wellFormed_of_scan hScan⟩
  · rintro ⟨more, -, chars, hChars⟩
    cases cause with
    | incomplete place => rfl
    | invalid length place =>
      have hInvalid := scan_append_of_invalid State.open_boundary more h
      rw [hChars, scan_flatMap] at hInvalid
      cases hInvalid

/-- A refusal names the place where the character at hand began, or a place behind it up to which
the bytes are read. -/
theorem start_of_scan (hOpen : state.Open) (h : scan state start data = .error cause) :
    cause.start = start ∨ ∃ k ≤ data.length, cause.start = start + state.seen + k ∧
      ∃ chars, scan state start (data.take k) = .ok chars := by
  induction data generalizing state start with
  | nil =>
    cases state with
    | boundary => cases h
    | within =>
      cases h
      exact .inl rfl
  | cons b data ih =>
    cases step hOpen start b with
    | refused _ _ hRefused =>
      rw [hRefused] at h
      cases h
      exact .inl rfl
    | taken next place f hNext hSeen hPlace hTaken =>
      rw [hTaken, map_eq_error_iff] at h
      rcases ih hNext h with hStart | ⟨k, hk, hStart, chars, hScan⟩
      · rcases hPlace with rfl | rfl
        · exact .inl hStart
        · refine .inr ⟨1, by simp, hStart.trans hSeen, f [], ?_⟩
          rw [List.take_succ_cons, List.take_zero, hTaken]
          rfl
      · refine .inr ⟨k + 1, by simpa using hk, by omega, f chars, ?_⟩
        rw [List.take_succ_cons, hTaken, hScan]
        rfl

theorem exists_scan (hOpen : state.Open) (start : Nat) :
    ∃ more chars, scan state start more = .ok chars := by
  cases state with
  | boundary => exact ⟨[], [], rfl⟩
  | within seen low high further bits =>
    obtain ⟨more, chars, -, hScan⟩ := exists_completion seen hOpen.2 further bits start
    exact ⟨more, chars, hScan⟩

/-- The character at hand is broken by the byte behind the `k` bytes that it can go on with. -/
theorem exists_break (hOpen : state.Open)
    (h : scan state start data = .error (.invalid length start)) :
    ∃ k < data.length, length = max 1 (state.seen + k) ∧
      (∃ more chars, scan state start (data.take k ++ more) = .ok chars) ∧
      ∀ more, scan state start (data.take (k + 1) ++ more) = .error (.invalid length start) := by
  induction data generalizing state with
  | nil => cases state <;> cases h
  | cons b data ih =>
    cases step hOpen start b with
    | refused _ hLength hRefused =>
      rw [hRefused] at h
      cases h
      exact ⟨0, Nat.succ_pos _, hLength, exists_scan hOpen start, hRefused⟩
    | taken next place f hNext hSeen hPlace hTaken =>
      rw [hTaken, map_eq_error_iff] at h
      rcases hPlace with rfl | rfl
      · obtain ⟨k, hk, hLength, ⟨more, chars, hScan⟩, hBroken⟩ := ih hNext h
        refine ⟨k + 1, Nat.succ_lt_succ hk, by omega, ⟨more, f chars, ?_⟩, fun more => ?_⟩
        · rw [List.take_succ_cons, List.cons_append, hTaken, hScan]
          rfl
        · rw [List.take_succ_cons, List.cons_append, hTaken, hBroken]
          rfl
      · -- A character that begins later is not the one at hand.
        rw [State.seen] at hSeen
        rcases start_of_scan State.open_boundary h with hStart | ⟨_, _, hStart, _⟩ <;>
          rw [Malformed.start] at hStart <;> omega

theorem broken_of_scan (h : scan .boundary start data = .error (.invalid length start)) :
    Broken length data := by
  obtain ⟨k, hk, hLength, ⟨more, chars, hScan⟩, hBroken⟩ := exists_break State.open_boundary h
  rw [State.seen, Nat.zero_add] at hLength
  refine ⟨by omega, by omega, ?_, ?_⟩
  · rcases Nat.lt_or_ge 1 k with hMany | hFew
    · obtain rfl : length = k := by omega
      exact .inr ⟨more, wellFormed_of_scan hScan⟩
    · exact .inl (by omega)
  · rintro j hj ⟨others, chars', hChars⟩
    apply Nat.le_of_not_lt
    intro hLonger
    have hSplit : data.take j = data.take (k + 1) ++ (data.take j).drop (k + 1) := by
      conv => lhs; rw [← List.take_append_drop (k + 1) (data.take j)]
      rw [List.take_take, Nat.min_eq_left (by omega)]
    have hText := scan_flatMap chars' start
    rw [← hChars, hSplit, List.append_assoc, hBroken] at hText
    cases hText

theorem reports_of_decode (h : decode data = .error cause) : cause.Reports data := by
  have hScan : scan .boundary 0 data = .error cause := map_eq_error_iff.mp h
  have hRest (k : Nat) (hk : k ≤ data.length) (hText : WellFormed (data.take k)) :
      scan .boundary k (data.drop k) = .error cause := by
    obtain ⟨chars, hChars⟩ := hText
    have hLength : (chars.flatMap String.utf8EncodeChar).length = k := by
      rw [← hChars, List.length_take_of_le hk]
    rw [← List.take_append_drop k data, hChars, scan_flatMap_append, map_eq_error_iff, hLength,
      Nat.zero_add] at hScan
    exact hScan
  have hStart : cause.start ≤ data.length ∧ WellFormed (data.take cause.start) := by
    rcases start_of_scan State.open_boundary hScan with hZero | ⟨k, hk, hStart, chars, hTake⟩
    · rw [hZero]
      exact ⟨Nat.zero_le _, [], rfl⟩
    · rw [hStart, State.seen, Nat.zero_add]
      exact ⟨hk, wellFormed_of_scan hTake⟩
  refine ⟨hStart.1, hStart.2, ?_, incomplete_iff (hRest _ hStart.1 hStart.2), ?_⟩
  · intro k hk hText
    rcases start_of_scan State.open_boundary (hRest k hk hText) with hEq | ⟨j, -, hEq, -⟩
    · exact Nat.le_of_eq hEq.symm
    · rw [hEq, State.seen]
      omega
  · rintro length start rfl
    exact broken_of_scan (hRest _ hStart.1 hStart.2)

theorem decode_isOk_iff : (∃ s, decode data = .ok s) ↔ WellFormed data := by
  simp only [decode_eq_ok_iff]
  constructor
  · rintro ⟨s, h⟩
    exact ⟨s.toList, h⟩
  · rintro ⟨chars, h⟩
    refine ⟨String.ofList chars, ?_⟩
    rw [encode, String.toList_ofList]
    exact h

end Utf8

namespace Text

variable {blob : Blob} {cause : Utf8.Malformed}

theorem ofBlob_eq_error_iff :
    ofBlob blob = .error cause ↔ Utf8.decode blob.bytes = .error cause := by
  unfold ofBlob
  split <;> simp_all

theorem exists_ofBlob_iff : (∃ text, ofBlob blob = .ok text) ↔ Utf8.WellFormed blob.bytes := by
  rw [← Utf8.decode_isOk_iff]
  unfold ofBlob
  split <;> simp_all

end Text

namespace Schema

theorem read_bytes_eq (cursor : Cursor) :
    read .bytes cursor =
      match Reader.blob cursor with
      | .ok blob next => .ok (.bytes blob) next
      | .error e next => .error e next := by
  simp only [read, bind, EStateM.bind]
  cases Reader.blob cursor <;> rfl

theorem read_string_eq (cursor : Cursor) :
    read .string cursor =
      match Reader.blob cursor with
      | .ok blob next =>
        match Text.ofBlob blob with
        | .ok text => .ok (.string text) next
        | .error cause => .error (.corruption (.notText cause)) next
      | .error e next => .error e next := by
  simp only [read, bind, EStateM.bind]
  cases Reader.blob cursor with
  | ok blob next =>
    dsimp only
    cases Text.ofBlob blob <;> rfl
  | error e next => rfl

/-- A text and a byte string take the same bytes and fail for the same reasons, but that a text has
to be the UTF-8 forms of characters. When it is not, the refusal tells how far it is. -/
theorem read_string_and_bytes (cursor : Cursor) :
    (∀ e next, bytes.read cursor = .error e next → string.read cursor = .error e next) ∧
    (∀ x next, bytes.read cursor = .ok x next → ∃ blob, x = .bytes blob ∧
      ((∃ text, string.read cursor = .ok (.string text) next ∧ text.encode = blob) ↔
        Utf8.WellFormed blob.bytes) ∧
      (¬Utf8.WellFormed blob.bytes → ∃ cause,
        string.read cursor = .error (.corruption (.notText cause)) next ∧
          cause.Reports blob.bytes)) := by
  rw [read_string_eq, read_bytes_eq]
  cases Reader.blob cursor with
  | error e next =>
    constructor
    · rintro _ _ ⟨⟩
      rfl
    · rintro _ _ ⟨⟩
  | ok blob next =>
    constructor
    · rintro _ _ ⟨⟩
    rintro _ _ ⟨⟩
    refine ⟨blob, rfl, ?_⟩
    dsimp only
    rw [← Text.exists_ofBlob_iff]
    cases hText : Text.ofBlob blob with
    | ok text =>
      have hEncode := Text.encode_of_ofBlob hText
      exact ⟨⟨fun _ => ⟨text, rfl⟩, fun _ => ⟨text, rfl, hEncode⟩⟩, fun h => absurd ⟨text, rfl⟩ h⟩
    | error cause =>
      have hReports := Utf8.reports_of_decode (Text.ofBlob_eq_error_iff.mp hText)
      refine ⟨⟨?_, ?_⟩, fun _ => ⟨cause, rfl, hReports⟩⟩
      · rintro ⟨_, ⟨⟩, _⟩
      · rintro ⟨_, ⟨⟩⟩

/-- A character that is cut off, behind one that is read, and the two first bytes of a surrogate. -/
theorem read_string_and_bytes_cut :
    (string.read ⟨0, 3, [4, 97, 240, 159, 152, 9]⟩ =
        .error (.corruption (.notText (.incomplete 1))) ⟨0, 8, [9]⟩ ∧
      (∃ more, more ≠ [] ∧ Utf8.WellFormed ([240, 159, 152] ++ more)) ∧
      ¬Utf8.WellFormed [97, 240]) ∧
    string.read ⟨0, 3, [2, 237, 160, 9]⟩ =
        .error (.corruption (.notText (.invalid 1 0))) ⟨0, 6, [9]⟩ ∧
      ∀ more, more ≠ [] → ¬Utf8.WellFormed ([237, 160] ++ more) := by
  have hReports (data : Bytes) (blob : Blob) (cause : Utf8.Malformed) (next : Cursor)
      (hBytes : bytes.read ⟨0, 3, data⟩ = .ok (.bytes blob) next)
      (hString : string.read ⟨0, 3, data⟩ = .error (.corruption (.notText cause)) next) :
      cause.Reports blob.bytes := by
    obtain ⟨_, ⟨⟩, hOk, hRefused⟩ := (read_string_and_bytes ⟨0, 3, data⟩).2 _ _ hBytes
    have hMalformed : ¬Utf8.WellFormed blob.bytes := by
      intro hText
      obtain ⟨text, hRead, -⟩ := hOk.mpr hText
      rw [hString] at hRead
      cases hRead
    obtain ⟨cause', hRead, hReports⟩ := hRefused hMalformed
    rw [hString] at hRead
    cases hRead
    exact hReports
  constructor
  · have hCut := hReports [4, 97, 240, 159, 152, 9] { bytes := [97, 240, 159, 152] } (.incomplete 1)
      ⟨0, 8, [9]⟩ rfl rfl
    refine ⟨rfl, hCut.incomplete_iff.mp rfl, ?_⟩
    intro hText
    exact absurd (hCut.longest 2 (by decide) hText) (by decide)
  · have hSurrogate := hReports [2, 237, 160, 9] { bytes := [237, 160] } (.invalid 1 0)
      ⟨0, 6, [9]⟩ rfl rfl
    refine ⟨rfl, ?_⟩
    intro more hMore hText
    cases hSurrogate.incomplete_iff.mpr ⟨more, hMore, hText⟩

end Schema

end RowStore
