import RowStore.Proofs.Spelling

/-!
# Readers and the bytes behind what they read

A steady reader does not change its mind. What it accepts it accepts with any bytes behind it, and
of less than that it says that more is needed; what it refuses it refuses with any bytes behind it.
Only the verdict that more is needed is open. Steady readers are closed under sequencing, so that
steadiness passes from the readers of numbers and blobs to whatever is built from them.
-/

namespace RowStore

namespace Varint

variable {decode : Bytes → Except Error (Nat × Nat)} {limit bound n length : Nat} {data : Bytes}

/-- The bytes of an accepted number, whatever follows them. -/
theorem Decides.of_ok (h : Decides decode limit bound) (hDecode : decode data = .ok (n, length)) :
    ∃ taken rest, data = taken ++ rest ∧ length = taken.length ∧ taken.length ≤ limit ∧
      SpelledBy n taken ∧ n < bound ∧ ∀ more, decode (taken ++ more) = .ok (n, taken.length) := by
  cases form limit data with
  | @last before b rest hMore hLast hLength =>
    rcases h.last before b hMore hLast hLength with ⟨hFits, hAccepted⟩ | ⟨-, cause, hRefused⟩
    · rw [hAccepted] at hDecode
      cases hDecode
      refine ⟨before ++ [b], rest, ?_, ?_, ?_, spelledBy_exactValue hMore hLast, hFits, ?_⟩
      · rw [List.append_assoc, List.singleton_append]
      · rw [List.length_append, List.length_singleton]
      · rw [List.length_append, List.length_singleton]
        exact hLength
      · intro more
        rw [List.append_assoc, List.singleton_append, hAccepted, List.length_append,
          List.length_singleton]
    · rw [hRefused] at hDecode
      cases hDecode
  | unfinished hMore hLength =>
    rw [h.unfinished data hMore hLength] at hDecode
    cases hDecode
  | @tooLong before rest hMore hLength =>
    obtain ⟨cause, hRefused⟩ := h.tooLong before hMore hLength
    rw [hRefused] at hDecode
    cases hDecode

theorem Decides.of_ok_length (h : Decides decode limit bound)
    (hDecode : decode data = .ok (n, data.length)) :
    SpelledBy n data ∧ n < bound ∧ ∀ more, decode (data ++ more) = .ok (n, data.length) := by
  obtain ⟨taken, rest, hData, hLength, -, hAccepted⟩ := h.of_ok hDecode
  obtain rfl : taken = data := (hData ▸ List.prefix_append taken rest).eq_of_length hLength.symm
  exact hAccepted

end Varint

namespace Reader

variable {α β : Type}

/-- At this place the reader takes `taken` and answers `a`, whatever lies behind. When the bytes
end before `taken` does, it needs more. -/
structure Accepts (reader : Reader α) (source position : Nat) (taken : Bytes) (a : α) : Prop where
  extended : ∀ rest, reader ⟨source, position, taken ++ rest⟩ =
    .ok a ⟨source, position + taken.length, rest⟩
  cut : ∀ k < taken.length, ∃ next, reader ⟨source, position, taken.take k⟩ = .error .eof next

/-- At this place the reader refuses `data`, whatever lies behind. It stops at `next`. -/
def Refuses (reader : Reader α) (source position : Nat) (data : Bytes) (cause : Corruption)
    (next : Cursor) : Prop :=
  ∀ more, reader ⟨source, position, data ++ more⟩ =
    .error (.corruption cause) { next with rest := next.rest ++ more }

/-- What a steady reader makes of `data` at this place. `P` is what it promises of an answer and the
bytes taken for it. -/
inductive Verdict (reader : Reader α) (P : α → Bytes → Prop) (source position : Nat)
    (data : Bytes) : Prop where
  | accepted (a : α) (taken rest : Bytes) : data = taken ++ rest → P a taken →
    reader.Accepts source position taken a → Verdict reader P source position data
  | refused (cause : Corruption) (next : Cursor) :
    reader.Refuses source position data cause next → Verdict reader P source position data
  | unfinished (next : Cursor) :
    reader ⟨source, position, data⟩ = .error .eof next → Verdict reader P source position data

def Steady (reader : Reader α) (P : α → Bytes → Prop) : Prop :=
  ∀ source position data, reader.Verdict P source position data

variable {reader : Reader α} {f : α → Reader β} {P : α → Bytes → Prop} {R : β → Bytes → Prop}
  {source position : Nat} {data taken taken' : Bytes} {cursor next : Cursor} {a : α} {b : β}
  {e : Error}

theorem Steady.of_ok (h : reader.Steady P) (hRead : reader ⟨source, position, data⟩ = .ok a next) :
    ∃ taken rest, data = taken ++ rest ∧ next = ⟨source, position + taken.length, rest⟩ ∧
      P a taken ∧ reader.Accepts source position taken a := by
  cases h source position data with
  | accepted a' taken rest hData hP hAccepts =>
    subst hData
    rw [hAccepts.extended] at hRead
    cases hRead
    exact ⟨taken, rest, rfl, rfl, hP, hAccepts⟩
  | refused cause next' hRefuses =>
    have hError := hRefuses []
    rw [List.append_nil, hRead] at hError
    cases hError
  | unfinished next' hUnfinished =>
    rw [hRead] at hUnfinished
    cases hUnfinished

theorem Steady.of_error (h : reader.Steady P)
    (hRead : reader ⟨source, position, data⟩ = .error e next) :
    e = .eof ∨ ∃ cause, e = .corruption cause ∧ reader.Refuses source position data cause next := by
  cases h source position data with
  | accepted a taken rest hData hP hAccepts =>
    rw [hData, hAccepts.extended] at hRead
    cases hRead
  | refused cause next' hRefuses =>
    have hError := hRefuses []
    rw [List.append_nil, hRead, List.append_nil] at hError
    cases hError
    exact .inr ⟨cause, rfl, hRefuses⟩
  | unfinished next' hUnfinished =>
    rw [hRead] at hUnfinished
    cases hUnfinished
    exact .inl rfl

theorem bind_of_ok (h : reader cursor = .ok a next) (f : α → Reader β) :
    (reader >>= f) cursor = f a next := by
  simp only [bind, EStateM.bind, h]

theorem bind_of_error (h : reader cursor = .error e next) (f : α → Reader β) :
    (reader >>= f) cursor = .error e next := by
  simp only [bind, EStateM.bind, h]

theorem map_of_ok (h : reader cursor = .ok a next) (g : α → β) :
    (do return g (← reader)) cursor = .ok (g a) next := bind_of_ok h fun a => pure (g a)

theorem Accepts.bind (h : reader.Accepts source position taken a)
    (h' : (f a).Accepts source (position + taken.length) taken' b) :
    (reader >>= f).Accepts source position (taken ++ taken') b where
  extended rest := by
    rw [List.append_assoc, bind_of_ok (h.extended _), h'.extended, List.length_append,
      Nat.add_assoc]
  cut k hk := by
    by_cases hFirst : k < taken.length
    · obtain ⟨next, hNext⟩ := h.cut k hFirst
      rw [List.take_append_of_le_length (Nat.le_of_lt hFirst)]
      exact ⟨next, bind_of_error hNext f⟩
    · rw [List.length_append] at hk
      obtain ⟨next, hNext⟩ := h'.cut (k - taken.length) (by omega)
      rw [List.take_append, List.take_of_length_le (Nat.le_of_not_lt hFirst),
        bind_of_ok (h.extended _)]
      exact ⟨next, hNext⟩

/-- What is promised of both readers is promised of the two in sequence. -/
theorem Steady.bind (h : reader.Steady P)
    (hf : ∀ a, (f a).Steady fun b taken => ∀ before, P a before → R b (before ++ taken)) :
    (reader >>= f).Steady R := by
  intro source position data
  cases h source position data with
  | accepted a taken rest hData hP hAccepts =>
    subst hData
    cases hf a source (position + taken.length) rest with
    | accepted b taken' rest' hRest hR hAccepts' =>
      subst hRest
      exact .accepted b (taken ++ taken') rest' (List.append_assoc ..).symm (hR taken hP)
        (hAccepts.bind hAccepts')
    | refused cause next hRefuses =>
      refine .refused cause next fun more => ?_
      rw [List.append_assoc, bind_of_ok (hAccepts.extended _)]
      exact hRefuses more
    | unfinished next hUnfinished =>
      exact .unfinished next ((bind_of_ok (hAccepts.extended rest) f).trans hUnfinished)
  | refused cause next hRefuses =>
    exact .refused cause next fun more => bind_of_error (hRefuses more) f
  | unfinished next hUnfinished => exact .unfinished next (bind_of_error hUnfinished f)

theorem steady_pure (h : P a []) : (pure a : Reader α).Steady P := by
  intro source position data
  refine .accepted a [] data rfl h ⟨fun rest => rfl, fun k hk => ?_⟩
  exact absurd hk (Nat.not_lt_zero k)

theorem steady_throw (cause : Corruption) : (throw (.corruption cause) : Reader α).Steady P := by
  intro source position data
  exact .refused cause ⟨source, position, data⟩ fun more => rfl

theorem Steady.map (h : reader.Steady P) {g : α → β} (hg : ∀ a taken, P a taken → R (g a) taken) :
    (do return g (← reader)).Steady R := by
  apply h.bind
  intro a
  apply steady_pure
  intro before hP
  rw [List.append_nil]
  exact hg a before hP

/-- Where the reader stands does not depend on the bytes ahead. -/
theorem steady_place {f : Origin → Reader α} (h : ∀ origin, (f origin).Steady P) :
    (do let start ← get; f ⟨start.source, start.position⟩).Steady P := by
  intro source position data
  cases h ⟨source, position⟩ source position data with
  | accepted a taken rest hData hP hAccepts =>
    exact .accepted a taken rest hData hP ⟨hAccepts.extended, hAccepts.cut⟩
  | refused cause next hRefuses => exact .refused cause next hRefuses
  | unfinished next hUnfinished => exact .unfinished next hUnfinished

theorem steady_take (count : Nat) : (take count).Steady fun data taken => taken = data.val := by
  intro source position data
  by_cases hCount : count ≤ data.length
  · have hLength : (data.take count).length = count := List.length_take_of_le hCount
    refine .accepted ⟨data.take count, hLength⟩ (data.take count) (data.drop count)
      (List.take_append_drop count data).symm rfl ⟨fun rest => ?_, fun k hk => ?_⟩
    · rw [take_append source position rest hLength, hLength]
    · refine ⟨_, dif_neg ?_⟩
      simp only [List.length_take]
      omega
  · refine .unfinished _ (dif_neg ?_)
    simp only [List.length_take]
    omega

theorem steady_number {decode : Bytes → Except Error (Nat × Nat)} {limit bound : Nat}
    (h : Varint.Decides decode limit bound) :
    (number decode).Steady fun n taken => Varint.SpelledBy n taken ∧ n < bound := by
  intro source position data
  cases Varint.form limit data with
  | @last before b rest hMore hLast hLength =>
    rcases h.last before b hMore hLast hLength with ⟨hFits, hDecode⟩ | ⟨-, cause, hRefused⟩
    · refine .accepted (Varint.exactValue (before ++ [b])) (before ++ [b]) rest (by simp)
        ⟨Varint.spelledBy_exactValue hMore hLast, hFits⟩ ⟨fun more => ?_, fun k hk => ?_⟩
      · simp [number, hDecode, Cursor.advance, List.drop_append]
      · -- What is cut off ends before the byte that ends the number.
        rw [List.length_append, List.length_singleton] at hk
        have hCut : decode ((before ++ [b]).take k) = .error .eof := by
          rw [List.take_append_of_le_length (Nat.le_of_lt_succ hk)]
          apply h.unfinished
          · exact fun a ha => hMore a (List.mem_of_mem_take ha)
          · rw [List.length_take]
            omega
        exact ⟨⟨source, position, (before ++ [b]).take k⟩, by simp only [number, hCut]⟩
    · refine .refused cause ⟨source, position, before ++ b :: rest⟩ fun more => ?_
      rw [List.append_assoc, List.cons_append]
      simp only [number, hRefused]
  | unfinished hMore hLength =>
    refine .unfinished ⟨source, position, data⟩ ?_
    simp only [number, h.unfinished data hMore hLength]
  | @tooLong before rest hMore hLength =>
    obtain ⟨cause, hRefused⟩ := h.tooLong before hMore hLength
    refine .refused cause ⟨source, position, before ++ rest⟩ fun more => ?_
    rw [List.append_assoc]
    simp only [number, hRefused]

theorem steady_varint32 : varint32.Steady fun word taken => Varint.SpelledBy word.toNat taken := by
  apply (steady_number Varint.decides_decode32).map
  intro n taken h
  have hWord : n.toUInt32.toNat = n := UInt32.toNat_ofNat_of_lt h.2
  rw [hWord]
  exact h.1

theorem steady_varint64 : varint64.Steady fun word taken => Varint.SpelledBy word.toNat taken := by
  apply (steady_number Varint.decides_decode64).map
  intro n taken h
  have hWord : n.toUInt64.toNat = n := UInt64.toNat_ofNat_of_lt h.2
  rw [hWord]
  exact h.1

/-- A reader of numbers takes what the decoder accepts in full, whatever follows. -/
theorem varint64_of_decode64 {n : Nat} (h : Varint.decode64 data = .ok (n, data.length))
    (source position : Nat) (rest : Bytes) : n < UInt64.size ∧
    varint64 ⟨source, position, data ++ rest⟩ =
      .ok n.toUInt64 ⟨source, position + data.length, rest⟩ := by
  obtain ⟨-, hBound, hExtended⟩ := Varint.decides_decode64.of_ok_length h
  refine ⟨hBound, ?_⟩
  simp [varint64, number, bind, EStateM.bind, hExtended, Cursor.advance, pure, EStateM.pure]

theorem decode64_of_varint64 {word : UInt64}
    (h : varint64 ⟨source, position, data⟩ = .ok word next) :
    ∃ taken rest, data = taken ++ rest ∧ next = ⟨source, position + taken.length, rest⟩ ∧
      Varint.decode64 taken = .ok (word.toNat, taken.length) := by
  cases hDecode : Varint.decode64 data with
  | error e => simp [varint64, number, bind, EStateM.bind, hDecode] at h
  | ok answer =>
    obtain ⟨n, length⟩ := answer
    obtain ⟨taken, rest, hData, -, -, -, hBound, hExtended⟩ :=
      Varint.decides_decode64.of_ok hDecode
    have hTaken := hExtended []
    rw [List.append_nil] at hTaken
    subst hData
    rw [(varint64_of_decode64 hTaken source position rest).2] at h
    cases h
    have hWord : n.toUInt64.toNat = n := UInt64.toNat_ofNat_of_lt hBound
    exact ⟨taken, rest, rfl, rfl, hWord.symm ▸ hTaken⟩

theorem steady_blob : blob.Steady Blob.SpelledBy := by
  apply steady_varint64.bind
  intro size
  apply (steady_take size.toNat).map
  rintro ⟨data, hLength⟩ _ rfl before hSpelled
  rw [← hLength] at hSpelled
  exact ⟨before, hSpelled, rfl⟩

end Reader

end RowStore
