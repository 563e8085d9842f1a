import RowStore.Proofs.Misfit
import RowStore.Proofs.Reading

/-!
# Schemas that grow

A schema grows when columns are appended to its rows, at any depth. What was written under it is
then written in the same way, and what was read under it is read as before. What is read under the
grown schema is read under the old one too, unless some row is too wide for it: the old schema
then refuses the first such row (`read_of_grown`).
-/

namespace RowStore

namespace Reader

variable {α β : Type}

/-- What a reader of fewer columns makes of bytes, beside what one of more columns makes of them.
They agree, or the former refuses a row for its width, which is then at fault in what the latter
answers. -/
inductive Outgrown (fault? : α → Option Error) :
    EStateM.Result Error Cursor α → EStateM.Result Error Cursor α → Prop where
  | ok {a : α} {next : Cursor} : fault? a = none → Outgrown fault? (.ok a next) (.ok a next)
  | error (e : Error) (next : Cursor) : Outgrown fault? (.error e next) (.error e next)
  | refused {arity columns : Nat} {wide : EStateM.Result Error Cursor α} (stop : Cursor) :
    columns < arity →
    (∀ a next, wide = .ok a next → fault? a = some (.arityOverflow arity columns)) →
    Outgrown fault? (.error (.corruption (.rowTooWide arity columns)) stop) wide

def Outgrows (narrow wide : Reader α) (fault? : α → Option Error) : Prop :=
  ∀ cursor, Outgrown fault? (narrow cursor) (wide cursor)

variable {narrow wide reader : Reader α} {f g : α → Reader β} {fault? : α → Option Error}
  {fault'? : β → Option Error}

theorem outgrows_of_ok (h : ∀ cursor a next, reader cursor = .ok a next → fault? a = none) :
    reader.Outgrows reader fault? := by
  intro cursor
  cases hRead : reader cursor with
  | ok a next => exact .ok (h cursor a next hRead)
  | error e next => exact .error e next

theorem outgrows_pure {a : α} (h : fault? a = none) : (pure a : Reader α).Outgrows (pure a) fault? :=
  fun _ => .ok h

/-- A fault in what is read first stays the fault of the whole. -/
theorem Outgrows.bind (h : narrow.Outgrows wide fault?)
    (hf : ∀ cursor a next, wide cursor = .ok a next → fault? a = none →
      (f a).Outgrows (g a) fault'?)
    (hFault : ∀ cursor a next b last, wide cursor = .ok a next → g a next = .ok b last →
      ∀ e, fault? a = some e → fault'? b = some e) :
    (narrow >>= f).Outgrows (wide >>= g) fault'? := by
  intro cursor
  have hFirst := h cursor
  generalize hNarrow : narrow cursor = outcome at hFirst
  generalize hWide : wide cursor = outcome' at hFirst
  cases hFirst with
  | ok hNone =>
    rw [bind_of_ok hNarrow, bind_of_ok hWide]
    exact hf cursor _ _ hWide hNone _
  | error e next =>
    rw [bind_of_error hNarrow, bind_of_error hWide]
    exact .error e next
  | refused stop hArity hRow =>
    rw [bind_of_error hNarrow]
    refine .refused stop hArity ?_
    intro b last hRead
    cases outcome' with
    | ok a next =>
      rw [bind_of_ok hWide] at hRead
      exact hFault cursor a next b last hWide hRead _ (hRow a next rfl)
    | error e next =>
      rw [bind_of_error hWide] at hRead
      cases hRead

theorem Outgrows.map (h : narrow.Outgrows wide fault?) {k : α → β}
    (hk : ∀ cursor a next, wide cursor = .ok a next → fault'? (k a) = fault? a) :
    (do return k (← narrow)).Outgrows (do return k (← wide)) fault'? := by
  apply h.bind
  · intro cursor a next hWide hNone
    exact outgrows_pure ((hk cursor a next hWide).trans hNone)
  · intro cursor a next b last hWide hRead e hFault
    cases hRead
    exact (hk cursor a next hWide).trans hFault

end Reader

namespace Schema

mutual

/-- The other schema is this one with columns appended to its rows, at any depth. -/
def GrowsTo : Schema → Schema → Prop
  | .row columns, .row wider => GrowTo columns wider
  | schema, wider => schema.kind = wider.kind

/-- Each column grows to the one in its place, and others may follow. -/
def GrowTo : List Schema → List Schema → Prop
  | [], _ => True
  | _ :: _, [] => False
  | schema :: columns, wide :: wider => GrowsTo schema wide ∧ GrowTo columns wider

end

variable {schema wider : Schema} {columns wide : List Schema} {x : Value} {xs : List Value}

theorem GrowTo.length_le (h : GrowTo columns wide) : columns.length ≤ wide.length := by
  induction columns generalizing wide with
  | nil => exact Nat.zero_le _
  | cons schema columns ih =>
    cases wide with
    | nil => exact h.elim
    | cons first wide => exact Nat.succ_le_succ (ih h.2)

theorem GrowsTo.eq_of_kind_ne (h : schema.GrowsTo wider) (hLeaf : schema.kind ≠ .row) :
    wider = schema := by
  cases schema with
  | row => exact absurd rfl hLeaf
  | _ =>
    cases wider <;>
      first
      | rfl
      | exact absurd h Kind.noConfusion

theorem GrowsTo.exists_row (h : (row columns).GrowsTo wider) :
    ∃ wide, wider = row wide ∧ GrowTo columns wide := by
  cases wider with
  | row wide => exact ⟨wide, rfl, h⟩
  | _ => cases h

mutual

theorem write_of_growsTo : ∀ {schema wider : Schema} {x : Value} {sink sink' : Sink},
    schema.GrowsTo wider → schema.write x sink = .ok () sink' → wider.write x sink = .ok () sink'
  | .int, _, _, _, _, hGrows, h => hGrows.eq_of_kind_ne Kind.noConfusion ▸ h
  | .long, _, _, _, _, hGrows, h => hGrows.eq_of_kind_ne Kind.noConfusion ▸ h
  | .string, _, _, _, _, hGrows, h => hGrows.eq_of_kind_ne Kind.noConfusion ▸ h
  | .bytes, _, _, _, _, hGrows, h => hGrows.eq_of_kind_ne Kind.noConfusion ▸ h
  | .row columns, wider, x, sink, sink', hGrows, h => by
    obtain ⟨wide, rfl, hGrow⟩ := hGrows.exists_row
    cases x with
    | row origin xs =>
      have hLength := hGrow.length_le
      simp only [write, bind, EStateM.bind, writeArity_eq] at h ⊢
      by_cases hWide : columns.length < xs.length ∨ UInt32.size ≤ xs.length
      · rw [if_pos hWide] at h
        cases h
      · rw [if_neg hWide] at h
        rw [if_neg (by omega)]
        exact writeColumns_of_growTo hGrow (by omega) h
    | _ => cases h

theorem writeColumns_of_growTo : ∀ {columns wide : List Schema} {xs : List Value}
    {sink sink' : Sink}, GrowTo columns wide → xs.length ≤ columns.length →
    writeColumns columns xs sink = .ok () sink' → writeColumns wide xs sink = .ok () sink'
  | [], [], [], _, _, _, _, h => h
  | [], _ :: _, [], _, _, _, _, h => h
  | _ :: _, _ :: _, [], _, _, _, _, h => h
  | [], _, _ :: _, _, _, _, hLength, _ => by simp at hLength
  | schema :: columns, wider :: wide, x :: xs, sink, sink', hGrow, hLength, h => by
    simp only [writeColumns, bind, EStateM.bind] at h ⊢
    split at h
    · rename_i sink₁ hFirst
      rw [write_of_growsTo hGrow.1 hFirst]
      exact writeColumns_of_growTo hGrow.2 (by simpa using hLength) h
    · cases h

end

theorem le_of_readArity {columns arity : Nat} {cursor next : Cursor}
    (h : readArity columns cursor = .ok arity next) : arity ≤ columns ∧ arity < UInt32.size := by
  rw [readArity_eq] at h
  split at h
  · rename_i word stop hWord
    split at h
    · cases h
    · cases h
      exact ⟨by omega, word.toNat_lt_size⟩
  · cases h

/-- What is wrong with a row of that many columns. -/
def arityFault? (columns arity : Nat) : Option Error :=
  if columns < arity then some (.arityOverflow arity columns) else none

theorem readArity_outgrows {columns wide : Nat} (h : columns ≤ wide) :
    (readArity columns).Outgrows (readArity wide) (arityFault? columns) := by
  intro cursor
  rw [readArity_eq, readArity_eq]
  cases Reader.varint32 cursor with
  | ok word next =>
    dsimp only
    by_cases hNarrow : columns < word.toNat
    · rw [if_pos hNarrow]
      refine .refused next hNarrow ?_
      intro arity last hWide
      split at hWide
      · cases hWide
      · cases hWide
        exact if_pos hNarrow
    · rw [if_neg hNarrow, if_neg (by omega)]
      exact .ok (if_neg hNarrow)
  | error e next => exact .error e next

theorem misfit?_row_of_length {origin : Origin} (hCount : xs.length < UInt32.size) :
    misfit? (.row columns) (.row origin xs) =
      (arityFault? columns.length xs.length).or (misfitColumns? columns xs) := by
  rw [misfit?, arityFault?]
  by_cases hWide : columns.length < xs.length
  · rw [if_pos (.inl hWide), if_pos hWide, Option.some_or]
  · rw [if_neg (by omega), if_neg hWide, Option.none_or]

theorem outgrows_leaf (h : schema.GrowsTo wider) (hLeaf : schema.kind ≠ .row) :
    schema.read.Outgrows wider.read schema.misfit? := by
  rw [h.eq_of_kind_ne hLeaf]
  apply Reader.outgrows_of_ok
  intro cursor x next hRead
  exact misfit?_eq_none_iff.mpr (conforms_of_read hRead)

mutual

theorem read_outgrows : ∀ {schema wider : Schema}, schema.GrowsTo wider →
    schema.read.Outgrows wider.read schema.misfit?
  | .int, _, h => outgrows_leaf h Kind.noConfusion
  | .long, _, h => outgrows_leaf h Kind.noConfusion
  | .string, _, h => outgrows_leaf h Kind.noConfusion
  | .bytes, _, h => outgrows_leaf h Kind.noConfusion
  | .row columns, wider, h => by
    obtain ⟨wide, rfl, hGrow⟩ := h.exists_row
    have hStart : (get : Reader Cursor).Outgrows get fun _ => none :=
      Reader.outgrows_of_ok fun _ _ _ _ => rfl
    unfold read
    apply hStart.bind
    · intro _ start _ _ _
      apply (readArity_outgrows hGrow.length_le).bind
      · intro _ arity _ hArity hNarrow
        have hFits := le_of_readArity hArity
        have hColumns : arity ≤ columns.length := by
          unfold arityFault? at hNarrow
          split at hNarrow
          · cases hNarrow
          · omega
        apply (readColumns_outgrows hGrow hColumns).map
        intro _ xs _ hRead
        have hLength := length_of_readColumns hFits.1 hRead
        rw [misfit?_row_of_length (hLength ▸ hFits.2), hLength, hNarrow, Option.none_or]
      · intro _ arity next x last hArity hRead e hFault
        have hFits := le_of_readArity hArity
        simp only [bind, EStateM.bind] at hRead
        split at hRead
        · rename_i xs _ hColumns
          cases hRead
          have hLength := length_of_readColumns hFits.1 hColumns
          rw [misfit?_row_of_length (hLength ▸ hFits.2), hLength, hFault, Option.some_or]
        · cases hRead
    · intro _ _ _ _ _ _ _ e hFault
      cases hFault

theorem readColumns_outgrows : ∀ {columns wide : List Schema} {arity : Nat}, GrowTo columns wide →
    arity ≤ columns.length →
    (readColumns columns arity).Outgrows (readColumns wide arity) (misfitColumns? columns)
  | columns, wide, 0, _, _ => by
    have hEmpty (columns : List Schema) : readColumns columns 0 = pure [] := by
      cases columns <;> rfl
    rw [hEmpty, hEmpty]
    apply Reader.outgrows_pure
    cases columns <;> rfl
  | [], _, arity + 1, _, hArity => by simp at hArity
  | schema :: columns, wider :: wide, arity + 1, hGrow, hArity => by
    unfold readColumns
    apply (read_outgrows hGrow.1).bind
    · intro _ x _ _ hFits
      apply (readColumns_outgrows hGrow.2 (Nat.le_of_succ_le_succ hArity)).map
      intro _ xs _ _
      rw [misfitColumns?, hFits, Option.none_or]
    · intro _ x next xs last _ hRead e hFault
      simp only [bind, EStateM.bind] at hRead
      split at hRead
      · cases hRead
        rw [misfitColumns?, hFault, Option.some_or]
      · cases hRead

end

/-- No row in the value has more columns than the schema has in its place. -/
def AritiesFit (schema : Schema) (x : Value) : Prop :=
  ∀ path columns origin xs, descend? schema x path = some (.row columns, .row origin xs) →
    xs.length ≤ columns.length

theorem aritiesFit_of_misfit? (h : misfit? schema x = none) : schema.AritiesFit x := by
  intro path columns origin xs hPath
  have hFault := fault?_eq_none_of_descend? h hPath
  rw [fault?] at hFault
  split at hFault
  · cases hFault
  · omega

theorem not_aritiesFit_of_firstFault {path : List Nat} {arity count : Nat}
    (h : FirstFault schema x path (.arityOverflow arity count)) (hWide : count < arity) :
    ¬schema.AritiesFit x := by
  obtain ⟨s, y, hPath, hFault⟩ := h.found
  intro hFits
  cases s with
  | row columns =>
    cases y with
    | row origin xs =>
      have hColumns := hFits path columns origin xs hPath
      rw [fault?] at hFault
      split at hFault
      · cases hFault
        omega
      · cases hFault
    | _ => cases hFault
  | _ => cases y <;> cases hFault

/-- Under a schema and under one that it grows to, the same is written, and the same is read as long
as no row is too wide for the former. It refuses the first row that is. -/
theorem read_of_grown (h : schema.GrowsTo wider) :
    (∀ x sink sink', schema.write x sink = .ok () sink' → wider.write x sink = .ok () sink') ∧
    (∀ cursor x next, schema.read cursor = .ok x next → wider.read cursor = .ok x next) ∧
    (∀ cursor x next, wider.read cursor = .ok x next →
      (schema.AritiesFit x → schema.read cursor = .ok x next) ∧
      (¬schema.AritiesFit x → ∃ path arity columns stop, columns < arity ∧
        FirstFault schema x path (.arityOverflow arity columns) ∧
        schema.read cursor = .error (.corruption (.rowTooWide arity columns)) stop)) := by
  refine ⟨fun x sink sink' => write_of_growsTo h, ?_, ?_⟩
  · intro cursor x next hRead
    have hOutgrown := read_outgrows h cursor
    rw [hRead] at hOutgrown
    generalize wider.read cursor = outcome at hOutgrown
    cases hOutgrown
    rfl
  · intro cursor x next hRead
    have hOutgrown := read_outgrows h cursor
    rw [hRead] at hOutgrown
    generalize schema.read cursor = outcome at hOutgrown
    cases hOutgrown with
    | ok hFits => exact ⟨fun _ => rfl, fun hWide => absurd (aritiesFit_of_misfit? hFits) hWide⟩
    | refused stop hArity hRow =>
      obtain ⟨path, hFirst⟩ := exists_firstFault (hRow x next rfl)
      constructor
      · intro hFits
        exact absurd hFits (not_aritiesFit_of_firstFault hFirst hArity)
      · intro _
        exact ⟨path, _, _, stop, hArity, hFirst, rfl⟩

/-- Columns are appended to the outer and to the inner row. A row that has none of them is written
and read alike under both schemas. One that has the new column of the inner row is refused under the
old one. -/
theorem read_of_grown_inner :
    let narrow := row [int, .row [string]]
    let wide := row [int, .row [string, long], bytes]
    let x : Value := .row {} [.int 5, .row {} [.string { string := "A" }]]
    (∃ sink, narrow.write x {} = .ok () sink ∧ wide.write x {} = .ok () sink ∧
      sink.toList = [2, 5, 1, 1, 65]) ∧
    (∃ y, narrow.read ⟨0, 0, [2, 5, 1, 1, 65, 9]⟩ = .ok y ⟨0, 5, [9]⟩ ∧
      wide.read ⟨0, 0, [2, 5, 1, 1, 65, 9]⟩ = .ok y ⟨0, 5, [9]⟩ ∧ y.content = x.content) ∧
    ∃ arity columns stop, columns < arity ∧
      narrow.read ⟨0, 0, [2, 5, 2, 1, 65, 7]⟩ =
        .error (.corruption (.rowTooWide arity columns)) stop := by
  intro narrow wide x
  have hGrows : narrow.GrowsTo wide := ⟨rfl, ⟨rfl, trivial⟩, trivial⟩
  obtain ⟨hWritten, hBefore, hAfter⟩ := read_of_grown hGrows
  refine ⟨?_, ?_, ?_⟩
  · let sink := ((({} : Sink).putVarint32 2).putVarint32 5).putVarint32 1 |>.putBlob { bytes := [65] }
    have hWrite : narrow.write x {} = .ok () sink := rfl
    have hEmpty : ({} : Sink).toList = [] := rfl
    refine ⟨sink, hWrite, hWritten x {} sink hWrite, ?_⟩
    simp [sink, hEmpty, Varint.encode_of_lt]
  · have hRead : narrow.read ⟨0, 0, [2, 5, 1, 1, 65, 9]⟩ =
        .ok (.row {} [.int 5, .row ⟨0, 2⟩ [.string { string := "A" }]]) ⟨0, 5, [9]⟩ := rfl
    exact ⟨_, hRead, hBefore _ _ _ hRead, rfl⟩
  · obtain ⟨-, hRefused⟩ := hAfter ⟨0, 0, [2, 5, 2, 1, 65, 7]⟩ _ _ rfl
    have hWide : ¬narrow.AritiesFit
        (.row {} [.int 5, .row ⟨0, 2⟩ [.string { string := "A" }, .long 7]]) := by
      intro hFits
      have hInner := hFits [1] [string] ⟨0, 2⟩ [.string { string := "A" }, .long 7] rfl
      exact absurd hInner (by decide)
    obtain ⟨path, arity, columns, stop, hArity, -, hRead⟩ := hRefused hWide
    exact ⟨arity, columns, stop, hArity, hRead⟩

end Schema

end RowStore
