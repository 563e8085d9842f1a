import RowStore.Storage.Codec
import RowStore.Proofs.Misfit
import RowStore.Proofs.Reading

/-!
# Writing that breaks off

A value that does not fit is refused for its first place at fault. What was written before that
place is too short to be read: reading runs out of bytes at the place where writing broke off,
however deep it lies (`failed_write_starves`). The same is true of slots that cannot all be written.
-/

namespace RowStore

namespace Writer

/-- Whatever the sink holds, the writer appends `data`. -/
def Appends (writer : Writer Unit) (data : Bytes) : Prop :=
  ∀ sink, ∃ sink', writer sink = .ok () sink' ∧ sink'.toList = sink.toList ++ data

/-- Whatever the sink holds, the writer appends `data` and fails. -/
def Fails (writer : Writer Unit) (e : Error) (data : Bytes) : Prop :=
  ∀ sink, ∃ sink', writer sink = .error e sink' ∧ sink'.toList = sink.toList ++ data

variable {writer next : Writer Unit} {f : Unit → Writer Unit} {data rest : Bytes} {e : Error}

theorem fails_throw (e : Error) : (throw e : Writer Unit).Fails e [] :=
  fun sink => ⟨sink, rfl, (List.append_nil _).symm⟩

theorem Fails.of_error {e' : Error} {sink sink' : Sink} (h : writer.Fails e data)
    (hWrite : writer sink = .error e' sink') : e = e' ∧ sink'.toList = sink.toList ++ data := by
  obtain ⟨stop, hStop, hList⟩ := h sink
  rw [hWrite] at hStop
  cases hStop
  exact ⟨rfl, hList⟩

theorem Fails.bind (h : writer.Fails e data) : (writer >>= f).Fails e data := by
  intro sink
  obtain ⟨sink', hWrite, hList⟩ := h sink
  refine ⟨sink', ?_, hList⟩
  simp only [Bind.bind, EStateM.bind, hWrite]

theorem Appends.bind_fails (h : writer.Appends data) (hNext : next.Fails e rest) :
    (do writer; next).Fails e (data ++ rest) := by
  intro sink
  obtain ⟨sink', hWrite, hList⟩ := h sink
  obtain ⟨sink'', hFail, hMore⟩ := hNext sink'
  refine ⟨sink'', ?_, ?_⟩
  · simp only [Bind.bind, EStateM.bind, hWrite]
    exact hFail
  · rw [hMore, hList, List.append_assoc]

theorem Appends.bind (h : writer.Appends data) (hNext : next.Appends rest) :
    (do writer; next).Appends (data ++ rest) := by
  intro sink
  obtain ⟨sink', hWrite, hList⟩ := h sink
  obtain ⟨sink'', hMore, hListMore⟩ := hNext sink'
  refine ⟨sink'', ?_, ?_⟩
  · simp only [Bind.bind, EStateM.bind, hWrite]
    exact hMore
  · rw [hListMore, hList, List.append_assoc]

end Writer

namespace Reader

variable {α β : Type} {reader : Reader α} {f : α → Reader β} {data : Bytes}

/-- Wherever it stands, the reader needs more than `data`. -/
def Starves (reader : Reader α) (data : Bytes) : Prop :=
  ∀ source position, ∃ next, reader ⟨source, position, data⟩ = .error .eof next

theorem Starves.bind (h : reader.Starves data) : (reader >>= f).Starves data := by
  intro source position
  obtain ⟨next, hRead⟩ := h source position
  exact ⟨next, bind_of_error hRead f⟩

end Reader

namespace Schema

theorem write_appends {schema : Schema} {x : Value} (h : Conforms schema x) :
    (write schema x).Appends x.encoding := fun sink => write_of_conforms sink h

theorem write_fails_of_fault {schema : Schema} {x : Value} {e : Error}
    (h : fault? schema x = some e) : (write schema x).Fails e [] := by
  intro sink
  refine ⟨sink, ?_, (List.append_nil _).symm⟩
  cases schema with
  | row columns =>
    cases x with
    | row origin xs =>
      rw [fault?] at h
      split at h
      · rename_i hWide
        cases h
        simp only [write, bind, EStateM.bind, writeArity_eq, if_pos hWide]
      · cases h
    | _ => cases h; rfl
  | _ => cases x <;> cases h <;> rfl

theorem writeArity_appends {arity columns : Nat} (hColumns : arity ≤ columns)
    (hCount : arity < UInt32.size) : (writeArity arity columns).Appends (Varint.encode arity) := by
  intro sink
  refine ⟨sink.putVarint32 arity.toUInt32, ?_, ?_⟩
  · rw [writeArity_eq, if_neg (by omega)]
  · rw [Sink.toList_putVarint32, toNat_toUInt32_of_lt hCount]

theorem starves_nil (schema : Schema) : (read schema).Starves [] := by
  intro source position
  cases schema <;> exact ⟨_, rfl⟩

theorem starves_row {columns : List Schema} {arity : Nat} {data : Bytes}
    (hColumns : arity ≤ columns.length) (hCount : arity < UInt32.size)
    (h : (readColumns columns arity).Starves data) :
    (read (.row columns)).Starves (Varint.encode arity ++ data) := by
  intro source position
  obtain ⟨next, hRead⟩ := h source (position + (Varint.encode arity).length)
  refine ⟨next, ?_⟩
  simp only [read, bind, EStateM.bind, Reader.get_eq,
    readArity_encode source position data hCount hColumns, hRead]

theorem starves_columns {schema : Schema} {columns : List Schema} {x : Value} {arity : Nat}
    {data : Bytes} (hFits : Conforms schema x) (h : (readColumns columns arity).Starves data) :
    (readColumns (schema :: columns) (arity + 1)).Starves (x.encoding ++ data) := by
  intro source position
  obtain ⟨y, hFirst, -⟩ := read_encoding source position data hFits
  obtain ⟨next, hRead⟩ := h source (position + x.encoding.length)
  refine ⟨next, ?_⟩
  rw [readColumns, Reader.bind_of_ok hFirst]
  exact Reader.bind_of_error hRead _

/-- What is written of a value that does not fit, and why it cannot be read. -/
structure BreaksOff (writer : Writer Unit) {α : Type} (reader : Reader α) (e : Error)
    (data : Bytes) : Prop where
  fails : writer.Fails e data
  starves : reader.Starves data

theorem breaksOff_here {schema : Schema} {x : Value} {e : Error} (h : fault? schema x = some e) :
    BreaksOff (write schema x) (read schema) e [] :=
  ⟨write_fails_of_fault h, starves_nil schema⟩

theorem exists_breaksOff_here {schema : Schema} {x : Value} {e : Error}
    (hLeaf : schema.kind ≠ .row ∨ x.kind ≠ .row) (h : misfit? schema x = some e) :
    ∃ data, BreaksOff (write schema x) (read schema) e data :=
  ⟨[], breaksOff_here (misfit?_eq_fault? hLeaf ▸ h)⟩

mutual

theorem exists_breaksOff : ∀ {schema : Schema} {x : Value} {e : Error},
    misfit? schema x = some e → ∃ data, BreaksOff (write schema x) (read schema) e data
  | .int, _, _, h => exists_breaksOff_here (.inl Kind.noConfusion) h
  | .long, _, _, h => exists_breaksOff_here (.inl Kind.noConfusion) h
  | .string, _, _, h => exists_breaksOff_here (.inl Kind.noConfusion) h
  | .bytes, _, _, h => exists_breaksOff_here (.inl Kind.noConfusion) h
  | .row columns, x, e, h => by
    cases x with
    | row origin xs =>
      rw [misfit?] at h
      split at h
      · rename_i hWide
        refine ⟨[], breaksOff_here ?_⟩
        rw [fault?, if_pos hWide, h]
      · obtain ⟨data, hFails, hStarves⟩ := exists_breaksOff_columns h
        have hColumns : xs.length ≤ columns.length := by omega
        have hCount : xs.length < UInt32.size := by omega
        refine ⟨Varint.encode xs.length ++ data, ?_, starves_row hColumns hCount hStarves⟩
        rw [write]
        exact (writeArity_appends hColumns hCount).bind_fails hFails
    | _ => exact exists_breaksOff_here (.inr Kind.noConfusion) h

theorem exists_breaksOff_columns : ∀ {columns : List Schema} {xs : List Value} {e : Error},
    misfitColumns? columns xs = some e →
    ∃ data, BreaksOff (writeColumns columns xs) (readColumns columns xs.length) e data
  | [], _, _, h => by simp [misfitColumns?] at h
  | _ :: _, [], _, h => by simp [misfitColumns?] at h
  | schema :: columns, x :: xs, e, h => by
    rw [misfitColumns?, Option.or_eq_some_iff] at h
    rw [writeColumns, List.length_cons]
    rcases h with h | ⟨hFits, hRest⟩
    · obtain ⟨data, hFails, hStarves⟩ := exists_breaksOff h
      refine ⟨data, hFails.bind, ?_⟩
      rw [readColumns]
      exact hStarves.bind
    · obtain ⟨data, hFails, hStarves⟩ := exists_breaksOff_columns hRest
      have hConforms := misfit?_eq_none_iff.mp hFits
      exact ⟨x.encoding ++ data, (write_appends hConforms).bind_fails hFails,
        starves_columns hConforms hStarves⟩

end

theorem write_of_misfit {schema : Schema} {x : Value} {e : Error} (sink : Sink)
    (h : misfit? schema x = some e) : ∃ sink', write schema x sink = .error e sink' := by
  obtain ⟨data, hFails, -⟩ := exists_breaksOff h
  obtain ⟨sink', hWrite, -⟩ := hFails sink
  exact ⟨sink', hWrite⟩

/-- No reading into slots gets past `data`. -/
def SlotsStarve (schema : Schema) (count : Nat) (data : Bytes) : Prop :=
  ∀ (slots : Storage) (source position : Nat), count ≤ slots.length →
    (schema.readSlots count slots ⟨source, position, data⟩).outcome = .error .eof

theorem slotsStarve_of_read {schema : Schema} {data : Bytes} (h : (read schema).Starves data)
    (count : Nat) : schema.SlotsStarve (count + 1) data := by
  intro slots source position hCount
  cases slots with
  | nil => simp at hCount
  | cons slot slots =>
    obtain ⟨next, hRead⟩ := h source position
    rw [readSlots, hRead]

theorem SlotsStarve.cons {schema : Schema} {x : Value} {count : Nat} {data : Bytes}
    (hFits : Conforms schema x) (h : schema.SlotsStarve count data) :
    schema.SlotsStarve (count + 1) (x.encoding ++ data) := by
  intro slots source position hCount
  cases slots with
  | nil => simp at hCount
  | cons slot slots =>
    obtain ⟨y, hRead, -⟩ := read_encoding source position data hFits
    rw [readSlots, hRead]
    exact h slots source (position + x.encoding.length) (by simpa using hCount)

/-- Writing slots succeeds on every sink, or fails on every sink and leaves too little behind. -/
theorem writeSlots_dichotomy (schema : Schema) : ∀ (slots : Storage) (index : Nat),
    (∃ data, (schema.writeSlots index slots).Appends data) ∨
      ∃ e data, (schema.writeSlots index slots).Fails e data ∧
        schema.SlotsStarve slots.length data
  | [], index => .inl ⟨[], fun sink => ⟨sink, rfl, (List.append_nil _).symm⟩⟩
  | none :: slots, index => by
    right
    exact ⟨_, [], Writer.fails_throw _, slotsStarve_of_read schema.starves_nil slots.length⟩
  | some x :: slots, index => by
    rw [writeSlots]
    cases hMisfit : schema.misfit? x with
    | some e =>
      obtain ⟨data, hFails, hStarves⟩ := exists_breaksOff hMisfit
      exact .inr ⟨e, data, hFails.bind, slotsStarve_of_read hStarves slots.length⟩
    | none =>
      have hConforms := misfit?_eq_none_iff.mp hMisfit
      have hFirst := write_appends hConforms
      rcases schema.writeSlots_dichotomy slots (index + 1) with
        ⟨data, hAppends⟩ | ⟨e, data, hFails, hStarves⟩
      · exact .inl ⟨x.encoding ++ data, hFirst.bind hAppends⟩
      · exact .inr ⟨e, x.encoding ++ data, hFirst.bind_fails hFails, hStarves.cons hConforms⟩

theorem writeStorage_eq (schema : Schema) (slots : Storage) (len : Nat) :
    schema.writeStorage slots len =
      if slots.length < len then throw (.corruption (.slotsMissing len slots.length))
      else schema.writeSlots 0 (slots.take len) := by
  unfold writeStorage
  split <;> rfl

theorem writeStorage_breaks_off {schema : Schema} {slots : Storage} {len : Nat}
    {sink sink' : Sink} {e : Error} (h : schema.writeStorage slots len sink = .error e sink') :
    ∃ data, (schema.writeStorage slots len).Fails e data ∧ schema.SlotsStarve len data := by
  rw [writeStorage_eq] at h ⊢
  by_cases hMissing : slots.length < len
  · rw [if_pos hMissing] at h ⊢
    cases h
    obtain ⟨count, rfl⟩ := Nat.exists_eq_succ_of_ne_zero (n := len) (by omega)
    exact ⟨[], Writer.fails_throw _, slotsStarve_of_read schema.starves_nil count⟩
  · rw [if_neg hMissing] at h ⊢
    rcases schema.writeSlots_dichotomy (slots.take len) 0 with
      ⟨data, hAppends⟩ | ⟨e', data, hFails, hStarves⟩
    · obtain ⟨_, hWrite, -⟩ := hAppends sink
      rw [hWrite] at h
      cases h
    · obtain ⟨rfl, -⟩ := hFails.of_error h
      rw [List.length_take_of_le (Nat.le_of_not_lt hMissing)] at hStarves
      exact ⟨data, hFails, hStarves⟩

/-- A value that does not fit is refused for the first place at fault. What was written of it, and
of slots that cannot all be written, does not depend on what the sink held, and is too short for
every reader. -/
theorem failed_write_starves (schema : Schema) :
    (∀ x, ¬schema.Conforms x → ∃ path e data, FirstFault schema x path e ∧
      (schema.write x).Fails e data ∧ (path = [] → data = []) ∧ schema.read.Starves data) ∧
    (∀ slots len sink e sink', schema.writeStorage slots len sink = .error e sink' →
      ∃ data, (schema.writeStorage slots len).Fails e data ∧
        ∀ (target : Storage) source position, len ≤ target.length →
          (schema.readStorage target len ⟨source, position, data⟩).outcome = .error .eof) := by
  constructor
  · intro x hMisfit
    cases hError : schema.misfit? x with
    | none => exact absurd (misfit?_eq_none_iff.mp hError) hMisfit
    | some e =>
      obtain ⟨path, hFirst⟩ := exists_firstFault hError
      cases path with
      | nil =>
        obtain ⟨_, _, hPath, hFault⟩ := hFirst.found
        cases hPath
        obtain ⟨hFails, hStarves⟩ := breaksOff_here hFault
        exact ⟨[], e, [], hFirst, hFails, fun _ => rfl, hStarves⟩
      | cons index path =>
        obtain ⟨data, hFails, hStarves⟩ := exists_breaksOff hError
        refine ⟨index :: path, e, data, hFirst, hFails, ?_, hStarves⟩
        intro hPath
        cases hPath
  · intro slots len sink e sink' hWrite
    obtain ⟨data, hFails, hStarves⟩ := writeStorage_breaks_off hWrite
    refine ⟨data, hFails, ?_⟩
    intro target source position hLength
    rw [readStorage, if_neg (Nat.not_lt.mpr hLength)]
    exact hStarves target source position hLength

/-- A column of the inner row is at fault, after the outer row and the columns before it are
written. The storage has an empty slot behind a filled one. -/
theorem failed_write_starves_inner :
    let schema := row [.int, .row [.string, .int]]
    let x : Value := .row {} [.int 5, .row {} [.string { string := "A" }, .long 7]]
    (schema.write x).Fails (.typeMismatch .int .long) [2, 5, 2, 1, 65] ∧
    schema.read.Starves [2, 5, 2, 1, 65] ∧
    (int.writeStorage [some (.int 1), none] 2).Fails (.corruption (.slotEmpty 1)) [1] ∧
    (int.readStorage (.blank 2) 2 ⟨0, 0, [1]⟩).outcome = .error .eof := by
  intro schema x
  have hEmpty : ({} : Sink).toList = [] := rfl
  have hMisfit : ¬schema.Conforms x := by
    simp [schema, x, Conforms, ConformAll, kind, Value.kind]
  obtain ⟨path, e, data, -, hFails, -, hStarves⟩ := (failed_write_starves schema).1 x hMisfit
  let stop : Sink := ((({} : Sink).putVarint32 2).putVarint32 5).putVarint32 2
  have hStop : schema.write x {} =
      .error (.typeMismatch .int .long) (stop.putBlob { bytes := [65] }) := rfl
  have hData : (stop.putBlob { bytes := [65] }).toList = [2, 5, 2, 1, 65] := by
    simp [stop, hEmpty, Varint.encode_of_lt]
  obtain ⟨rfl, hList⟩ := hFails.of_error hStop
  rw [hData, hEmpty, List.nil_append] at hList
  subst hList
  have hSlot : int.writeStorage [some (.int 1), none] 2 {} =
      .error (.corruption (.slotEmpty 1)) (({} : Sink).putVarint32 1) := rfl
  obtain ⟨data, hFailsSlots, hStarvesSlots⟩ := (failed_write_starves int).2 _ _ _ _ _ hSlot
  obtain ⟨-, hListSlots⟩ := hFailsSlots.of_error hSlot
  have hDataSlots : (({} : Sink).putVarint32 1).toList = [1] := by
    simp [hEmpty, Varint.encode_of_lt]
  rw [hDataSlots, hEmpty, List.nil_append] at hListSlots
  subst hListSlots
  exact ⟨hFails, hStarves, hFailsSlots, hStarvesSlots (.blank 2) 0 0 (by decide)⟩

end Schema

end RowStore
