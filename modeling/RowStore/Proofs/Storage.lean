import RowStore.Proofs.FailedWrite
import RowStore.Proofs.Placement

/-!
# Slots written and read back

Filled slots are written as the encodings of their values, up to the first value that does not fit.
Reading fills as many slots as it is asked to when the bytes list as many values (`Lists`), else the
slots before the value that failed, and leaves the others as they were (`readSlots_eq_iff`).
-/

namespace RowStore

namespace Storage

/-- Filled slots, and empty ones behind them. -/
def filled (xs : List Value) (room : Nat) : Storage := xs.map some ++ blank room

@[simp] theorem length_filled (xs : List Value) (room : Nat) :
    (filled xs room).length = xs.length + room := by
  simp [filled, blank]

@[simp] theorem values_append (slots others : Storage) :
    values (slots ++ others) = values slots ++ values others := List.filterMap_append

@[simp] theorem values_map_some (xs : List Value) : values (xs.map some) = xs := by
  simp [values, List.filterMap_map]

@[simp] theorem values_blank (room : Nat) : values (blank room) = [] := by
  simp [values, blank]

theorem values_filled (xs : List Value) (room : Nat) : (filled xs room).values = xs := by
  rw [filled, values_append, values_map_some, values_blank, List.append_nil]

theorem getElem?_filled_of_lt {xs : List Value} {index : Nat} (h : index < xs.length) (room : Nat) :
    (filled xs room)[index]? = some (some xs[index]) := by
  rw [filled, List.getElem?_append_left (by simpa using h), List.getElem?_map,
    List.getElem?_eq_getElem h]
  rfl

theorem getElem?_filled_of_le {xs : List Value} {index room : Nat} (h : xs.length ≤ index)
    (hRoom : index < xs.length + room) : (filled xs room)[index]? = some none := by
  rw [filled, blank, List.getElem?_append_right (by simpa using h), List.getElem?_replicate,
    List.length_map, if_pos (by omega)]

theorem value?_filled (xs : List Value) (room index : Nat) :
    (filled xs room).value? index = xs[index]? := by
  unfold value?
  by_cases h : index < xs.length
  · rw [getElem?_filled_of_lt h, List.getElem?_eq_getElem h]
    rfl
  · rw [List.getElem?_eq_none (Nat.not_lt.mp h)]
    by_cases hRoom : index < xs.length + room
    · rw [getElem?_filled_of_le (Nat.not_lt.mp h) hRoom]
      rfl
    · rw [List.getElem?_eq_none (by simpa using hRoom)]
      rfl

end Storage

namespace Schema

theorem writeSlots_appends (schema : Schema) : ∀ {xs : List Value} (index : Nat),
    (∀ x ∈ xs, schema.Conforms x) →
    (schema.writeSlots index (xs.map some)).Appends (Value.encodingAll xs)
  | [], index, _ => fun sink => ⟨sink, rfl, (List.append_nil _).symm⟩
  | x :: xs, index, h => by
    have hFirst := write_appends (h x List.mem_cons_self)
    have hRest := writeSlots_appends schema (index + 1) fun y hy => h y (List.mem_cons_of_mem x hy)
    rw [List.map_cons, writeSlots, Value.encodingAll]
    exact hFirst.bind hRest

theorem exists_writeSlots_fails (schema : Schema) {e : Error} : ∀ {xs : List Value} (index : Nat),
    xs.findSome? schema.misfit? = some e →
    ∃ data, (schema.writeSlots index (xs.map some)).Fails e data
  | [], index, h => by cases h
  | x :: xs, index, h => by
    rw [List.findSome?_cons] at h
    rw [List.map_cons, writeSlots]
    cases hMisfit : schema.misfit? x with
    | some e' =>
      rw [hMisfit] at h
      cases h
      obtain ⟨data, hFails, -⟩ := exists_breaksOff hMisfit
      exact ⟨data, hFails.bind⟩
    | none =>
      rw [hMisfit] at h
      obtain ⟨data, hFails⟩ := exists_writeSlots_fails schema (index + 1) h
      have hFirst := write_appends (misfit?_eq_none_iff.mp hMisfit)
      exact ⟨x.encoding ++ data, hFirst.bind_fails hFails⟩

/-- Values read one after another, each from where the one before it left the cursor. -/
inductive ReadsInTurn (schema : Schema) : Cursor → List Value → Cursor → Prop where
  | nil (cursor : Cursor) : ReadsInTurn schema cursor [] cursor
  | cons {cursor mid last : Cursor} {x : Value} {xs : List Value} :
    schema.read cursor = .ok x mid → ReadsInTurn schema mid xs last →
    ReadsInTurn schema cursor (x :: xs) last

/-- What filling the first `count` slots leaves behind: the values read in turn in front, and what
was in the other slots behind them. -/
inductive Fills (schema : Schema) (count : Nat) (slots : Storage) (cursor : Cursor) :
    Loaded → Prop where
  | filled {xs : List Value} {next : Cursor} : schema.ReadsInTurn cursor xs next →
    xs.length = count → Fills schema count slots cursor
      ⟨.ok (), xs.map some ++ slots.drop xs.length, next⟩
  | stopped {xs : List Value} {mid next : Cursor} {e : Error} :
    schema.ReadsInTurn cursor xs mid → schema.read mid = .error e next → xs.length < count →
    Fills schema count slots cursor ⟨.error e, xs.map some ++ slots.drop xs.length, next⟩

section Filling

variable {schema : Schema} {count : Nat} {slots : Storage} {cursor mid next : Cursor}
  {xs : List Value} {x : Value} {slot : Option Value} {loaded : Loaded} {e : Error}

theorem ReadsInTurn.readSlots_eq (h : schema.ReadsInTurn cursor xs next)
    (hLength : xs.length ≤ slots.length) :
    schema.readSlots xs.length slots cursor =
      ⟨.ok (), xs.map some ++ slots.drop xs.length, next⟩ := by
  induction h generalizing slots with
  | nil cursor =>
    rw [List.length_nil, readSlots]
    · rfl
    · rintro _ _ _ ⟨⟩
  | cons hRead _ ih =>
    cases slots with
    | nil => simp at hLength
    | cons slot slots =>
      rw [List.length_cons, readSlots, hRead]
      simp only [ih (by simpa using hLength)]
      rfl

theorem ReadsInTurn.readSlots_stops (h : schema.ReadsInTurn cursor xs mid)
    (hRead : schema.read mid = .error e next) (hCount : xs.length < count)
    (hLength : count ≤ slots.length) :
    schema.readSlots count slots cursor =
      ⟨.error e, xs.map some ++ slots.drop xs.length, next⟩ := by
  induction h generalizing slots count with
  | nil cursor =>
    cases slots with
    | nil => exact absurd hLength (Nat.not_le.mpr hCount)
    | cons slot slots =>
      obtain ⟨count, rfl⟩ := Nat.exists_eq_succ_of_ne_zero (Nat.ne_of_gt hCount)
      rw [readSlots, hRead]
      rfl
  | cons hFirst _ ih =>
    cases count with
    | zero => cases hCount
    | succ count =>
      cases slots with
      | nil => simp at hLength
      | cons slot slots =>
        rw [readSlots, hFirst]
        simp only [ih hRead (by simpa using hCount) (by simpa using hLength)]
        rfl

theorem Fills.cons (hRead : schema.read cursor = .ok x mid) (h : schema.Fills count slots mid loaded) :
    schema.Fills (count + 1) (slot :: slots) cursor
      { loaded with slots := some x :: loaded.slots } := by
  cases h with
  | filled hTurn hCount => exact .filled (.cons hRead hTurn) (congrArg Nat.succ hCount)
  | stopped hTurn hStop hCount => exact .stopped (.cons hRead hTurn) hStop (Nat.succ_lt_succ hCount)

theorem fills_readSlots (schema : Schema) : ∀ {count : Nat} {slots : Storage} (cursor : Cursor),
    count ≤ slots.length → schema.Fills count slots cursor (schema.readSlots count slots cursor)
  | 0, slots, cursor, _ => by
    rw [readSlots]
    · exact .filled (.nil cursor) rfl
    · rintro _ _ _ ⟨⟩
  | count + 1, [], cursor, hLength => by simp at hLength
  | count + 1, slot :: slots, cursor, hLength => by
    rw [readSlots]
    split
    · rename_i x mid hRead
      exact (fills_readSlots schema mid (by simpa using hLength)).cons hRead
    · rename_i e next hRead
      exact .stopped (.nil cursor) hRead (Nat.succ_pos count)

theorem readSlots_eq_iff (hLength : count ≤ slots.length) :
    schema.readSlots count slots cursor = loaded ↔ schema.Fills count slots cursor loaded := by
  constructor
  · rintro rfl
    exact schema.fills_readSlots cursor hLength
  · intro h
    cases h with
    | filled hTurn hCount =>
      subst hCount
      exact hTurn.readSlots_eq hLength
    | stopped hTurn hRead hCount => exact hTurn.readSlots_stops hRead hCount hLength

end Filling

/-- The bytes are values one after another, each part read in full as the value in its place. -/
inductive Lists (schema : Schema) : Bytes → List Value → Prop where
  | nil : Lists schema [] []
  | cons {part rest : Bytes} {x : Value} {xs : List Value} :
    schema.ReadsAs part x → Lists schema rest xs → Lists schema (part ++ rest) (x :: xs)

theorem Lists.length_le {schema : Schema} {data : Bytes} {xs : List Value}
    (h : schema.Lists data xs) : xs.length ≤ data.length := by
  induction h with
  | nil => exact Nat.le_refl _
  | cons hPart _ ih =>
    have hPos := hPart.length_pos
    rw [List.length_append, List.length_cons]
    omega

theorem exists_lists_encodingAll {schema : Schema} {xs : List Value}
    (h : ∀ x ∈ xs, schema.Conforms x) :
    ∃ ys, schema.Lists (Value.encodingAll xs) ys ∧ ys.map Value.content = xs.map Value.content := by
  induction xs with
  | nil => exact ⟨[], .nil, rfl⟩
  | cons x xs ih =>
    obtain ⟨y, hRead, hContent⟩ := read_encoding 0 0 [] (h x List.mem_cons_self)
    obtain ⟨ys, hLists, hContents⟩ := ih fun z hz => h z (List.mem_cons_of_mem x hz)
    rw [List.append_nil] at hRead
    refine ⟨y :: ys, .cons ⟨_, hRead, rfl⟩ hLists, ?_⟩
    rw [List.map_cons, List.map_cons, hContent, hContents]

theorem Lists.exists_readsInTurn {schema : Schema} {data : Bytes} {xs : List Value}
    (h : schema.Lists data xs) (source : Nat) (rest : Bytes) (position : Nat) :
    ∃ ys : List Value, ys.map Value.content = xs.map Value.content ∧
      schema.ReadsInTurn ⟨source, position, data ++ rest⟩ ys
        ⟨source, position + data.length, rest⟩ := by
  induction h generalizing position with
  | nil => exact ⟨[], rfl, .nil _⟩
  | @cons part others x xs hPart _ ih =>
    obtain ⟨y, hRead, hContent⟩ := hPart.read_eq source position (others ++ rest)
    obtain ⟨ys, hContents, hOthers⟩ := ih (position + part.length)
    refine ⟨y :: ys, by rw [List.map_cons, List.map_cons, hContent, hContents], ?_⟩
    rw [List.append_assoc, List.length_append, ← Nat.add_assoc]
    exact .cons hRead hOthers

theorem Lists.readSlots_eq {schema : Schema} {data : Bytes} {xs : List Value}
    (h : schema.Lists data xs) (source : Nat) (rest : Bytes) {slots : Storage} (position : Nat)
    (hLength : xs.length ≤ slots.length) :
    ∃ ys : List Value, ys.map Value.content = xs.map Value.content ∧
      schema.readSlots xs.length slots ⟨source, position, data ++ rest⟩ =
        ⟨.ok (), ys.map some ++ slots.drop xs.length, ⟨source, position + data.length, rest⟩⟩ := by
  obtain ⟨ys, hContents, hTurn⟩ := h.exists_readsInTurn source rest position
  have hSame : ys.length = xs.length := by simpa using congrArg List.length hContents
  refine ⟨ys, hContents, ?_⟩
  rw [← hSame] at hLength ⊢
  exact hTurn.readSlots_eq hLength

theorem ReadsInTurn.exists_lists {schema : Schema} {cursor next : Cursor} {ys : List Value}
    (h : schema.ReadsInTurn cursor ys next) :
    ∃ taken rest xs, cursor.rest = taken ++ rest ∧ xs.length = ys.length ∧
      schema.Lists taken xs := by
  induction h with
  | nil cursor => exact ⟨[], cursor.rest, [], rfl, rfl, .nil⟩
  | @cons cursor mid last y ys hRead _ ih =>
    obtain ⟨part, others, x, hData, rfl, hPart, -⟩ := exists_readsAs hRead
    obtain ⟨taken, rest, xs, hOthers, hLength, hLists⟩ := ih
    have hSplit : others = taken ++ rest := hOthers
    refine ⟨part ++ taken, rest, x :: xs, ?_, congrArg Nat.succ hLength, .cons hPart hLists⟩
    rw [hData, hSplit, List.append_assoc]

/-- A reading that succeeds has met as many values as it was asked for. -/
theorem exists_lists_of_readSlots (schema : Schema) {source count position : Nat} {slots : Storage}
    {data : Bytes} (hCount : count ≤ slots.length)
    (h : (schema.readSlots count slots ⟨source, position, data⟩).outcome = .ok ()) :
    ∃ taken rest xs, data = taken ++ rest ∧ xs.length = count ∧ schema.Lists taken xs := by
  have hFills := schema.fills_readSlots ⟨source, position, data⟩ hCount
  generalize schema.readSlots count slots ⟨source, position, data⟩ = loaded at h hFills
  cases hFills with
  | filled hTurn hLength => exact hLength ▸ hTurn.exists_lists
  | stopped => cases h

theorem readSlots_error (schema : Schema) {count : Nat} {slots : Storage} {cursor : Cursor}
    {e : Error} (hCount : count ≤ slots.length)
    (h : (schema.readSlots count slots cursor).outcome = .error e) :
    e = .eof ∨ ∃ cause, e = .corruption cause := by
  have hFills := schema.fills_readSlots cursor hCount
  generalize schema.readSlots count slots cursor = loaded at h hFills
  cases hFills with
  | filled => cases h
  | stopped _ hRead _ =>
    cases h
    rcases (steady_read schema).of_error hRead with hEof | ⟨cause, hCause, -⟩
    · exact .inl hEof
    · exact .inr ⟨cause, hCause⟩

end Schema

end RowStore
