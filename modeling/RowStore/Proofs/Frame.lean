import RowStore.Proofs.Storage

/-!
# What bulk reading and writing touch

Slots are written when all of them hold values that fit, as the encodings of these values and
nothing else. Reading changes the slots that it fills and no others, also when it breaks off: the
slots filled by then are those of the values read before the one that failed.
-/

namespace RowStore

namespace Storage

variable {slots : Storage}

theorem eq_map_values (h : ∀ slot ∈ slots, ∃ x, slot = some x) :
    slots = slots.values.map some := by
  induction slots with
  | nil => rfl
  | cons slot slots ih =>
    obtain ⟨x, rfl⟩ := h slot List.mem_cons_self
    have hRest := ih fun other hOther => h other (List.mem_cons_of_mem _ hOther)
    exact congrArg (some x :: ·) hRest

end Storage

namespace Schema

variable {schema : Schema} {slots : Storage} {len : Nat}

/-- Every slot is filled, with a value that fits. -/
def Writable (schema : Schema) (slots : Storage) : Prop :=
  ∀ slot ∈ slots, ∃ x, slot = some x ∧ schema.Conforms x

theorem Writable.eq_map_values (h : schema.Writable slots) : slots = slots.values.map some := by
  apply Storage.eq_map_values
  intro slot hSlot
  obtain ⟨x, hFilled, -⟩ := h slot hSlot
  exact ⟨x, hFilled⟩

theorem Writable.conforms (h : schema.Writable slots) : ∀ x ∈ slots.values, schema.Conforms x := by
  intro x hx
  obtain ⟨slot, hSlot, hFilled⟩ := List.mem_filterMap.mp hx
  obtain ⟨y, rfl, hConforms⟩ := h slot hSlot
  cases hFilled
  exact hConforms

theorem Writable.length_values (h : schema.Writable slots) :
    slots.values.length = slots.length := by
  have hLength := congrArg List.length h.eq_map_values
  rw [List.length_map] at hLength
  exact hLength.symm

theorem Writable.appends (h : schema.Writable slots) (index : Nat) :
    (schema.writeSlots index slots).Appends (Value.encodingAll slots.values) := by
  have hWrite := schema.writeSlots_appends index h.conforms
  rw [← h.eq_map_values] at hWrite
  exact hWrite

theorem writable_of_writeSlots (schema : Schema) : ∀ {slots : Storage} {index : Nat}
    {sink sink' : Sink}, schema.writeSlots index slots sink = .ok () sink' → schema.Writable slots
  | [], _, _, _, _ => by
    rintro slot ⟨⟩
  | none :: slots, _, _, _, h => by cases h
  | some x :: slots, index, sink, sink', h => by
    simp only [writeSlots, bind, EStateM.bind] at h
    split at h
    · rename_i mid hWrite
      have hRest := writable_of_writeSlots schema h
      intro slot hSlot
      rcases List.mem_cons.mp hSlot with rfl | hOther
      · exact ⟨x, rfl, conforms_of_write hWrite⟩
      · exact hRest slot hOther
    · cases h

theorem writeStorage_isOk_iff {sink : Sink} :
    (∃ sink', schema.writeStorage slots len sink = .ok () sink') ↔
      len ≤ slots.length ∧ schema.Writable (slots.take len) := by
  rw [writeStorage_eq]
  split
  · rename_i hMissing
    apply iff_of_false
    · rintro ⟨sink', ⟨⟩⟩
    · rintro ⟨hLength, -⟩
      omega
  · rename_i hLength
    rw [and_iff_right (Nat.le_of_not_lt hLength)]
    constructor
    · rintro ⟨sink', hWrite⟩
      exact schema.writable_of_writeSlots hWrite
    · intro hWritable
      obtain ⟨sink', hWrite, -⟩ := hWritable.appends 0 sink
      exact ⟨sink', hWrite⟩

theorem exists_of_writeStorage {sink sink' : Sink}
    (h : schema.writeStorage slots len sink = .ok () sink') :
    ∃ xs : List Value, slots.take len = xs.map some ∧ xs.length = len ∧
      (∀ x ∈ xs, schema.Conforms x) ∧ sink'.toList = sink.toList ++ Value.encodingAll xs := by
  obtain ⟨hLength, hWritable⟩ := writeStorage_isOk_iff.mp ⟨sink', h⟩
  obtain ⟨other, hWrite, hList⟩ := hWritable.appends 0 sink
  rw [writeStorage_eq, if_neg (Nat.not_lt.mpr hLength), hWrite] at h
  cases h
  refine ⟨_, hWritable.eq_map_values, ?_, hWritable.conforms, hList⟩
  rw [hWritable.length_values, List.length_take_of_le hLength]

theorem readStorage_eq (hLength : len ≤ slots.length) (cursor : Cursor) :
    schema.readStorage slots len cursor = schema.readSlots len slots cursor := by
  rw [readStorage, if_neg (Nat.not_lt.mpr hLength)]

/-- Values that fit are read from their encodings into any storage with room for them. -/
theorem readStorage_encodingAll {xs : List Value} (h : ∀ x ∈ xs, schema.Conforms x)
    (hLength : xs.length ≤ slots.length) (source position : Nat) (rest : Bytes) :
    ∃ ys : List Value, ys.map Value.content = xs.map Value.content ∧
      schema.readStorage slots xs.length ⟨source, position, Value.encodingAll xs ++ rest⟩ =
        ⟨.ok (), ys.map some ++ slots.drop xs.length,
          ⟨source, position + (Value.encodingAll xs).length, rest⟩⟩ := by
  obtain ⟨zs, hLists, hSame⟩ := exists_lists_encodingAll h
  have hCount : zs.length = xs.length := by simpa using congrArg List.length hSame
  obtain ⟨ys, hContents, hRead⟩ :=
    hLists.readSlots_eq source rest position (hCount.symm ▸ hLength)
  rw [hCount] at hRead
  exact ⟨ys, hContents.trans hSame, (readStorage_eq hLength _).trans hRead⟩

/-- Slots that were written come back up to the places where their rows are built. Of arbitrary
bytes, slots are filled with what single reads take in turn, until one of them fails. -/
theorem bulk_write_and_read (schema : Schema) (slots : Storage) (len : Nat) :
    (∀ sink, (∃ sink', schema.writeStorage slots len sink = .ok () sink') ↔
      len ≤ slots.length ∧ ∀ slot ∈ slots.take len, ∃ x, slot = some x ∧ schema.Conforms x) ∧
    (∀ sink sink', schema.writeStorage slots len sink = .ok () sink' →
      ∃ xs : List Value, slots.take len = xs.map some ∧
        sink'.toList = sink.toList ++ Value.encodingAll xs ∧
        ∀ (target : Storage) source position rest, len ≤ target.length →
          ∃ ys : List Value, ys.map Value.content = xs.map Value.content ∧
            schema.readStorage target len ⟨source, position, Value.encodingAll xs ++ rest⟩ =
              ⟨.ok (), ys.map some ++ target.drop len,
                ⟨source, position + (Value.encodingAll xs).length, rest⟩⟩) ∧
    (len ≤ slots.length → ∀ cursor loaded,
      schema.readStorage slots len cursor = loaded ↔ schema.Fills len slots cursor loaded) ∧
    (slots.length < len → ∀ cursor, schema.readStorage slots len cursor =
      ⟨.error (.corruption (.slotsMissing len slots.length)), slots, cursor⟩) := by
  refine ⟨fun sink => writeStorage_isOk_iff, ?_, ?_, ?_⟩
  · intro sink sink' hWrite
    obtain ⟨xs, hSlots, hLength, hConforms, hList⟩ := exists_of_writeStorage hWrite
    subst hLength
    refine ⟨xs, hSlots, hList, ?_⟩
    intro target source position rest hTarget
    exact readStorage_encodingAll hConforms hTarget source position rest
  · intro hLength cursor loaded
    rw [readStorage_eq hLength]
    exact readSlots_eq_iff hLength
  · intro hMissing cursor
    rw [readStorage, if_pos hMissing]

/-- Two slots come back into a storage that was in use, and a text that is cut off leaves the slot
for it as it was. -/
theorem bulk_write_and_read_in_use :
    (∃ ys : List Value, ys.map Value.content = [.int 1, .int 2] ∧
      int.readStorage [some (.int 7), none, some (.int 8)] 2 ⟨0, 0, [1, 2, 9]⟩ =
        ⟨.ok (), ys.map some ++ [some (.int 8)], ⟨0, 2, [9]⟩⟩) ∧
    string.readStorage [none, some (.int 3), some (.int 4)] 3 ⟨0, 0, [1, 65, 2, 66]⟩ =
      ⟨.error .eof, [some (.string { string := "A" }), some (.int 3), some (.int 4)],
        ⟨0, 3, [66]⟩⟩ := by
  constructor
  · obtain ⟨hOk, hBack, -⟩ := bulk_write_and_read int [some (.int 1), some (.int 2), none] 2
    obtain ⟨sink, hWrite⟩ := (hOk {}).mpr ⟨by decide, by simp [Conforms, kind, Value.kind]⟩
    obtain ⟨xs, hSlots, -, hRead⟩ := hBack {} sink hWrite
    obtain rfl : xs = [.int 1, .int 2] := by
      have hValues := congrArg Storage.values hSlots
      rw [Storage.values_map_some] at hValues
      exact hValues.symm
    have hEncoding : Value.encodingAll [.int 1, .int 2] = [1, 2] := by
      have hOne : (1 : Int32).toUInt32.toNat = 1 := rfl
      have hTwo : (2 : Int32).toUInt32.toNat = 2 := rfl
      simp [Value.encodingAll, Value.encoding, hOne, hTwo, Varint.encode_of_lt]
    obtain ⟨ys, hContents, hSame⟩ :=
      hRead [some (.int 7), none, some (.int 8)] 0 0 [9] (by decide)
    rw [hEncoding] at hSame
    exact ⟨ys, hContents, hSame⟩
  · obtain ⟨-, -, hFills, -⟩ :=
      bulk_write_and_read string [none, some (.int 3), some (.int 4)] 3
    have hFirst : string.read ⟨0, 0, [1, 65, 2, 66]⟩ =
        .ok (.string { string := "A" }) ⟨0, 2, [2, 66]⟩ := rfl
    have hSecond : string.read ⟨0, 2, [2, 66]⟩ = .error .eof ⟨0, 3, [66]⟩ := rfl
    exact (hFills (by decide) _ _).mpr (.stopped (.cons hFirst (.nil _)) hSecond (by decide))

end Schema

end RowStore
