import RowStore.Page.Codec
import RowStore.Proofs.BigEndian
import RowStore.Proofs.Spelling
import RowStore.Proofs.Page.Keys

/-!
# A page and its encoding

What a page encodes to depends on its keys alone, and what is decoded is the page that holds the
keys listed. Nothing is assumed of the checksum but that it is a function of the bytes.
-/

namespace RowStore

namespace Page

variable (checksum : Bytes → UInt32)

def sealed (payload : Bytes) : Bytes := payload ++ bigEndian checksumLength (checksum payload).toNat

/-- What a page with these keys encodes to. -/
def image (schema : Schema) (keys : List Value) : Except Error Bytes :=
  match keys.findSome? schema.misfit? with
  | some e => .error e
  | none => .ok (sealed checksum (Varint.encode keys.length ++ Value.encodingAll keys))

theorem findSome?_misfit?_eq_none_iff {schema : Schema} {keys : List Value} :
    keys.findSome? schema.misfit? = none ↔ ∀ key ∈ keys, schema.Conforms key := by
  rw [List.findSome?_eq_none_iff]
  constructor
  · intro h key hKey
    exact Schema.misfit?_eq_none_iff.mp (h key hKey)
  · intro h key hKey
    exact Schema.misfit?_eq_none_iff.mpr (h key hKey)

theorem image_eq_ok_iff {schema : Schema} {keys : List Value} {data : Bytes} :
    image checksum schema keys = .ok data ↔ (∀ key ∈ keys, schema.Conforms key) ∧
      data = sealed checksum (Varint.encode keys.length ++ Value.encodingAll keys) := by
  unfold image
  cases hMisfit : keys.findSome? schema.misfit? with
  | some e =>
    constructor
    · intro h
      cases h
    · rintro ⟨hConforms, -⟩
      rw [findSome?_misfit?_eq_none_iff.mpr hConforms] at hMisfit
      cases hMisfit
  | none =>
    rw [Except.ok.injEq, and_iff_right (findSome?_misfit?_eq_none_iff.mp hMisfit)]
    exact eq_comm

theorem image_content (schema : Schema) (keys : List Value) :
    image checksum schema (keys.map Value.content) = image checksum schema keys := by
  have hMisfit : (keys.map Value.content).findSome? schema.misfit? =
      keys.findSome? schema.misfit? := by
    rw [List.findSome?_map]
    congr 1
    funext x
    exact schema.misfit?_content x
  rw [image, image, hMisfit, List.length_map, ← Value.contentAll_eq_map,
    Value.encodingAll_contentAll]

/-- The page that holds `keys`, with room for more when the options ask for it. -/
def ofKeys (schema : Schema) (options : Options) (keys : List Value) : Page where
  schema
  slots := .filled keys (max options.capacity.toNat keys.length - keys.length)
  length := keys.length
  memory := schema.totalMemory keys
  options

theorem capacity_ofKeys (schema : Schema) (options : Options) (keys : List Value) :
    (ofKeys schema options keys).capacity = max options.capacity.toNat keys.length := by
  rw [capacity, ofKeys, Storage.length_filled]
  omega

theorem keys_ofKeys (schema : Schema) (options : Options) (keys : List Value) :
    (ofKeys schema options keys).keys = keys := by
  rw [Page.keys, ofKeys, Storage.filled, List.take_left' (List.length_map _),
    Storage.values_map_some]

theorem holds_ofKeys (schema : Schema) (options : Options) {keys : List Value}
    (h : keys.length < UInt64.size) : (ofKeys schema options keys).Holds keys where
  slots := ⟨_, rfl⟩
  length := rfl
  memory := rfl
  capacity_lt := by
    rw [capacity_ofKeys]
    exact Nat.max_lt.mpr ⟨options.capacity.toNat_lt_size, h⟩

theorem new_eq_ofKeys (schema : Schema) (options : Options) :
    new schema options = ofKeys schema options [] := by
  simp [new, ofKeys, Storage.filled, Schema.totalMemory]

variable {checksum} {page : Page} {xs : List Value}

theorem Holds.writePayload_eq (h : page.Holds xs) (sink : Sink) :
    page.writePayload sink =
      page.schema.writeSlots 0 (xs.map some) (sink.putVarint64 xs.length.toUInt64) := by
  have hLength := h.length_le
  obtain ⟨room, hSlots⟩ := h.slots
  have hTake : page.slots.take xs.length = xs.map some := by
    rw [hSlots, Storage.filled, List.take_left' (List.length_map _)]
  have hFits : ¬page.slots.length < xs.length := Nat.not_lt.mpr hLength
  simp only [writePayload, Schema.writeStorage, bind, EStateM.bind, h.length, hTake, if_neg hFits]
  rfl

theorem Holds.encode_eq (h : page.Holds xs) (checksum : Bytes → UInt32) :
    page.encode checksum = image checksum page.schema xs := by
  have hCount : xs.length.toUInt64.toNat = xs.length :=
    UInt64.toNat_ofNat_of_lt (Nat.lt_of_le_of_lt h.length_le h.capacity_lt)
  unfold encode image
  rw [h.writePayload_eq]
  cases hMisfit : xs.findSome? page.schema.misfit? with
  | some e =>
    obtain ⟨data, hFails⟩ := page.schema.exists_writeSlots_fails 0 hMisfit
    obtain ⟨sink', hWrite, -⟩ := hFails
      (Sink.putVarint64 (.withCapacity page.options.bufferCapacity.toNat) xs.length.toUInt64)
    rw [hWrite]
  | none =>
    obtain ⟨sink', hWrite, hList⟩ := page.schema.writeSlots_appends 0
      (findSome?_misfit?_eq_none_iff.mp hMisfit)
      (Sink.putVarint64 (.withCapacity page.options.bufferCapacity.toNat) xs.length.toUInt64)
    rw [Sink.toList_putVarint64, Sink.toList_withCapacity, List.nil_append, hCount] at hList
    rw [hWrite]
    simp only [Sink.toList_putWord32, hList]
    rfl

theorem readCount_eq (cursor : Cursor) :
    readCount cursor =
      match Reader.varint64 cursor with
      | .ok word next =>
        if next.remaining < word.toNat then .error (.corruption (.countTooLarge word.toNat)) next
        else .ok word.toNat next
      | .error e next => .error e next := by
  simp only [readCount, bind, EStateM.bind, Reader.get_eq]
  cases Reader.varint64 cursor with
  | ok word next =>
    dsimp only
    split <;> rfl
  | error e next => rfl

theorem decode_eq (schema : Schema) (options : Options) (source : Nat) (data : Bytes) :
    decode schema options source data checksum =
      if data.length < checksumLength then .error (.corruption .pageTooShort)
      else if ofBigEndian (data.drop (data.length - checksumLength)) ≠
          (checksum (data.take (data.length - checksumLength))).toNat then
        .error (.corruption .checksumMismatch)
      else ofPayload schema options source (data.take (data.length - checksumLength)) := by
  unfold decode
  split
  · rfl
  · dsimp only [bind, Except.bind, pure, Except.pure]
    split <;> rfl

theorem decode_sealed (schema : Schema) (options : Options) (source : Nat) (payload : Bytes) :
    decode schema options source (sealed checksum payload) checksum =
      ofPayload schema options source payload := by
  have hLength : (sealed checksum payload).length - checksumLength = payload.length := by
    rw [sealed, List.length_append, length_bigEndian, Nat.add_sub_cancel]
  have hTake : (sealed checksum payload).take payload.length = payload := List.take_left
  have hDrop : (sealed checksum payload).drop payload.length =
      bigEndian checksumLength (checksum payload).toNat := List.drop_left
  rw [decode_eq, hLength, hTake, hDrop, if_neg, if_neg]
  · rw [Decidable.not_not, checksumLength, ofBigEndian_bigEndian (UInt32.toNat_lt_size _)]
  · rw [sealed, List.length_append, length_bigEndian]
    omega

/-- Keys are taken as they are listed, here two of them in descending order. -/
theorem decode_descending :
    decode .int { capacity := 0 } 0 (sealed Checksum.crc32 [2, 2, 1]) =
      .ok (ofKeys .int { capacity := 0 } [.int 2, .int 1]) := by
  rw [decode_sealed]
  rfl

theorem le_length_blank (options : Options) (count : Nat) :
    count ≤ (Storage.blank (max options.capacity.toNat count)).length := by
  rw [Storage.blank, List.length_replicate]
  exact Nat.le_max_right _ _

/-- The steps of decoding a payload, with the storage large enough for every count. -/
theorem ofPayload_eq (schema : Schema) (options : Options) (source : Nat) (payload : Bytes) :
    ofPayload schema options source payload =
      match Reader.varint64 (.ofBytes source payload) with
      | .error e _ => .error e
      | .ok word next =>
        if next.remaining < word.toNat then .error (.corruption (.countTooLarge word.toNat))
        else
          let loaded := schema.readSlots word.toNat
            (.blank (max options.capacity.toNat word.toNat)) next
          match loaded.outcome with
          | .error e => .error e
          | .ok () =>
            if loaded.cursor.isExhausted then
              .ok {
                schema
                slots := loaded.slots
                length := word.toNat
                memory := schema.totalMemory loaded.slots.values
                options }
            else .error (.corruption (.trailingBytes loaded.cursor.remaining word.toNat)) := by
  unfold ofPayload
  rw [readCount_eq]
  cases Reader.varint64 (.ofBytes source payload) with
  | error e next => rfl
  | ok word next =>
    have hLength : ¬(Storage.blank (max options.capacity.toNat word.toNat)).length < word.toNat :=
      Nat.not_lt.mpr (le_length_blank options word.toNat)
    by_cases hGuard : next.remaining < word.toNat
    · simp only [if_pos hGuard]
    · simp only [if_neg hGuard, bind, Except.bind, Schema.readStorage, if_neg hLength]
      split
      · rename_i e hOutcome
        rw [hOutcome]
      · rename_i u hOutcome
        rw [hOutcome]
        dsimp only
        cases (schema.readSlots word.toNat (.blank (max options.capacity.toNat word.toNat))
          next).cursor.isExhausted <;> rfl

theorem ofKeys_of_slots {schema : Schema} {options : Options} {keys : List Value} {slots : Storage}
    (h : slots = keys.map some ++
      (Storage.blank (max options.capacity.toNat keys.length)).drop keys.length) :
    ({ schema, slots, length := keys.length, memory := schema.totalMemory slots.values, options } :
      Page) = ofKeys schema options keys := by
  have hSlots : slots = .filled keys (max options.capacity.toNat keys.length - keys.length) := by
    rw [h, Storage.blank, List.drop_replicate]
    rfl
  rw [hSlots, Storage.values_filled]
  rfl

/-- The payload is a number of keys, however it is spelled, and as many keys behind it. -/
def IsPayload (schema : Schema) (payload : Bytes) (keys : List Value) : Prop :=
  ∃ count listing, payload = count ++ listing ∧
    Varint.decode64 count = .ok (keys.length, count.length) ∧ schema.Lists listing keys

section Payload

variable {schema : Schema} {options : Options} {source : Nat} {payload data : Bytes}
  {keys : List Value}

theorem IsPayload.length_lt (h : IsPayload schema payload keys) : keys.length < UInt64.size := by
  obtain ⟨count, listing, -, hCount, -⟩ := h
  exact (Reader.varint64_of_decode64 hCount 0 0 []).1

theorem IsPayload.ofPayload_eq (h : IsPayload schema payload keys) (options : Options)
    (source : Nat) :
    ∃ ys : List Value, ys.map Value.content = keys.map Value.content ∧
      ofPayload schema options source payload = .ok (ofKeys schema options ys) := by
  have hWord : keys.length.toUInt64.toNat = keys.length := UInt64.toNat_ofNat_of_lt h.length_lt
  obtain ⟨count, listing, rfl, hCount, hLists⟩ := h
  obtain ⟨-, hRead⟩ := Reader.varint64_of_decode64 hCount source 0 listing
  obtain ⟨ys, hContents, hSlots⟩ := hLists.readSlots_eq source [] (0 + count.length)
    (le_length_blank options keys.length)
  have hLength : ys.length = keys.length := by simpa using congrArg List.length hContents
  refine ⟨ys, hContents, ?_⟩
  rw [List.append_nil] at hSlots
  rw [Page.ofPayload_eq, Cursor.ofBytes, hRead]
  dsimp only
  rw [hWord, Cursor.remaining, if_neg (Nat.not_lt.mpr hLists.length_le), hSlots]
  simp only [Cursor.isExhausted, List.isEmpty_nil, if_true]
  rw [← hLength, ofKeys_of_slots rfl]

theorem exists_isPayload (h : ofPayload schema options source payload = .ok page) :
    ∃ keys, IsPayload schema payload keys := by
  rw [Page.ofPayload_eq] at h
  split at h
  · cases h
  · rename_i word next hCount
    obtain ⟨count, rest, rfl, rfl, hDecode⟩ := Reader.decode64_of_varint64 hCount
    split at h
    · cases h
    · dsimp only at h
      split at h
      · cases h
      · rename_i hOutcome
        obtain ⟨taken, left, keys, rfl, hLength, hLists⟩ :=
          schema.exists_lists_of_readSlots (le_length_blank options word.toNat) hOutcome
        obtain ⟨ys, -, hSlots⟩ := hLists.readSlots_eq source left (0 + count.length)
          (hLength ▸ le_length_blank options word.toNat)
        rw [hLength] at hSlots
        rw [hSlots] at h
        split at h
        · rename_i hExhausted
          obtain rfl : left = [] := List.isEmpty_iff.mp hExhausted
          rw [List.append_nil]
          exact ⟨keys, count, taken, rfl, hLength ▸ hDecode, hLists⟩
        · cases h

theorem ofKeys_of_ofPayload (h : ofPayload schema options source payload = .ok page) :
    ∃ keys : List Value, keys.length < UInt64.size ∧ page = ofKeys schema options keys := by
  obtain ⟨keys, hPayload⟩ := exists_isPayload h
  obtain ⟨ys, hContents, hPage⟩ := hPayload.ofPayload_eq options source
  have hLength : ys.length = keys.length := by simpa using congrArg List.length hContents
  rw [hPage, Except.ok.injEq] at h
  exact ⟨ys, hLength ▸ hPayload.length_lt, h.symm⟩

theorem ofKeys_of_decode (h : decode schema options source data checksum = .ok page) :
    ∃ keys : List Value, keys.length < UInt64.size ∧ page = ofKeys schema options keys := by
  rw [decode_eq] at h
  split at h
  · cases h
  split at h
  · cases h
  · exact ofKeys_of_ofPayload h

theorem exists_isPayload_encoding (hCount : xs.length < UInt64.size)
    (hConforms : ∀ x ∈ xs, schema.Conforms x) :
    ∃ ys : List Value, ys.map Value.content = xs.map Value.content ∧
      IsPayload schema (Varint.encode xs.length ++ Value.encodingAll xs) ys := by
  obtain ⟨ys, hLists, hContents⟩ := Schema.exists_lists_encodingAll hConforms
  have hLength : ys.length = xs.length := by simpa using congrArg List.length hContents
  have hDecode := Varint.decode64_encode hCount []
  rw [List.append_nil, ← hLength] at hDecode
  exact ⟨ys, hContents, _, _, rfl, hLength ▸ hDecode, hLists⟩

theorem ofPayload_encoding (schema : Schema) (options : Options) (source : Nat)
    (hCount : xs.length < UInt64.size) (hConforms : ∀ x ∈ xs, schema.Conforms x) :
    ∃ ys : List Value, ys.map Value.content = xs.map Value.content ∧
      ofPayload schema options source (Varint.encode xs.length ++ Value.encodingAll xs) =
        .ok (ofKeys schema options ys) := by
  obtain ⟨ys, hContents, hPayload⟩ := exists_isPayload_encoding hCount hConforms
  obtain ⟨zs, hAgain, hPage⟩ := hPayload.ofPayload_eq options source
  exact ⟨zs, hAgain.trans hContents, hPage⟩

end Payload

end Page

end RowStore
