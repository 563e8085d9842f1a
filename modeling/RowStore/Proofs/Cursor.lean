import RowStore.Proofs.Script
import RowStore.Proofs.Storage
import RowStore.Proofs.Varint.Classification

/-!
# Where a cursor can stand

Whatever is read from a cursor, and however often reading fails in between, the cursor goes on
through its data and stays within them. Places and lengths can therefore be computed on 64-bit
words: no sum wraps around and no difference falls below zero (`visited_stands_in`). Each single
request takes the bytes of its item and no others, or fails and leaves the cursor where it stood.
-/

namespace RowStore

/-- The bytes from `position` up to `count` bytes further on, unless the place where they end wraps
around as a word, or lies behind the last byte. -/
def Blob.slice? (blob : Blob) (position count : UInt64) : Option Bytes :=
  if position ≤ position + count ∧ position + count ≤ blob.size then
    some (blob.bytes.extract position.toNat (position + count).toNat)
  else none

namespace Cursor

/-- The cursor has the data from its position on ahead. -/
structure StandsIn (data : Bytes) (cursor : Cursor) : Prop where
  position_le : cursor.position ≤ data.length
  rest_eq : cursor.rest = data.drop cursor.position

/-- The other cursor stands where this one would after taking some of the bytes ahead. -/
def LeadsTo (cursor next : Cursor) : Prop :=
  ∃ count ≤ cursor.remaining, next = cursor.advance count

variable {data : Bytes} {cursor mid next : Cursor} {count : Nat}

theorem standsIn_ofBytes (source : Nat) (data : Bytes) : (ofBytes source data).StandsIn data :=
  ⟨Nat.zero_le _, rfl⟩

theorem StandsIn.remaining_eq (h : cursor.StandsIn data) :
    cursor.remaining = data.length - cursor.position := by
  rw [remaining, h.rest_eq, List.length_drop]

theorem StandsIn.of_leadsTo (h : cursor.StandsIn data) (hNext : cursor.LeadsTo next) :
    next.StandsIn data := by
  obtain ⟨count, hCount, rfl⟩ := hNext
  have hPosition := h.position_le
  rw [h.remaining_eq] at hCount
  constructor
  · simp only [advance]
    omega
  · simp only [advance, h.rest_eq, List.drop_drop]

theorem LeadsTo.position_le (h : cursor.LeadsTo next) : cursor.position ≤ next.position := by
  obtain ⟨count, -, rfl⟩ := h
  exact Nat.le_add_right _ _

theorem leadsTo_self (cursor : Cursor) : cursor.LeadsTo cursor := ⟨0, Nat.zero_le _, rfl⟩

theorem LeadsTo.trans (h : cursor.LeadsTo mid) (h' : mid.LeadsTo next) : cursor.LeadsTo next := by
  obtain ⟨first, hFirst, rfl⟩ := h
  obtain ⟨second, hSecond, rfl⟩ := h'
  refine ⟨first + second, ?_, ?_⟩
  · simp only [remaining, advance, List.length_drop] at hFirst hSecond ⊢
    omega
  · simp only [advance, List.drop_drop, Nat.add_assoc]

end Cursor

namespace Reader

variable {α β : Type} {reader : Reader α} {f : α → Reader β} {cursor next : Cursor} {a : α}
  {e : Error} {count : Nat}

/-- Where the reader leaves the cursor, whether it succeeds or not. -/
def after (reader : Reader α) (cursor : Cursor) : Cursor :=
  match reader cursor with
  | .ok _ next => next
  | .error _ next => next

def Forward (reader : Reader α) : Prop := ∀ cursor : Cursor, cursor.LeadsTo (reader.after cursor)

theorem Forward.of_ok (h : reader.Forward) (hRead : reader cursor = .ok a next) :
    cursor.LeadsTo next := by
  have hForward := h cursor
  rw [after, hRead] at hForward
  exact hForward

theorem Forward.of_error (h : reader.Forward) (hRead : reader cursor = .error e next) :
    cursor.LeadsTo next := by
  have hForward := h cursor
  rw [after, hRead] at hForward
  exact hForward

theorem Forward.bind (h : reader.Forward) (hf : ∀ a, (f a).Forward) : (reader >>= f).Forward := by
  intro cursor
  rw [after]
  cases hRead : reader cursor with
  | ok a mid =>
    rw [bind_of_ok hRead]
    exact (h.of_ok hRead).trans (hf a mid)
  | error e mid =>
    rw [bind_of_error hRead]
    exact h.of_error hRead

theorem forward_pure (a : α) : (pure a : Reader α).Forward := Cursor.leadsTo_self

theorem forward_throw (e : Error) : (throw e : Reader α).Forward := Cursor.leadsTo_self

theorem forward_get : (get : Reader Cursor).Forward := Cursor.leadsTo_self

theorem Forward.map (h : reader.Forward) (g : α → β) : (do return g (← reader)).Forward :=
  h.bind fun a => forward_pure (g a)

theorem take_of_le (h : count ≤ cursor.remaining) :
    take count cursor =
      .ok ⟨cursor.rest.take count, List.length_take_of_le h⟩ (cursor.advance count) :=
  dif_pos (List.length_take_of_le h)

theorem take_of_lt (h : cursor.remaining < count) : take count cursor = .error .eof cursor := by
  apply dif_neg
  rw [Cursor.remaining] at h
  rw [List.length_take]
  omega

theorem forward_take (count : Nat) : (take count).Forward := by
  intro cursor
  unfold after
  rcases Nat.lt_or_ge cursor.remaining count with hFew | hEnough
  · rw [take_of_lt hFew]
    exact cursor.leadsTo_self
  · rw [take_of_le hEnough]
    exact ⟨count, hEnough, rfl⟩

theorem forward_word (width : Nat) : (word width).Forward := (forward_take width).map _

theorem forward_byte : byte.Forward := by
  rintro ⟨source, position, rest⟩
  cases rest with
  | nil => exact Cursor.leadsTo_self _
  | cons b rest => exact ⟨1, Nat.le_add_left 1 _, rfl⟩

/-- A number is read from at most `limit` of the bytes ahead, or the cursor stays. -/
theorem number_cases {decode : Bytes → Except Error (Nat × Nat)} {limit bound : Nat}
    (hDecides : Varint.Decides decode limit bound) (cursor : Cursor) :
    (∃ n count, number decode cursor = .ok n (cursor.advance count) ∧ n < bound ∧
      Varint.SpelledBy n (cursor.rest.take count) ∧ count ≤ cursor.remaining ∧
      1 ≤ count ∧ count ≤ limit) ∨
    ∃ e, number decode cursor = .error e cursor := by
  unfold number
  cases hDecode : decode cursor.rest with
  | ok answer =>
    obtain ⟨n, count⟩ := answer
    obtain ⟨taken, rest, hData, hLength, hLimit, hSpelled, hBound, -⟩ := hDecides.of_ok hDecode
    have hPos := hSpelled.length_pos
    refine .inl ⟨n, count, rfl, hBound, ?_, ?_, by omega, by omega⟩
    · rw [hData, hLength, List.take_left]
      exact hSpelled
    · rw [Cursor.remaining, hData, hLength, List.length_append]
      exact Nat.le_add_right _ _
  | error e => exact .inr ⟨e, rfl⟩

theorem forward_number {decode : Bytes → Except Error (Nat × Nat)} {limit bound : Nat}
    (hDecides : Varint.Decides decode limit bound) : (number decode).Forward := by
  intro cursor
  unfold after
  rcases number_cases hDecides cursor with ⟨n, count, hRead, -, -, hCount, -⟩ | ⟨e, hRead⟩
  · rw [hRead]
    exact ⟨count, hCount, rfl⟩
  · rw [hRead]
    exact cursor.leadsTo_self

theorem forward_varint32 : varint32.Forward :=
  (forward_number Varint.decides_decode32).map _

theorem forward_varint64 : varint64.Forward :=
  (forward_number Varint.decides_decode64).map _

theorem forward_blob : blob.Forward :=
  forward_varint64.bind fun size => (forward_take size.toNat).map _

end Reader

namespace Schema

open Reader

theorem forward_readArity (columns : Nat) : (readArity columns).Forward := by
  apply forward_varint32.bind
  intro word
  dsimp only
  split
  · exact forward_throw _
  · exact forward_pure _

mutual

theorem forward_read : ∀ schema : Schema, (read schema).Forward
  | .int => by
    unfold read
    exact forward_varint32.map _
  | .long => by
    unfold read
    exact forward_varint64.map _
  | .string => by
    unfold read
    apply forward_blob.bind
    intro blob
    cases Text.ofBlob blob with
    | ok text => exact forward_pure _
    | error cause => exact forward_throw _
  | .bytes => by
    unfold read
    exact forward_blob.map _
  | .row columns => by
    unfold read
    apply forward_get.bind
    intro start
    apply (forward_readArity columns.length).bind
    intro arity
    exact (forward_readColumns columns arity).map _

theorem forward_readColumns : ∀ (columns : List Schema) (arity : Nat),
    (readColumns columns arity).Forward
  | [], arity => by
    unfold readColumns
    exact forward_pure _
  | schema :: columns, 0 => by
    unfold readColumns
    exact forward_pure _
  | schema :: columns, arity + 1 => by
    unfold readColumns
    apply (forward_read schema).bind
    intro x
    exact (forward_readColumns columns arity).map _

end

theorem ReadsInTurn.leadsTo {schema : Schema} {cursor next : Cursor} {xs : List Value}
    (h : schema.ReadsInTurn cursor xs next) : cursor.LeadsTo next := by
  induction h with
  | nil cursor => exact cursor.leadsTo_self
  | cons hRead _ ih => exact (schema.forward_read.of_ok hRead).trans ih

theorem leadsTo_readStorage (schema : Schema) (slots : Storage) (len : Nat) (cursor : Cursor) :
    cursor.LeadsTo (schema.readStorage slots len cursor).cursor := by
  rw [readStorage]
  split
  · exact cursor.leadsTo_self
  · have hFills := schema.fills_readSlots cursor (Nat.le_of_not_lt ‹¬slots.length < len›)
    generalize schema.readSlots len slots cursor = loaded at hFills
    cases hFills with
    | filled hTurn _ => exact hTurn.leadsTo
    | stopped hTurn hRead _ =>
      -- The reading that failed has gone forward as well.
      exact hTurn.leadsTo.trans (schema.forward_read.of_error hRead)

end Schema

namespace Script

/-- The bytes that the item may have been taken from. -/
def Item.SpelledBy : Item → Bytes → Prop
  | piece (.varint32 word), taken => Varint.SpelledBy word.toNat taken
  | piece (.varint64 word), taken => Varint.SpelledBy word.toNat taken
  | piece part, taken => taken = part.data
  | value _ x, taken => x.SpelledBy taken

namespace Request

/-- The least and the greatest number of bytes that a single request takes. Values have no such
limits. -/
def limits? : Request → Option (Nat × Nat)
  | byte => some (1, 1)
  | word32 => some (4, 4)
  | word64 => some (8, 8)
  | varint32 => some (1, Varint.maxLength32)
  | varint64 => some (1, Varint.maxLength64)
  | bytes count => some (count, count)
  | value _ => none

/-- At this cursor the request takes the bytes of its item, `least` to `most` of them, or leaves the
cursor as it is. One that takes a fixed number of bytes fails if there are fewer, and only then. -/
structure Exact (request : Request) (least most : Nat) (cursor : Cursor) : Prop where
  of_ok : ∀ item next, request.take cursor = .ok item next →
    item.request = request ∧ ∃ count, next = cursor.advance count ∧
      item.SpelledBy (cursor.rest.take count) ∧ count ≤ cursor.remaining ∧
      least ≤ count ∧ count ≤ most
  of_error : ∀ e next, request.take cursor = .error e next → next = cursor
  error_iff : least = most →
    ((∃ e next, request.take cursor = .error e next) ↔ cursor.remaining < most)
  eof : least = most → ∀ e next, request.take cursor = .error e next → e = .eof

variable {request : Request} {least most count : Nat} {cursor : Cursor} {item : Item} {e : Error}

theorem exact_of_ok (item : Item) (count : Nat)
    (h : request.take cursor = .ok item (cursor.advance count))
    (hRequest : item.request = request) (hSpelled : item.SpelledBy (cursor.rest.take count))
    (hCount : count ≤ cursor.remaining) (hLeast : least ≤ count) (hMost : count ≤ most) :
    request.Exact least most cursor where
  of_ok item' next h' := by
    rw [h] at h'
    cases h'
    exact ⟨hRequest, count, rfl, hSpelled, hCount, hLeast, hMost⟩
  of_error e next h' := by
    rw [h] at h'
    cases h'
  error_iff hFixed := by
    apply iff_of_false
    · rintro ⟨e, next, h'⟩
      rw [h] at h'
      cases h'
    · omega
  eof _ e next h' := by
    rw [h] at h'
    cases h'

theorem exact_of_error (h : request.take cursor = .error e cursor)
    (hFixed : least = most → cursor.remaining < most ∧ e = .eof) :
    request.Exact least most cursor where
  of_ok item next h' := by
    rw [h] at h'
    cases h'
  of_error e' next h' := by
    rw [h] at h'
    cases h'
    rfl
  error_iff hSame := iff_of_true ⟨e, cursor, h⟩ (hFixed hSame).1
  eof hSame e' next h' := by
    rw [h] at h'
    cases h'
    exact (hFixed hSame).2

theorem exact_byte (cursor : Cursor) : byte.Exact 1 1 cursor := by
  obtain ⟨source, position, rest⟩ := cursor
  cases rest with
  | nil => exact exact_of_error (e := .eof) rfl fun _ => ⟨Nat.zero_lt_one, rfl⟩
  | cons b rest =>
    exact exact_of_ok (.piece (.byte b)) 1 rfl rfl rfl (Nat.le_add_left 1 _) (Nat.le_refl 1) (Nat.le_refl 1)

theorem exact_of_take (make : Bytes → Item)
    (h : request.take = do return make (← Reader.take count).val)
    (hRequest : ∀ taken, taken.length = count → (make taken).request = request)
    (hSpelled : ∀ taken, taken.length = count → (make taken).SpelledBy taken) (cursor : Cursor) :
    request.Exact count count cursor := by
  rcases Nat.lt_or_ge cursor.remaining count with hFew | hEnough
  · refine exact_of_error (e := .eof) ?_ fun _ => ⟨hFew, rfl⟩
    rw [h, Reader.bind_of_error (Reader.take_of_lt hFew)]
  · have hLength : (cursor.rest.take count).length = count := List.length_take_of_le hEnough
    refine exact_of_ok (make (cursor.rest.take count)) count ?_ (hRequest _ hLength)
      (hSpelled _ hLength) hEnough (Nat.le_refl _) (Nat.le_refl _)
    rw [h, Reader.bind_of_ok (Reader.take_of_le hEnough)]
    rfl

theorem exact_of_word {width : Nat} (make : Nat → Item)
    (h : request.take = do return make (← Reader.word width))
    (hRequest : ∀ n, (make n).request = request)
    (hSpelled : ∀ n, n < 256 ^ width → (make n).SpelledBy (bigEndian width n)) (cursor : Cursor) :
    request.Exact width width cursor := by
  refine exact_of_take (fun taken => make (ofBigEndian taken)) ?_ (fun _ _ => hRequest _) ?_ cursor
  · rw [h]
    simp [Reader.word]
  · intro taken hTaken
    have hDigits := hSpelled (ofBigEndian taken) (ofBigEndian_lt hTaken)
    rwa [bigEndian_ofBigEndian hTaken] at hDigits

theorem exact_word32 (cursor : Cursor) : word32.Exact 4 4 cursor := by
  refine exact_of_word (fun n => .piece (.word32 n.toUInt32)) ?_ (fun _ => rfl) ?_ cursor
  · simp [take, Reader.word32]
  · intro n hFits
    exact congrArg (bigEndian 4) (UInt32.toNat_ofNat_of_lt hFits).symm

theorem exact_word64 (cursor : Cursor) : word64.Exact 8 8 cursor := by
  refine exact_of_word (fun n => .piece (.word64 n.toUInt64)) ?_ (fun _ => rfl) ?_ cursor
  · simp [take, Reader.word64]
  · intro n hFits
    exact congrArg (bigEndian 8) (UInt64.toNat_ofNat_of_lt hFits).symm

theorem exact_bytes (count : Nat) (cursor : Cursor) : (bytes count).Exact count count cursor :=
  exact_of_take (fun taken => .piece (.bytes taken)) rfl
    (fun _ hTaken => congrArg bytes hTaken) (fun _ _ => rfl) cursor

theorem exact_of_number {decode : Bytes → Except Error (Nat × Nat)} {limit bound : Nat}
    (hDecides : Varint.Decides decode limit bound) (hLimit : 1 < limit) (make : Nat → Item)
    (h : request.take = do return make (← Reader.number decode))
    (hRequest : ∀ n, (make n).request = request)
    (hSpelled : ∀ n taken, n < bound → Varint.SpelledBy n taken → (make n).SpelledBy taken)
    (cursor : Cursor) : request.Exact 1 limit cursor := by
  rcases Reader.number_cases hDecides cursor with
    ⟨n, count, hRead, hBound, hNumber, hCount, hLeast, hMost⟩ | ⟨e, hRead⟩
  · refine exact_of_ok (make n) count ?_ (hRequest n) (hSpelled n _ hBound hNumber) hCount hLeast
      hMost
    rw [h]
    exact Reader.map_of_ok hRead make
  · refine exact_of_error (e := e) ?_ fun hSame => by omega
    rw [h]
    exact Reader.bind_of_error hRead _

theorem exact_varint32 (cursor : Cursor) : varint32.Exact 1 Varint.maxLength32 cursor := by
  refine exact_of_number Varint.decides_decode32 (by decide)
    (fun n => .piece (.varint32 n.toUInt32)) ?_ (fun _ => rfl) ?_ cursor
  · simp [take, Reader.varint32]
  · intro n taken hBound hNumber
    have hWord : n.toUInt32.toNat = n := UInt32.toNat_ofNat_of_lt hBound
    rw [Item.SpelledBy, hWord]
    exact hNumber

theorem exact_varint64 (cursor : Cursor) : varint64.Exact 1 Varint.maxLength64 cursor := by
  refine exact_of_number Varint.decides_decode64 (by decide)
    (fun n => .piece (.varint64 n.toUInt64)) ?_ (fun _ => rfl) ?_ cursor
  · simp [take, Reader.varint64]
  · intro n taken hBound hNumber
    have hWord : n.toUInt64.toNat = n := UInt64.toNat_ofNat_of_lt hBound
    rw [Item.SpelledBy, hWord]
    exact hNumber

theorem exact_of_limits (h : request.limits? = some (least, most)) (cursor : Cursor) :
    request.Exact least most cursor := by
  cases request with
  | value schema => cases h
  | byte => cases h; exact exact_byte cursor
  | word32 => cases h; exact exact_word32 cursor
  | word64 => cases h; exact exact_word64 cursor
  | varint32 => cases h; exact exact_varint32 cursor
  | varint64 => cases h; exact exact_varint64 cursor
  | bytes count => cases h; exact exact_bytes _ cursor

theorem forward_take (request : Request) : request.take.Forward := by
  cases request with
  | byte => exact Reader.forward_byte.map _
  | word32 => exact ((Reader.forward_word 4).map _).map _
  | word64 => exact ((Reader.forward_word 8).map _).map _
  | varint32 => exact Reader.forward_varint32.map _
  | varint64 => exact Reader.forward_varint64.map _
  | bytes count => exact (Reader.forward_take count).map _
  | value schema => exact schema.forward_read.map _

end Request

end Script

namespace Cursor

/-- One use of a cursor: an item is taken, or slots are filled. -/
inductive Access where
  | item (request : Script.Request)
  | storage (schema : Schema) (slots : Storage) (len : Nat)

/-- Where the cursor stands after the access, whether it succeeded or not. -/
def Access.next (cursor : Cursor) : Access → Cursor
  | item request => request.take.after cursor
  | storage schema slots len => (schema.readStorage slots len cursor).cursor

/-- The cursor, and where it stands after each access. -/
def visited (cursor : Cursor) : List Access → List Cursor
  | [] => [cursor]
  | access :: accesses => cursor :: (access.next cursor).visited accesses

/-- Words are wide enough for every place and every length that comes up at this cursor, even when
more bytes are asked for than any data have. -/
structure OnWords (data : Blob) (cursor : Cursor) : Prop where
  position_eq : cursor.position.toUInt64.toNat = cursor.position
  position_le : cursor.position.toUInt64 ≤ data.size
  remaining_eq : (data.size - cursor.position.toUInt64).toNat = cursor.remaining
  take_eq : ∀ count : UInt64, (Script.Request.bytes count.toNat).take cursor =
    match data.slice? cursor.position.toUInt64 count with
    | some taken => .ok (.piece (.bytes taken)) (cursor.advance count.toNat)
    | none => .error .eof cursor
  end_eq : ∀ count taken, data.slice? cursor.position.toUInt64 count = some taken →
    (cursor.position.toUInt64 + count).toNat = (cursor.advance count.toNat).position

variable {cursor other : Cursor} {accesses : List Access} {data : Blob}

theorem Access.leadsTo_next (access : Access) (cursor : Cursor) :
    cursor.LeadsTo (access.next cursor) :=
  match access with
  | item request => request.forward_take cursor
  | storage schema slots len => schema.leadsTo_readStorage slots len cursor

theorem leadsTo_of_mem_visited (h : other ∈ cursor.visited accesses) : cursor.LeadsTo other := by
  induction accesses generalizing cursor with
  | nil =>
    rw [List.mem_singleton.mp h]
    exact cursor.leadsTo_self
  | cons access accesses ih =>
    rcases List.mem_cons.mp h with rfl | hLater
    · exact leadsTo_self _
    · exact (access.leadsTo_next cursor).trans (ih hLater)

theorem pairwise_visited (cursor : Cursor) (accesses : List Access) :
    (cursor.visited accesses).Pairwise fun earlier later => earlier.position ≤ later.position := by
  induction accesses generalizing cursor with
  | nil => exact List.pairwise_singleton _ _
  | cons access accesses ih =>
    refine List.pairwise_cons.mpr ⟨?_, ih _⟩
    intro other hLater
    exact ((access.leadsTo_next cursor).trans (leadsTo_of_mem_visited hLater)).position_le

theorem StandsIn.position_add_remaining (h : cursor.StandsIn data.bytes) :
    cursor.position + cursor.remaining = data.bytes.length := by
  rw [h.remaining_eq]
  exact Nat.add_sub_cancel' h.position_le

theorem StandsIn.toNat_position (h : cursor.StandsIn data.bytes) :
    cursor.position.toUInt64.toNat = cursor.position :=
  UInt64.toNat_ofNat_of_lt (Nat.lt_of_le_of_lt h.position_le data.length_lt)

/-- The end of a slice wraps around, or lies behind the data, when there are fewer bytes than asked
for. -/
theorem StandsIn.slice?_eq (h : cursor.StandsIn data.bytes) (count : UInt64) :
    data.slice? cursor.position.toUInt64 count =
      if count.toNat ≤ cursor.remaining then some (cursor.rest.take count.toNat) else none := by
  have hPosition := h.toNat_position
  have hSum := h.position_add_remaining
  have hSize := data.length_lt
  have hCount := count.toNat_lt_size
  have hEnd := UInt64.toNat_add cursor.position.toUInt64 count
  simp only [UInt64.size] at hSize hCount
  simp only [Blob.slice?, UInt64.le_iff_toNat_le, Blob.toNat_size]
  rw [hPosition] at hEnd ⊢
  by_cases hEnough : count.toNat ≤ cursor.remaining
  · rw [if_pos hEnough, if_pos (by omega), hEnd, Nat.mod_eq_of_lt (by omega), h.rest_eq,
      List.extract_eq_take_drop, Nat.add_sub_cancel_left]
  · rw [if_neg hEnough, if_neg (by omega)]

theorem StandsIn.onWords (h : cursor.StandsIn data.bytes) : cursor.OnWords data := by
  have hLe : cursor.position.toUInt64 ≤ data.size := by
    rw [UInt64.le_iff_toNat_le, h.toNat_position, data.toNat_size]
    exact h.position_le
  refine ⟨h.toNat_position, hLe, ?_, ?_, ?_⟩
  · rw [UInt64.toNat_sub_of_le _ _ hLe, h.toNat_position, data.toNat_size, h.remaining_eq]
  · intro count
    rw [h.slice?_eq]
    by_cases hEnough : count.toNat ≤ cursor.remaining
    · rw [if_pos hEnough]
      exact Reader.map_of_ok (Reader.take_of_le hEnough) fun taken =>
        Script.Item.piece (.bytes taken.val)
    · rw [if_neg hEnough]
      exact Reader.bind_of_error (Reader.take_of_lt (Nat.lt_of_not_le hEnough)) _
  · intro count taken hSlice
    have hEnough : count.toNat ≤ cursor.remaining := by
      rw [h.slice?_eq] at hSlice
      by_contra hFew
      rw [if_neg hFew] at hSlice
      cases hSlice
    have hSum := h.position_add_remaining
    have hSize := data.length_lt
    simp only [UInt64.size] at hSize
    rw [UInt64.toNat_add, h.toNat_position, Nat.mod_eq_of_lt (by omega)]
    rfl

/-- Let a cursor at the front of some data be used in any ways, and go on after each failure. It
never goes back and never leaves the data. Wherever it stands, sums and differences of words are
exact, and a single request takes exactly the bytes of its item or fails in place. -/
theorem visited_stands_in (source : Nat) (data : Blob) (accesses : List Access) :
    let visited := (ofBytes source data.bytes).visited accesses
    visited.Pairwise (fun earlier later => earlier.position ≤ later.position) ∧
    ∀ cursor ∈ visited, cursor.StandsIn data.bytes ∧
      cursor.position + cursor.remaining = data.bytes.length ∧
      cursor.OnWords data ∧
      ∀ request least most, Script.Request.limits? request = some (least, most) →
        request.Exact least most cursor := by
  intro visited
  refine ⟨pairwise_visited _ accesses, ?_⟩
  intro cursor hVisited
  have hStands : cursor.StandsIn data.bytes :=
    (standsIn_ofBytes source data.bytes).of_leadsTo (leadsTo_of_mem_visited hVisited)
  exact ⟨hStands, hStands.position_add_remaining, hStands.onWords,
    fun request least most hLimits => Script.Request.exact_of_limits hLimits cursor⟩

/-- A row breaks off in its second column. As many bytes as a word can count are asked for in that
place, where the sum wraps around, and then a single byte. -/
theorem visited_stands_in_resumed :
    let data : Blob := { bytes := [2, 7, 255, 255] }
    let start := ofBytes 0 data.bytes
    let stopped : Cursor := ⟨0, 2, [255, 255]⟩
    let most : UInt64 := 18446744073709551615
    start.visited [.item (.value (.row [.int, .int])), .item (.bytes most.toNat), .item .byte] =
      [start, stopped, stopped, ⟨0, 3, [255]⟩] ∧
    stopped.position.toUInt64 + most = 1 ∧
    (Script.Request.bytes most.toNat).take stopped = .error .eof stopped ∧
    Script.Request.varint32.Exact 1 5 stopped := by
  intro data start stopped most
  have hVisited : start.visited
      [.item (.value (.row [.int, .int])), .item (.bytes most.toNat), .item .byte] =
      [start, stopped, stopped, ⟨0, 3, [255]⟩] := rfl
  obtain ⟨-, hEach⟩ := visited_stands_in 0 data
    [.item (.value (.row [.int, .int])), .item (.bytes most.toNat), .item .byte]
  rw [hVisited] at hEach
  obtain ⟨-, -, hWords, hExact⟩ := hEach stopped (.tail _ (.head _))
  have hWraps : data.slice? stopped.position.toUInt64 most = none := if_neg (by decide)
  have hTake := hWords.take_eq most
  rw [hWraps] at hTake
  exact ⟨hVisited, by decide, hTake, hExact .varint32 1 5 rfl⟩

end Cursor

end RowStore
