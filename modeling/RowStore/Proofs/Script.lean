import RowStore.Script
import RowStore.Proofs.BigEndian
import RowStore.Proofs.FailedWrite

/-!
# Taking what a script appended

The requests of a script take its items from the bytes it appended, one by one and with nothing left
over, whatever follows (`takeAll_putAll`). After each of them the cursor stands where the sink ended
after the item, so that no item is read into the next one.
-/

namespace RowStore

theorem Reader.word_bigEndian {width n : Nat} (h : n < 256 ^ width) (source position : Nat)
    (rest : Bytes) : word width ⟨source, position, bigEndian width n ++ rest⟩ =
      .ok n ⟨source, position + (bigEndian width n).length, rest⟩ := by
  have hTake := take_append source position rest (length_bigEndian width n)
  rw [word, map_of_ok hTake fun taken => ofBigEndian taken.val, ofBigEndian_bigEndian h,
    length_bigEndian]

namespace Script

namespace Item

/-- A value has to fit its schema. -/
def Fits : Item → Prop
  | value schema x => schema.Conforms x
  | _ => True

def encoding : Item → Bytes
  | piece part => part.data
  | value _ x => x.encoding

/-- The item without the places where rows were built. -/
def content : Item → Item
  | value schema x => value schema x.content
  | item => item

theorem put_appends {item : Item} (h : item.Fits) : item.put.Appends item.encoding := by
  cases item with
  | piece part => exact fun sink => ⟨_, rfl, part.toList_put sink⟩
  | value schema x => exact Schema.write_appends h

theorem take_piece (piece : Sink.Piece) (source position : Nat) (rest : Bytes) :
    (Item.piece piece).request.take ⟨source, position, piece.data ++ rest⟩ =
      .ok (.piece piece) ⟨source, position + piece.data.length, rest⟩ := by
  cases piece with
  | byte b => rfl
  | word32 word =>
    have hFits : word.toNat < 256 ^ 4 := word.toNat_lt_size
    have hWord : word.toNat.toUInt32 = word := UInt32.ofNat_toNat
    have hRead := Reader.map_of_ok (Reader.word_bigEndian hFits source position rest) Nat.toUInt32
    rw [hWord] at hRead
    exact Reader.map_of_ok hRead fun word => Item.piece (.word32 word)
  | word64 word =>
    have hFits : word.toNat < 256 ^ 8 := word.toNat_lt_size
    have hWord : word.toNat.toUInt64 = word := UInt64.ofNat_toNat
    have hRead := Reader.map_of_ok (Reader.word_bigEndian hFits source position rest) Nat.toUInt64
    rw [hWord] at hRead
    exact Reader.map_of_ok hRead fun word => Item.piece (.word64 word)
  | varint32 word =>
    have hRead := Reader.varint32_encode source position rest word
    exact Reader.map_of_ok hRead fun word => Item.piece (.varint32 word)
  | varint64 word =>
    have hRead := Reader.varint64_encode source position rest word
    exact Reader.map_of_ok hRead fun word => Item.piece (.varint64 word)
  | bytes data =>
    have hRead := Reader.take_append source position rest (rfl : data.length = data.length)
    exact Reader.map_of_ok hRead fun taken => Item.piece (.bytes taken.val)

theorem take_encoding {item : Item} (h : item.Fits) (source position : Nat) (rest : Bytes) :
    ∃ answer, item.request.take ⟨source, position, item.encoding ++ rest⟩ =
      .ok answer ⟨source, position + item.encoding.length, rest⟩ ∧
      answer.content = item.content := by
  cases item with
  | piece part => exact ⟨.piece part, take_piece part source position rest, rfl⟩
  | value schema x =>
    obtain ⟨y, hRead, hContent⟩ := Schema.read_encoding source position rest h
    refine ⟨.value schema y, Reader.map_of_ok hRead (value schema), ?_⟩
    rw [content, content, hContent]

end Item

/-- Where each item ends when the first one begins at `start`. -/
def ends (start : Nat) : List Item → List Nat
  | [] => []
  | item :: items => (start + item.encoding.length) :: ends (start + item.encoding.length) items

theorem putAll_cons {item : Item} {items : List Item} {sink mid last : Sink} {sizes : List Nat}
    (hFirst : item.put sink = .ok () mid) (hRest : putAll items mid = .ok sizes last) :
    putAll (item :: items) sink = .ok (mid.size :: sizes) last := by
  have hGet : (get : Writer Sink) mid = .ok mid mid := rfl
  simp only [putAll, bind, EStateM.bind, hFirst, hGet, hRest]
  rfl

theorem takeAll_cons {request : Request} {requests : List Request} {cursor mid last : Cursor}
    {answer : Item} {answers : List Taken} (hFirst : request.take cursor = .ok answer mid)
    (hRest : takeAll requests mid = .ok answers last) :
    takeAll (request :: requests) cursor = .ok (⟨answer, mid.position⟩ :: answers) last := by
  rw [takeAll, Reader.bind_of_ok hFirst, Reader.bind_of_ok (Reader.get_eq mid),
    Reader.bind_of_ok hRest]
  rfl

theorem putAll_appends {items : List Item} (h : ∀ item ∈ items, item.Fits) (sink : Sink) :
    ∃ last, putAll items sink = .ok (ends sink.size items) last ∧
      last.toList = sink.toList ++ items.flatMap Item.encoding := by
  induction items generalizing sink with
  | nil => exact ⟨sink, rfl, (List.append_nil _).symm⟩
  | cons item items ih =>
    obtain ⟨mid, hFirst, hList⟩ := Item.put_appends (h item List.mem_cons_self) sink
    obtain ⟨last, hRest, hListRest⟩ := ih (fun other hOther => h other (.tail _ hOther)) mid
    refine ⟨last, ?_, ?_⟩
    · rw [putAll_cons hFirst hRest, ends, Sink.size_of_toList hList]
    · rw [hListRest, hList, List.flatMap_cons, List.append_assoc]

theorem takeAll_encoding {items : List Item} (h : ∀ item ∈ items, item.Fits)
    (source position : Nat) (rest : Bytes) :
    ∃ answers, takeAll (items.map Item.request)
        ⟨source, position, items.flatMap Item.encoding ++ rest⟩ =
      .ok answers ⟨source, position + (items.flatMap Item.encoding).length, rest⟩ ∧
      answers.map (·.item.content) = items.map Item.content ∧
      answers.map Taken.position = ends position items := by
  induction items generalizing position with
  | nil => exact ⟨[], rfl, rfl, rfl⟩
  | cons item items ih =>
    obtain ⟨answer, hFirst, hContent⟩ := Item.take_encoding (h item List.mem_cons_self) source
      position (items.flatMap Item.encoding ++ rest)
    obtain ⟨answers, hRest, hContents, hPositions⟩ :=
      ih (fun other hOther => h other (.tail _ hOther)) (position + item.encoding.length)
    refine ⟨⟨answer, position + item.encoding.length⟩ :: answers, ?_, ?_, ?_⟩
    · rw [List.map_cons, List.flatMap_cons, List.append_assoc, takeAll_cons hFirst hRest,
        List.length_append, Nat.add_assoc]
    · rw [List.map_cons, List.map_cons, hContent, hContents]
    · rw [List.map_cons, hPositions, ends]

/-- A script of items that fit can be run. Of its bytes, with any others behind them, its requests
take the items again, each up to where the sink ended after it, and leave the other bytes. -/
theorem takeAll_putAll {items : List Item} (h : ∀ item ∈ items, item.Fits) (capacity : Nat) :
    ∃ sizes sink, putAll items (.withCapacity capacity) = .ok sizes sink ∧
      ∀ source rest, ∃ answers,
        takeAll (items.map Item.request) (.ofBytes source (sink.toList ++ rest)) =
          .ok answers ⟨source, sink.size, rest⟩ ∧
        answers.map (·.item.content) = items.map Item.content ∧
        answers.map Taken.position = sizes := by
  obtain ⟨sink, hPut, hList⟩ := putAll_appends h (.withCapacity capacity)
  rw [Sink.toList_withCapacity, List.nil_append] at hList
  refine ⟨_, sink, hPut, ?_⟩
  intro source rest
  obtain ⟨answers, hTake, hContents, hPositions⟩ := takeAll_encoding h source 0 rest
  have hSize : sink.size = 0 + (items.flatMap Item.encoding).length := by
    rw [← Sink.length_toList, hList, Nat.zero_add]
  refine ⟨answers, ?_, hContents, hPositions⟩
  rw [Cursor.ofBytes, hList, hTake, hSize]

/-- A word, a row that leaves out its last column, no bytes at all, and a varint of two bytes. -/
theorem takeAll_putAll_mixed :
    let items : List Item := [.piece (.word32 7),
      .value (.row [.int, .string]) (.row { offset := 9 } [.int 5]), .piece (.bytes []),
      .piece (.varint64 300)]
    ∃ sink, putAll items (.withCapacity 3) = .ok [4, 6, 6, 8] sink ∧
      ∀ source rest, ∃ answers,
        takeAll [.word32, .value (.row [.int, .string]), .bytes 0, .varint64]
          (.ofBytes source (sink.toList ++ rest)) = .ok answers ⟨source, sink.size, rest⟩ ∧
        answers.map (·.item.content) = [.piece (.word32 7),
          .value (.row [.int, .string]) (.row {} [.int 5]), .piece (.bytes []),
          .piece (.varint64 300)] ∧
        answers.map Taken.position = [4, 6, 6, 8] := by
  intro items
  have hFits : ∀ item ∈ items, item.Fits := by
    simp [items, Item.Fits, Schema.Conforms, Schema.ConformAll, Schema.kind, Value.kind,
      UInt32.size]
  obtain ⟨sizes, sink, hPut, hTake⟩ := takeAll_putAll hFits 3
  have hSizes : sizes = [4, 6, 6, 8] := by
    obtain ⟨last, hEnds, -⟩ := putAll_appends hFits (.withCapacity 3)
    rw [hPut] at hEnds
    cases hEnds
    have hInt : (5 : Int32).toUInt32.toNat = 5 := rfl
    have hVarint : (300 : UInt64).toNat = 300 := rfl
    have hSize : (Sink.withCapacity 3).size = 0 := rfl
    simp only [items, ends, Item.encoding, Sink.Piece.data, Value.encoding, Value.encodingAll, hInt,
      hVarint, hSize]
    simp [Varint.encode_of_lt, Varint.encode_of_le]
  subst hSizes
  exact ⟨sink, hPut, hTake⟩

end Script

end RowStore
