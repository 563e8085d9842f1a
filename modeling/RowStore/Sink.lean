import RowStore.Varint

/-!
# Sinks

A sink holds the bytes written so far and the room set aside for them. Every append first reserves
the room it may need. When that is not free, the capacity at least doubles and room for no fewer
than `leastGrowth` bytes is set aside, so that a long run of appends grows a sink only a logarithmic
number of times. `toList_append` says what an append does to the bytes; each of the `put` operations
is the append of one `Piece`.

Allocation is assumed to succeed: a sink can be given any capacity, and room is always found. What a
machine does when asked for more memory than it has is not modelled.
-/

namespace RowStore

structure Sink where
  contents : Array UInt8 := #[]
  capacity : Nat := 0

namespace Sink

/-- The least room that is set aside when a sink has to grow. -/
def leastGrowth : Nat := 256

def withCapacity (capacity : Nat) : Sink := ⟨#[], capacity⟩

def toList (sink : Sink) : Bytes := sink.contents.toList

def size (sink : Sink) : Nat := sink.contents.size

def isEmpty (sink : Sink) : Bool := sink.size == 0

/-- The capacity after room for `additional` more bytes was asked for, with `size` bytes in use. -/
def reserved (capacity size additional : Nat) : Nat :=
  if additional ≤ capacity - size then capacity
  else max (2 * capacity) (max (size + max additional (max capacity leastGrowth)) 8)

/-- Appends `data`, with room set aside for `room` bytes. -/
def append (sink : Sink) (room : Nat) (data : Bytes) : Sink :=
  let capacity := reserved sink.capacity sink.size room
  { contents := sink.contents ++ data, capacity }

def putBytes (sink : Sink) (data : Bytes) : Sink := sink.append data.length data

def putByte (sink : Sink) (b : UInt8) : Sink := sink.append 1 [b]

def putWord32 (sink : Sink) (word : UInt32) : Sink := sink.putBytes (bigEndian 4 word.toNat)

def putWord64 (sink : Sink) (word : UInt64) : Sink := sink.putBytes (bigEndian 8 word.toNat)

/-- Appends a varint, with room for the longest one of a 32-bit word. -/
def putVarint32 (sink : Sink) (word : UInt32) : Sink :=
  sink.append Varint.maxLength32 (Varint.encode word.toNat)

/-- Appends a varint, with room for the longest one of a 64-bit word. -/
def putVarint64 (sink : Sink) (word : UInt64) : Sink :=
  sink.append Varint.maxLength64 (Varint.encode word.toNat)

/-- Appends the length of a blob as a varint, then its bytes. -/
def putBlob (sink : Sink) (blob : Blob) : Sink := (sink.putVarint64 blob.size).putBytes blob.bytes

/-- What one append writes. -/
inductive Piece where
  | byte (b : UInt8)
  | word32 (word : UInt32)
  | word64 (word : UInt64)
  | varint32 (word : UInt32)
  | varint64 (word : UInt64)
  | bytes (data : Bytes)

namespace Piece

def put : Piece → Sink → Sink
  | byte b, sink => sink.putByte b
  | word32 word, sink => sink.putWord32 word
  | word64 word, sink => sink.putWord64 word
  | varint32 word, sink => sink.putVarint32 word
  | varint64 word, sink => sink.putVarint64 word
  | bytes data, sink => sink.putBytes data

def data : Piece → Bytes
  | byte b => [b]
  | word32 word => bigEndian 4 word.toNat
  | word64 word => bigEndian 8 word.toNat
  | varint32 word => Varint.encode word.toNat
  | varint64 word => Varint.encode word.toNat
  | bytes data => data

/-- The room that is reserved for the piece. -/
def room : Piece → Nat
  | byte _ => 1
  | word32 _ => 4
  | word64 _ => 8
  | varint32 _ => Varint.maxLength32
  | varint64 _ => Varint.maxLength64
  | bytes data => data.length

end Piece

/-- Drops the bytes and keeps the room. -/
def clear (sink : Sink) : Sink := { sink with contents := #[] }

theorem length_toList (sink : Sink) : sink.toList.length = sink.size := rfl

theorem size_of_toList {sink sink' : Sink} {data : Bytes} (h : sink'.toList = sink.toList ++ data) :
    sink'.size = sink.size + data.length := by
  rw [← length_toList, h, List.length_append, length_toList]

@[simp] theorem toList_withCapacity (capacity : Nat) : (withCapacity capacity).toList = [] := rfl

@[simp] theorem toList_clear (sink : Sink) : sink.clear.toList = [] := rfl

@[simp] theorem capacity_clear (sink : Sink) : sink.clear.capacity = sink.capacity := rfl

@[simp] theorem toList_append (sink : Sink) (room : Nat) (data : Bytes) :
    (sink.append room data).toList = sink.toList ++ data := by
  simp [append, toList]

@[simp] theorem capacity_append (sink : Sink) (room : Nat) (data : Bytes) :
    (sink.append room data).capacity = reserved sink.capacity sink.size room := rfl

@[simp] theorem toList_putBytes (sink : Sink) (data : Bytes) :
    (sink.putBytes data).toList = sink.toList ++ data := toList_append ..

@[simp] theorem toList_putByte (sink : Sink) (b : UInt8) :
    (sink.putByte b).toList = sink.toList ++ [b] := toList_append ..

@[simp] theorem toList_putWord32 (sink : Sink) (word : UInt32) :
    (sink.putWord32 word).toList = sink.toList ++ bigEndian 4 word.toNat := toList_append ..

@[simp] theorem toList_putWord64 (sink : Sink) (word : UInt64) :
    (sink.putWord64 word).toList = sink.toList ++ bigEndian 8 word.toNat := toList_append ..

@[simp] theorem toList_putVarint32 (sink : Sink) (word : UInt32) :
    (sink.putVarint32 word).toList = sink.toList ++ Varint.encode word.toNat := toList_append ..

@[simp] theorem toList_putVarint64 (sink : Sink) (word : UInt64) :
    (sink.putVarint64 word).toList = sink.toList ++ Varint.encode word.toNat := toList_append ..

theorem Piece.put_eq (piece : Piece) (sink : Sink) :
    piece.put sink = sink.append piece.room piece.data := by
  cases piece with
  | word32 word => exact congrArg (sink.append · _) (length_bigEndian 4 word.toNat)
  | word64 word => exact congrArg (sink.append · _) (length_bigEndian 8 word.toNat)
  | _ => rfl

theorem Piece.toList_put (piece : Piece) (sink : Sink) :
    (piece.put sink).toList = sink.toList ++ piece.data := by
  rw [put_eq, toList_append]

@[simp] theorem toList_putBlob (sink : Sink) (blob : Blob) :
    (sink.putBlob blob).toList =
      sink.toList ++ (Varint.encode blob.bytes.length ++ blob.bytes) := by
  simp [putBlob]

end Sink

/-- An action that appends to a sink and may fail. What it appended before a failure stays. -/
abbrev Writer := EStateM Error Sink

end RowStore
