import RowStore.Storage.Search
import RowStore.Schema.Memory
import RowStore.Error

/-!
# Pages

A page keeps its keys in the first slots of a storage of fixed size, and the sum of their memory
estimates. Keys put in one by one stay distinct and in ascending order. A page remembers where the
last change took place and starts its searches there.

Allocation is assumed to succeed: the slots and the buffer that the options ask for always fit in
memory. A machine grants no array of 2^63 bytes or more, and what it does when asked for one is not
modelled.
-/

namespace RowStore

structure Page.Options where
  capacity : UInt64 := 48
  /-- The room set aside for the encoding of a page. -/
  bufferCapacity : UInt64 := 1024

structure Page where
  schema : Schema
  slots : Storage
  /-- The number of filled slots. They come first. -/
  length : Nat := 0
  memory : Nat := 0
  /-- The slot of the last change, where the next search looks first. -/
  hint : Nat := 0
  options : Page.Options

namespace Page

def new (schema : Schema) (options : Options) : Page where
  schema
  slots := .blank options.capacity.toNat
  options

def capacity (page : Page) : Nat := page.slots.length

def isEmpty (page : Page) : Bool := page.length == 0

def isFull (page : Page) : Bool := page.length == page.capacity

def keys (page : Page) : List Value := Storage.values (page.slots.take page.length)

def search (page : Page) (key : Value) : Counted Search :=
  page.schema.search key page.slots page.length page.hint

def get? (page : Page) (key : Value) : Counted (Option Value) := do
  match (← page.search key).position with
  | .hit index => pure (page.slots.value? index)
  | .gap _ => pure none

def replaceAt (page : Page) (index : Nat) (key : Value) : Page :=
  let others := match page.slots.value? index with
    | some old => page.memory - page.schema.memory old
    | none => page.memory
  { page with
    slots := page.slots.set index (some key)
    memory := others + page.schema.memory key
    hint := index }

/-- Puts `key` before the key in slot `index`. The empty slot after the last key goes. -/
def insertAt (page : Page) (index : Nat) (key : Value) : Page :=
  { page with
    slots := (page.slots.eraseIdx page.length).insertIdx index (some key)
    length := page.length + 1
    memory := page.memory + page.schema.memory key
    hint := index }

/-- Takes `key` out of slot `index`. An empty slot comes after the last key. -/
def removeAt (page : Page) (index : Nat) (key : Value) : Page :=
  let length := page.length - 1
  { page with
    slots := (page.slots.eraseIdx index).insertIdx length none
    length
    memory := page.memory - page.schema.memory key
    hint := min index (length - 1) }

/-- Adds a key, or replaces the one that equals it. The answer says whether the key is new. A full
page takes no new key. -/
def insert (page : Page) (key : Value) : Counted (Except Error Bool × Page) := do
  match (← page.search key).position with
  | .hit index => pure (.ok false, page.replaceAt index key)
  | .gap index =>
    if page.isFull then pure (.error (.pageFull page.capacity), page)
    else pure (.ok true, page.insertAt index key)

/-- Takes out the key that equals `key`, and answers it. -/
def remove (page : Page) (key : Value) : Counted (Option Value × Page) := do
  match (← page.search key).position with
  | .hit index =>
    match page.slots.value? index with
    | some old => pure (some old, page.removeAt index old)
    | none => pure (none, page)
  | .gap _ => pure (none, page)

end Page

end RowStore
