import Mathlib.Algebra.Order.Ring.Nat
import Mathlib.Data.Nat.Log
import RowStore.Sink
import RowStore.Proofs.Varint

/-!
# How often a sink grows

An append never writes more than the room it reserved, so that the capacity changes only where room
is reserved, and then it at least doubles. Room is reserved for few bytes more than are written, so
that the capacity follows the greatest size that the sink has had. Both together bound how often a
sink grows, whatever is appended and however often it is cleared (`run_grows_geometrically`).
-/

namespace RowStore.Sink

inductive Operation where
  | put (piece : Piece)
  | clear

def Operation.apply (sink : Sink) : Operation → Sink
  | put piece => piece.put sink
  | clear => sink.clear

/-- A sink with what is remembered of its past: the greatest size it has had, and how often its
capacity changed. -/
structure Record where
  sink : Sink
  peak : Nat := sink.size
  growths : Nat := 0

def Record.step (record : Record) (operation : Operation) : Record :=
  let next := operation.apply record.sink
  { sink := next
    peak := max record.peak next.size
    growths := record.growths + if next.capacity = record.sink.capacity then 0 else 1 }

def Record.run (record : Record) : List Operation → Record
  | [] => record
  | operation :: operations => (record.step operation).run operations

/-- The capacity after `step` more bytes were asked for at once, with nothing in reserve. -/
def extended (capacity size step : Nat) : Nat :=
  if step ≤ capacity - size then capacity else max (2 * capacity) (max (size + step) 8)

def reserve (sink : Sink) (room : Nat) : Sink :=
  { sink with capacity := reserved sink.capacity sink.size room }

/-- Bytes written without reserving room before. They set aside what room they lack. -/
def write (sink : Sink) (data : Bytes) : Sink where
  contents := sink.contents ++ data
  capacity := extended sink.capacity sink.size data.length

/-- The most that a sink has set aside by itself when its greatest size was `peak`. -/
def bound (peak : Nat) : Nat := max (2 * peak + 18) (peak + leastGrowth)

/-- What one operation does to the capacity. -/
structure Steps (sink : Sink) (operation : Operation) : Prop where
  capacity_le : sink.capacity ≤ (operation.apply sink).capacity
  of_change : (operation.apply sink).capacity ≠ sink.capacity →
    max (2 * sink.capacity) leastGrowth ≤ (operation.apply sink).capacity ∧
    ∃ piece, operation = .put piece ∧ sink.capacity < sink.size + piece.room ∧
      (operation.apply sink).capacity = extended sink.capacity sink.size
        (max piece.room (max sink.capacity leastGrowth))
  /-- However the bytes are cut into parts, writing them does not set aside more room. -/
  of_put : ∀ piece, operation = .put piece → piece.data.length ≤ piece.room ∧
    ∀ parts : List Bytes, parts.flatten = piece.data →
      operation.apply sink = parts.foldl write (sink.reserve piece.room)
  of_clear : operation = .clear → (operation.apply sink).capacity = sink.capacity

variable {capacity size additional start : Nat} {sink : Sink} {data : Bytes} {piece : Piece}
  {record : Record}

@[simp] theorem size_append (sink : Sink) (room : Nat) (data : Bytes) :
    (sink.append room data).size = sink.size + data.length :=
  size_of_toList (sink.toList_append room data)

/-- Room is reserved as if it were asked for at once, in a step that is not small. -/
theorem reserved_eq_extended (h : capacity - size < additional) :
    reserved capacity size additional =
      extended capacity size (max additional (max capacity leastGrowth)) := by
  rw [reserved, extended, if_neg (by omega), if_neg (by omega)]

theorem reserved_cases (capacity size additional : Nat) :
    (additional ≤ capacity - size ∧ reserved capacity size additional = capacity) ∨
    (capacity - size < additional ∧ reserved capacity size additional =
      max (2 * capacity) (max (size + max additional (max capacity leastGrowth)) 8)) := by
  unfold reserved
  split
  · exact .inl ⟨by assumption, rfl⟩
  · exact .inr ⟨by omega, rfl⟩

theorem le_reserved (capacity size additional : Nat) :
    capacity ≤ reserved capacity size additional := by
  rcases reserved_cases capacity size additional with ⟨-, h⟩ | ⟨-, h⟩ <;> omega

theorem add_le_reserved (h : size ≤ capacity) (additional : Nat) :
    size + additional ≤ reserved capacity size additional := by
  rcases reserved_cases capacity size additional with ⟨hFree, hSame⟩ | ⟨-, hGrown⟩ <;> omega

theorem le_reserved_of_ne (h : reserved capacity size additional ≠ capacity) :
    max (2 * capacity) leastGrowth ≤ reserved capacity size additional := by
  rcases reserved_cases capacity size additional with ⟨-, hSame⟩ | ⟨-, hGrown⟩ <;> omega

theorem lt_add_of_reserved_ne (hSize : size ≤ capacity)
    (h : reserved capacity size additional ≠ capacity) : capacity < size + additional := by
  rcases reserved_cases capacity size additional with ⟨-, hSame⟩ | ⟨hFull, -⟩ <;> omega

namespace Piece

theorem length_le (piece : Piece) : piece.data.length ≤ piece.room := by
  cases piece with
  | varint32 word => exact Varint.length_encode_le32 word.toNat_lt_size
  | varint64 word => exact Varint.length_encode_le64 word.toNat_lt_size
  | word32 word => exact Nat.le_of_eq (length_bigEndian 4 word.toNat)
  | word64 word => exact Nat.le_of_eq (length_bigEndian 8 word.toNat)
  | _ => exact Nat.le_refl _

/-- Only varints can be shorter than the room for them, and they have a byte at least. -/
theorem room_le (piece : Piece) : piece.room ≤ piece.data.length + 9 := by
  cases piece with
  | varint32 word =>
    have hPos := Varint.length_encode_pos word.toNat
    simp only [room, data, Varint.maxLength32]
    omega
  | varint64 word =>
    have hPos := Varint.length_encode_pos word.toNat
    simp only [room, data, Varint.maxLength64]
    omega
  | word32 word => simp [room, data]
  | word64 word => simp [room, data]
  | _ => exact Nat.le_add_right _ _

theorem size_put (piece : Piece) (sink : Sink) :
    (piece.put sink).size = sink.size + piece.data.length := by
  rw [put_eq, size_append]

theorem capacity_put (piece : Piece) (sink : Sink) :
    (piece.put sink).capacity = reserved sink.capacity sink.size piece.room := by
  rw [put_eq, capacity_append]

end Piece

theorem write_eq (sink : Sink) (h : sink.size + data.length ≤ sink.capacity) :
    sink.write data = { sink with contents := sink.contents ++ data } := by
  rw [write, extended, if_pos (by omega)]

theorem foldl_write_eq {parts : List Bytes}
    (h : sink.size + parts.flatten.length ≤ sink.capacity) :
    parts.foldl write sink = { sink with contents := sink.contents ++ parts.flatten } := by
  induction parts generalizing sink with
  | nil => simp
  | cons part parts ih =>
    rw [List.flatten_cons, List.length_append] at h
    have hPart : sink.write part = { sink with contents := sink.contents ++ part } :=
      sink.write_eq (by omega)
    have hCapacity : (sink.write part).capacity = sink.capacity := by rw [hPart]
    have hSize : (sink.write part).size = sink.size + part.length := by
      apply size_of_toList
      simp [write, toList]
    rw [List.foldl_cons, ih (by omega), hPart]
    congr 1
    apply Array.ext'
    simp

theorem put_eq_foldl_write (h : sink.size ≤ sink.capacity) (piece : Piece) {parts : List Bytes}
    (hParts : parts.flatten = piece.data) :
    piece.put sink = parts.foldl write (sink.reserve piece.room) := by
  have hReserved := add_le_reserved h piece.room
  have hLength := piece.length_le
  have hFits : sink.size + piece.data.length ≤
      reserved sink.capacity sink.size piece.room := by omega
  rw [foldl_write_eq, hParts, Piece.put_eq]
  · rfl
  · rw [hParts]
    exact hFits

theorem steps (h : sink.size ≤ sink.capacity) (operation : Operation) : sink.Steps operation where
  capacity_le := by
    cases operation with
    | put piece => exact piece.capacity_put sink ▸ le_reserved _ _ _
    | clear => exact Nat.le_refl _
  of_change := by
    cases operation with
    | put piece =>
      rw [Operation.apply, piece.capacity_put]
      intro hChange
      have hFull := lt_add_of_reserved_ne h hChange
      exact ⟨le_reserved_of_ne hChange, piece, rfl, hFull, reserved_eq_extended (by omega)⟩
    | clear => exact fun hChange => absurd rfl hChange
  of_put := by
    rintro piece rfl
    exact ⟨piece.length_le, fun parts hParts => put_eq_foldl_write h piece hParts⟩
  of_clear := by
    rintro rfl
    rfl

theorem size_apply_le (h : sink.size ≤ sink.capacity) (operation : Operation) :
    (operation.apply sink).size ≤ (operation.apply sink).capacity := by
  cases operation with
  | put piece =>
    have hReserved := add_le_reserved h piece.room
    have hLength := piece.length_le
    rw [Operation.apply, piece.size_put, piece.capacity_put]
    omega
  | clear => exact Nat.zero_le _

/-- A sink that grows was almost full, and then sets aside no more than twice its size and a
little. -/
theorem reserved_le_bound {peak : Nat} (hSize : size ≤ peak) (hRoom : size + additional ≤ peak + 9)
    (h : reserved capacity size additional ≠ capacity) :
    reserved capacity size additional ≤ bound peak := by
  unfold bound leastGrowth
  rcases reserved_cases capacity size additional with ⟨-, hSame⟩ | ⟨hFull, hGrown⟩
  · exact absurd hSame h
  · rw [leastGrowth] at hGrown
    omega

theorem bound_mono {peak peak' : Nat} (h : peak ≤ peak') : bound peak ≤ bound peak' := by
  unfold bound
  omega

namespace Record

/-- What holds of every sink that had room for `start` bytes at first. -/
structure Bounded (start : Nat) (record : Record) : Prop where
  size_le : record.sink.size ≤ record.sink.capacity
  size_le_peak : record.sink.size ≤ record.peak
  capacity_le : record.sink.capacity ≤ max start (bound record.peak)
  doubled : 0 < record.growths → leastGrowth * 2 ^ record.growths ≤ 2 * record.sink.capacity
  capacity_le_of_growths : 0 < record.growths → record.sink.capacity ≤ bound record.peak

theorem bounded_start (start : Nat) : Bounded start { sink := .withCapacity start } where
  size_le := Nat.zero_le _
  size_le_peak := Nat.le_refl _
  capacity_le := Nat.le_max_left _ _
  doubled h := absurd h (Nat.lt_irrefl 0)
  capacity_le_of_growths h := absurd h (Nat.lt_irrefl 0)

theorem capacity_step_le_bound {operation : Operation}
    (h : (operation.apply record.sink).capacity ≠ record.sink.capacity) :
    (operation.apply record.sink).capacity ≤ bound (record.step operation).peak := by
  cases operation with
  | put piece =>
    have hRoom := piece.room_le
    have hSize := piece.size_put record.sink
    rw [Operation.apply, piece.capacity_put] at h ⊢
    have hPeak : record.sink.size + piece.data.length ≤ (record.step (.put piece)).peak :=
      hSize ▸ Nat.le_max_right _ _
    exact reserved_le_bound (by omega) (by omega) h
  | clear => exact absurd rfl h

theorem Bounded.step (h : record.Bounded start) (operation : Operation) :
    (record.step operation).Bounded start := by
  have hSteps := steps h.size_le operation
  have hMono : bound record.peak ≤ bound (record.step operation).peak :=
    bound_mono (Nat.le_max_left _ _)
  have hSize : (record.step operation).sink.size ≤ (record.step operation).sink.capacity :=
    size_apply_le h.size_le operation
  have hPeak : (record.step operation).sink.size ≤ (record.step operation).peak :=
    Nat.le_max_right _ _
  by_cases hSame : (operation.apply record.sink).capacity = record.sink.capacity
  · have hCapacity : (record.step operation).sink.capacity = record.sink.capacity := hSame
    have hGrowths : (record.step operation).growths = record.growths := by
      simp [Record.step, hSame]
    refine ⟨hSize, hPeak, ?_, ?_, ?_⟩
    · have hOld := h.capacity_le
      omega
    · rw [hGrowths, hCapacity]
      exact h.doubled
    · rw [hGrowths, hCapacity]
      intro hPos
      exact (h.capacity_le_of_growths hPos).trans hMono
  · have hBound : (record.step operation).sink.capacity ≤ bound (record.step operation).peak :=
      capacity_step_le_bound hSame
    have hChange : max (2 * record.sink.capacity) leastGrowth ≤
        (record.step operation).sink.capacity := (hSteps.of_change hSame).1
    have hGrowths : (record.step operation).growths = record.growths + 1 := by
      simp [Record.step, hSame]
    refine ⟨hSize, hPeak, hBound.trans (Nat.le_max_right _ _), ?_, fun _ => hBound⟩
    intro _
    rw [hGrowths, Nat.pow_succ, ← Nat.mul_assoc]
    rcases Nat.eq_zero_or_pos record.growths with hNone | hSome
    · rw [hNone]
      omega
    · have hOld := h.doubled hSome
      omega

theorem Bounded.run (h : record.Bounded start) (operations : List Operation) :
    (record.run operations).Bounded start := by
  induction operations generalizing record with
  | nil => exact h
  | cons operation operations ih => exact ih (h.step operation)

end Record

/-- Let a sink with room for `start` bytes go through any operations. Its capacity has stayed within
what its greatest size called for, unless `start` was more, and it has grown a number of times that
is logarithmic in that size. What the next operation does to the capacity is in `Steps`. -/
theorem run_grows_geometrically (start : Nat) (operations : List Operation) :
    let record := Record.run { sink := .withCapacity start } operations
    record.sink.size ≤ record.sink.capacity ∧
    (∀ operation, record.sink.Steps operation) ∧
    record.sink.capacity ≤ max start (bound record.peak) ∧
    (0 < record.growths → leastGrowth * 2 ^ (record.growths - 1) ≤ bound record.peak ∧
      record.growths - 1 ≤ Nat.log 2 (bound record.peak / leastGrowth)) := by
  intro record
  have hBounded : record.Bounded start := (Record.bounded_start start).run operations
  refine ⟨hBounded.size_le, steps hBounded.size_le, hBounded.capacity_le, ?_⟩
  intro hPos
  have hPow : leastGrowth * 2 ^ (record.growths - 1) ≤ bound record.peak := by
    have hDoubled := hBounded.doubled hPos
    have hCapacity := hBounded.capacity_le_of_growths hPos
    obtain ⟨others, hGrowths⟩ := Nat.exists_eq_succ_of_ne_zero (Nat.ne_of_gt hPos)
    rw [hGrowths, Nat.pow_succ, ← Nat.mul_assoc] at hDoubled
    rw [hGrowths, Nat.succ_sub_one]
    omega
  refine ⟨hPow, Nat.le_log_of_pow_le (by decide) ?_⟩
  rw [Nat.le_div_iff_mul_le (by decide), Nat.mul_comm]
  exact hPow

/-- A sink without room grows for its first byte, and again for bytes that are more than it then has
room for. Cleared, it keeps the room. -/
theorem run_grows_geometrically_cleared :
    let record := Record.run { sink := .withCapacity 0 }
      [.put (.byte 7), .put (.bytes (List.replicate 300 0)), .clear]
    record.sink.size = 0 ∧ record.sink.capacity = 512 ∧ record.peak = 301 ∧ record.growths = 2 ∧
      record.sink.capacity ≤ max 0 (bound record.peak) ∧
      leastGrowth * 2 ^ (record.growths - 1) ≤ bound record.peak := by
  intro record
  obtain ⟨-, -, hCapacity, hGrowths⟩ := run_grows_geometrically 0
    [.put (.byte 7), .put (.bytes (List.replicate 300 0)), .clear]
  have hTwo : record.growths = 2 := by decide +kernel
  have hPos : 0 < record.growths := by omega
  exact ⟨rfl, by decide +kernel, by decide +kernel, hTwo, hCapacity, (hGrowths hPos).1⟩

end RowStore.Sink
