import RowStore.Schema.Codec
import RowStore.Schema.Conforms
import RowStore.Value.Encoding

/-!
# What writing does

Writing succeeds on the values that fit the schema (`write_isOk_iff`), and appends their encoding
(`write_of_conforms`).
-/

namespace RowStore.Schema

theorem writeArity_eq (arity columns : Nat) (sink : Sink) :
    writeArity arity columns sink =
      if columns < arity ∨ UInt32.size ≤ arity then .error (.arityOverflow arity columns) sink
      else .ok () (sink.putVarint32 arity.toUInt32) := by
  unfold writeArity
  split <;> rfl

mutual

theorem write_of_conforms : ∀ {schema : Schema} {x : Value} (sink : Sink), Conforms schema x →
    ∃ sink', write schema x sink = .ok () sink' ∧ sink'.toList = sink.toList ++ x.encoding
  | .int, .int n, sink, _ => ⟨_, rfl, by simp [Value.encoding]⟩
  | .long, .long n, sink, _ => ⟨_, rfl, by simp [Value.encoding]⟩
  | .string, .string text, sink, _ => ⟨_, rfl, by simp [Value.encoding, Blob.encoding]⟩
  | .bytes, .bytes blob, sink, _ => ⟨_, rfl, by simp [Value.encoding, Blob.encoding]⟩
  | .row columns, .row origin xs, sink, h => by
    simp only [Conforms] at h
    have hLength := h.2.length_le
    obtain ⟨sink', hWrite, hList⟩ :=
      writeColumns_of_conforms (sink.putVarint32 xs.length.toUInt32) h.2
    refine ⟨sink', ?_, ?_⟩
    · simp only [write, bind, EStateM.bind, writeArity_eq]
      rw [if_neg (by omega)]
      exact hWrite
    · simp [hList, Value.encoding, Nat.mod_eq_of_lt h.1]

theorem writeColumns_of_conforms : ∀ {columns : List Schema} {xs : List Value} (sink : Sink),
    ConformAll columns xs → ∃ sink', writeColumns columns xs sink = .ok () sink' ∧
      sink'.toList = sink.toList ++ Value.encodingAll xs
  | [], [], sink, _ => ⟨sink, rfl, by simp [Value.encodingAll]⟩
  | _ :: _, [], sink, _ => ⟨sink, rfl, by simp [Value.encodingAll]⟩
  | schema :: columns, x :: xs, sink, h => by
    simp only [ConformAll] at h
    obtain ⟨sink₁, hWrite₁, hList₁⟩ := write_of_conforms sink h.1
    obtain ⟨sink₂, hWrite₂, hList₂⟩ := writeColumns_of_conforms sink₁ h.2
    refine ⟨sink₂, ?_, ?_⟩
    · simp only [writeColumns, bind, EStateM.bind, hWrite₁]
      exact hWrite₂
    · simp [hList₂, hList₁, Value.encodingAll]

end

mutual

theorem conforms_of_write : ∀ {schema : Schema} {x : Value} {sink sink' : Sink},
    write schema x sink = .ok () sink' → Conforms schema x
  | .int, .int _, _, _, _ => rfl
  | .long, .long _, _, _, _ => rfl
  | .string, .string _, _, _, _ => rfl
  | .bytes, .bytes _, _, _, _ => rfl
  | .row columns, .row origin xs, sink, sink', h => by
    simp only [write, bind, EStateM.bind, writeArity_eq] at h
    split at h
    · rename_i sink₁ hArity
      split at hArity
      · cases hArity
      · exact ⟨by omega, conformAll_of_writeColumns (by omega) h⟩
    · cases h

theorem conformAll_of_writeColumns : ∀ {columns : List Schema} {xs : List Value}
    {sink sink' : Sink}, xs.length ≤ columns.length →
    writeColumns columns xs sink = .ok () sink' → ConformAll columns xs
  | _, [], _, _, _, _ => by simp [ConformAll]
  | [], _ :: _, _, _, hLength, _ => by simp at hLength
  | schema :: columns, x :: xs, sink, sink', hLength, h => by
    simp only [writeColumns, bind, EStateM.bind] at h
    split at h
    · rename_i sink₁ hWrite
      exact ⟨conforms_of_write hWrite, conformAll_of_writeColumns (by simpa using hLength) h⟩
    · cases h

end

theorem write_isOk_iff {schema : Schema} {x : Value} {sink : Sink} :
    (∃ sink', write schema x sink = .ok () sink') ↔ Conforms schema x := by
  constructor
  · rintro ⟨sink', h⟩
    exact conforms_of_write h
  · intro h
    obtain ⟨sink', hWrite, -⟩ := write_of_conforms sink h
    exact ⟨sink', hWrite⟩

end RowStore.Schema
