import RowStore.Proofs.RoundTrip
import RowStore.Proofs.Steady

/-!
# What reading accepts

Under every schema, reading is steady, and what it accepts is a spelling of a value that fits the
schema (`steady_read`). So a value read does not depend on the bytes behind it (`read_verdict`), and
writing it again removes the padding of its numbers and changes nothing else (`write_after_read`).
-/

namespace RowStore.Schema

theorem steady_readArity (columns : Nat) : (readArity columns).Steady fun arity taken =>
    Varint.SpelledBy arity taken ∧ arity ≤ columns ∧ arity < UInt32.size := by
  unfold readArity
  apply Reader.steady_varint32.bind
  intro word
  dsimp only
  split
  · exact Reader.steady_throw (.rowTooWide word.toNat columns)
  · rename_i hColumns
    apply Reader.steady_pure
    intro before hSpelled
    rw [List.append_nil]
    exact ⟨hSpelled, Nat.le_of_not_lt hColumns, word.toNat_lt_size⟩

mutual

theorem steady_read : ∀ schema : Schema, (read schema).Steady fun x taken =>
    schema.Conforms x ∧ x.SpelledBy taken
  | .int => by
    unfold read
    apply Reader.steady_varint32.map
    intro word taken hSpelled
    exact ⟨rfl, hSpelled⟩
  | .long => by
    unfold read
    apply Reader.steady_varint64.map
    intro word taken hSpelled
    exact ⟨rfl, hSpelled⟩
  | .string => by
    unfold read
    apply Reader.steady_blob.bind
    intro blob
    cases hText : Text.ofBlob blob with
    | ok text =>
      apply Reader.steady_pure
      intro before hSpelled
      rw [List.append_nil]
      rw [← Text.encode_of_ofBlob hText] at hSpelled
      exact ⟨rfl, hSpelled⟩
    | error cause => exact Reader.steady_throw (.notText cause)
  | .bytes => by
    unfold read
    apply Reader.steady_blob.map
    intro blob taken hSpelled
    exact ⟨rfl, hSpelled⟩
  | .row columns => by
    unfold read
    apply Reader.steady_place (f := fun origin => do
      let arity ← readArity columns.length
      return Value.row origin (← readColumns columns arity))
    intro origin
    apply (steady_readArity columns.length).bind
    intro arity
    apply (steady_readColumns columns arity).map
    rintro xs taken hColumns before ⟨hSpelled, hArity, hCount⟩
    obtain ⟨hLength, hConform, hAll⟩ := hColumns hArity
    subst hLength
    exact ⟨⟨hCount, hConform⟩, before, taken, hSpelled, hAll, rfl⟩

theorem steady_readColumns : ∀ (columns : List Schema) (arity : Nat),
    (readColumns columns arity).Steady fun xs taken => arity ≤ columns.length →
      xs.length = arity ∧ ConformAll columns xs ∧ Value.AllSpelledBy xs taken
  | [], arity => by
    unfold readColumns
    apply Reader.steady_pure
    intro hArity
    have hZero : arity = 0 := Nat.le_zero.mp hArity
    exact ⟨hZero.symm, trivial, rfl⟩
  | schema :: columns, 0 => by
    unfold readColumns
    apply Reader.steady_pure
    intro _
    exact ⟨rfl, trivial, rfl⟩
  | schema :: columns, arity + 1 => by
    unfold readColumns
    apply (steady_read schema).bind
    intro x
    apply (steady_readColumns columns arity).map
    rintro xs taken hColumns before ⟨hConforms, hSpelled⟩ hArity
    obtain ⟨hLength, hConform, hAll⟩ := hColumns (Nat.le_of_succ_le_succ hArity)
    exact ⟨by rw [List.length_cons, hLength], ⟨hConforms, hConform⟩, before, taken, hSpelled, hAll,
      rfl⟩

end

theorem conforms_of_read {schema : Schema} {x : Value} {cursor next : Cursor}
    (h : schema.read cursor = .ok x next) : schema.Conforms x := by
  obtain ⟨source, position, data⟩ := cursor
  obtain ⟨taken, rest, -, -, ⟨hConforms, -⟩, -⟩ := (steady_read schema).of_ok h
  exact hConforms

theorem length_of_readColumns {columns : List Schema} {arity : Nat} {xs : List Value}
    {cursor next : Cursor} (hArity : arity ≤ columns.length)
    (h : readColumns columns arity cursor = .ok xs next) : xs.length = arity := by
  obtain ⟨source, position, data⟩ := cursor
  obtain ⟨taken, rest, -, -, hColumns, -⟩ := (steady_readColumns columns arity).of_ok h
  exact (hColumns hArity).1

/-- A value read depends on nothing behind it, and of less than its spelling more is asked for. Of
all verdicts only that more is needed can change when more bytes arrive. -/
theorem read_verdict (schema : Schema) (source position : Nat) (data : Bytes) :
    (∀ e next, schema.read ⟨source, position, data⟩ = .error e next →
      e = .eof ∨ ∃ cause, e = .corruption cause) ∧
    (∀ x next, schema.read ⟨source, position, data⟩ = .ok x next → ∃ k ≤ data.length,
      next = ⟨source, position + k, data.drop k⟩ ∧
      (∀ rest, schema.read ⟨source, position, data.take k ++ rest⟩ =
        .ok x ⟨source, position + k, rest⟩) ∧
      ∀ j < k, ∃ stop, schema.read ⟨source, position, data.take j⟩ = .error .eof stop) ∧
    (∀ cause next, schema.read ⟨source, position, data⟩ = .error (.corruption cause) next →
      ∀ more, schema.read ⟨source, position, data ++ more⟩ =
        .error (.corruption cause) { next with rest := next.rest ++ more }) ∧
    (∀ x y more next last, schema.read ⟨source, position, data⟩ = .ok x next →
      schema.read ⟨source, position, data ++ more⟩ = .ok y last →
      next.rest = [] → last.rest = [] → more = []) := by
  refine ⟨?_, ?_, ?_, ?_⟩
  · intro e next hRead
    rcases (steady_read schema).of_error hRead with hEof | ⟨cause, hCause, -⟩
    · exact .inl hEof
    · exact .inr ⟨cause, hCause⟩
  · intro x next hRead
    obtain ⟨taken, rest, rfl, hNext, -, hAccepts⟩ := (steady_read schema).of_ok hRead
    refine ⟨taken.length, ?_, ?_, ?_, ?_⟩
    · rw [List.length_append]
      exact Nat.le_add_right _ _
    · rw [List.drop_left, hNext]
    · intro more
      rw [List.take_left, hAccepts.extended]
    · intro j hj
      rw [List.take_append_of_le_length (Nat.le_of_lt hj)]
      exact hAccepts.cut j hj
  · intro cause next hRead more
    rcases (steady_read schema).of_error hRead with hEof | ⟨cause', hCause, hRefuses⟩
    · cases hEof
    · cases hCause
      exact hRefuses more
  · intro x y more next last hRead hLonger hNext hLast
    obtain ⟨taken, rest, hData, hEnd, -, hAccepts⟩ := (steady_read schema).of_ok hRead
    rw [hData, List.append_assoc, hAccepts.extended] at hLonger
    cases hLonger
    exact (List.append_eq_nil_iff.mp hLast).2

/-- A row with padding, and one with a text that is malformed. -/
theorem read_verdict_padded :
    (∃ x, (row [.int, .string]).read ⟨0, 0, [130, 0, 133, 128, 0, 129, 0, 65, 9]⟩ =
        .ok x ⟨0, 8, [9]⟩ ∧
      (∀ rest, (row [.int, .string]).read ⟨0, 0, [130, 0, 133, 128, 0, 129, 0, 65] ++ rest⟩ =
        .ok x ⟨0, 8, rest⟩) ∧
      ∃ stop, (row [.int, .string]).read ⟨0, 0, [130, 0, 133]⟩ = .error .eof stop) ∧
    ∀ more, (row [.string]).read ⟨0, 0, [1, 2, 195, 40] ++ more⟩ =
      .error (.corruption (.notText (.invalid 1 0))) ⟨0, 4, more⟩ := by
  constructor
  · have hRead : (row [.int, .string]).read ⟨0, 0, [130, 0, 133, 128, 0, 129, 0, 65, 9]⟩ =
        .ok (.row {} [.int 5, .string { string := "A" }]) ⟨0, 8, [9]⟩ := rfl
    obtain ⟨-, hAccepted, -, -⟩ := read_verdict (row [.int, .string]) 0 0
      [130, 0, 133, 128, 0, 129, 0, 65, 9]
    obtain ⟨k, -, hNext, hExtended, hCut⟩ := hAccepted _ _ hRead
    have hk : 8 = 0 + k := congrArg Cursor.position hNext
    obtain rfl : k = 8 := by omega
    exact ⟨_, hRead, hExtended, hCut 3 (by decide)⟩
  · obtain ⟨-, -, hRefused, -⟩ := read_verdict (row [.string]) 0 0 [1, 2, 195, 40]
    exact hRefused (.notText (.invalid 1 0)) ⟨0, 4, []⟩ rfl

/-- The only slack in what is accepted is the padding of numbers, and writing removes all of it. -/
theorem write_after_read {schema : Schema} {source position : Nat} {data : Bytes} {x : Value}
    {next : Cursor} (hRead : schema.read ⟨source, position, data⟩ = .ok x next) :
    schema.Conforms x ∧
    (∀ sink, ∃ sink', schema.write x sink = .ok () sink' ∧
      sink'.toList = sink.toList ++ x.encoding) ∧
    (∀ source position rest, ∃ y,
      schema.read ⟨source, position, x.encoding ++ rest⟩ =
        .ok y ⟨source, position + x.encoding.length, rest⟩ ∧
      y.content = x.content ∧ y.encoding = x.encoding) ∧
    ∃ k ≤ data.length, next = ⟨source, position + k, data.drop k⟩ ∧
      x.SpelledBy (data.take k) ∧ x.encoding.length ≤ k ∧
      (x.encoding = data.take k ↔ x.encoding.length = k) := by
  obtain ⟨taken, rest, rfl, hNext, ⟨hConforms, hSpelled⟩, -⟩ := (steady_read schema).of_ok hRead
  refine ⟨hConforms, fun sink => write_of_conforms sink hConforms, ?_, taken.length, ?_, ?_, ?_⟩
  · intro source position more
    obtain ⟨y, hAgain, hContent⟩ := read_encoding source position more hConforms
    refine ⟨y, hAgain, hContent, ?_⟩
    rw [← y.encoding_content, hContent, x.encoding_content]
  · rw [List.length_append]
    exact Nat.le_add_right _ _
  · rw [List.drop_left, hNext]
  · rw [List.take_left]
    exact ⟨hSpelled, hSpelled.condenses.length_le, hSpelled.condenses.eq_iff⟩

/-- The number of columns, the integer and the length of the text are padded. -/
theorem write_after_read_padded :
    ∃ x, (row [.int, .string]).read ⟨0, 0, [130, 0, 133, 128, 0, 129, 0, 65, 9]⟩ =
        .ok x ⟨0, 8, [9]⟩ ∧
      (row [.int, .string]).Conforms x ∧ x.SpelledBy [130, 0, 133, 128, 0, 129, 0, 65] ∧
      x.encoding = [2, 5, 1, 65] ∧
      ∃ y, (row [.int, .string]).read ⟨0, 0, [2, 5, 1, 65]⟩ = .ok y ⟨0, 4, []⟩ ∧
        y.content = x.content := by
  have hRead : (row [.int, .string]).read ⟨0, 0, [130, 0, 133, 128, 0, 129, 0, 65, 9]⟩ =
      .ok (.row {} [.int 5, .string { string := "A" }]) ⟨0, 8, [9]⟩ := rfl
  have hEncoding : (Value.row {} [.int 5, .string { string := "A" }]).encoding = [2, 5, 1, 65] := by
    have hInt : (5 : Int32).toUInt32.toNat = 5 := rfl
    have hText : Text.encode { string := "A" } = { bytes := [65] } := rfl
    simp only [Value.encoding, Value.encodingAll, Blob.encoding, hInt, hText]
    simp [Varint.encode_of_lt]
  obtain ⟨hConforms, -, hAgain, k, -, hNext, hSpelled, -⟩ := write_after_read hRead
  have hk : 8 = 0 + k := congrArg Cursor.position hNext
  obtain rfl : k = 8 := by omega
  obtain ⟨y, hBack, hContent, -⟩ := hAgain 0 0 []
  rw [hEncoding] at hBack
  exact ⟨_, hRead, hConforms, hSpelled, hEncoding, y, hBack, hContent⟩

end RowStore.Schema
