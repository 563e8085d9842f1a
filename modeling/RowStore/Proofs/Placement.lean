import RowStore.Proofs.Reading

/-!
# Reading at other places

Where a cursor stands, and in which source, shows in nothing but the origins of the rows that are
read there. The same bytes are therefore taken for the same content at every place, and
`ReadsAs` can speak of them with no place in mind (`exists_readsAs`, `ReadsAs.read_eq`).
-/

namespace RowStore

namespace Reader

variable {α β γ δ : Type}

/-- Two readings took the same bytes, and failed with one error or gave answers that `R` relates. -/
inductive SameOutcome (R : α → β → Prop) :
    EStateM.Result Error Cursor α → EStateM.Result Error Cursor β → Prop where
  | ok {a : α} {b : β} {next next' : Cursor} : R a b → next.rest = next'.rest →
    SameOutcome R (.ok a next) (.ok b next')
  | error (e : Error) {next next' : Cursor} : next.rest = next'.rest →
    SameOutcome R (.error e next) (.error e next')

/-- The readers make the same of the same bytes, wherever each of them stands. -/
def Alike (reader : Reader α) (reader' : Reader β) (R : α → β → Prop) : Prop :=
  ∀ cursor cursor', cursor.rest = cursor'.rest → SameOutcome R (reader cursor) (reader' cursor')

variable {reader : Reader α} {reader' : Reader β} {f : α → Reader γ} {f' : β → Reader δ}
  {P : α → β → Prop} {R : γ → δ → Prop}

theorem Alike.bind (h : Alike reader reader' P) (hf : ∀ a b, P a b → Alike (f a) (f' b) R) :
    Alike (reader >>= f) (reader' >>= f') R := by
  intro cursor cursor' hRest
  have hFirst := h cursor cursor' hRest
  generalize hHere : reader cursor = outcome at hFirst
  generalize hThere : reader' cursor' = outcome' at hFirst
  cases hFirst with
  | ok hP hNext =>
    rw [bind_of_ok hHere, bind_of_ok hThere]
    exact hf _ _ hP _ _ hNext
  | error e hNext =>
    rw [bind_of_error hHere, bind_of_error hThere]
    exact .error e hNext

theorem alike_pure {a : α} {b : β} (h : P a b) : Alike (pure a) (pure b) P :=
  fun _ _ hRest => .ok h hRest

theorem alike_throw (e : Error) : Alike (throw e : Reader α) (throw e : Reader β) P :=
  fun _ _ hRest => .error e hRest

theorem alike_get : Alike (get : Reader Cursor) (get : Reader Cursor) fun _ _ => True :=
  fun _ _ hRest => .ok trivial hRest

theorem alike_take (count : Nat) : Alike (take count) (take count) Eq := by
  intro cursor cursor' hRest
  obtain ⟨source, position, rest⟩ := cursor
  obtain ⟨source', position', rest'⟩ := cursor'
  cases hRest
  by_cases h : (rest.take count).length = count
  · rw [take, take, dif_pos h, dif_pos h]
    exact .ok rfl rfl
  · rw [take, take, dif_neg h, dif_neg h]
    exact .error _ rfl

theorem alike_number (decode : Bytes → Except Error (Nat × Nat)) :
    Alike (number decode) (number decode) Eq := by
  intro cursor cursor' hRest
  rw [number, number, ← hRest]
  cases decode cursor.rest with
  | ok answer => exact .ok rfl (congrArg (List.drop answer.2) hRest)
  | error e => exact .error e hRest

theorem alike_varint32 : Alike varint32 varint32 Eq := by
  apply (alike_number Varint.decode32).bind
  rintro n _ rfl
  exact alike_pure rfl

theorem alike_varint64 : Alike varint64 varint64 Eq := by
  apply (alike_number Varint.decode64).bind
  rintro n _ rfl
  exact alike_pure rfl

theorem alike_blob : Alike blob blob Eq := by
  apply alike_varint64.bind
  rintro size _ rfl
  apply (alike_take size.toNat).bind
  rintro taken _ rfl
  exact alike_pure rfl

end Reader

namespace Schema

theorem alike_readArity (columns : Nat) :
    Reader.Alike (readArity columns) (readArity columns) Eq := by
  apply Reader.alike_varint32.bind
  rintro word _ rfl
  dsimp only
  split
  · exact Reader.alike_throw _
  · exact Reader.alike_pure rfl

mutual

theorem alike_read : ∀ schema : Schema,
    Reader.Alike (read schema) (read schema) fun x y => x.content = y.content
  | .int => by
    unfold read
    apply Reader.alike_varint32.bind
    rintro word _ rfl
    exact Reader.alike_pure rfl
  | .long => by
    unfold read
    apply Reader.alike_varint64.bind
    rintro word _ rfl
    exact Reader.alike_pure rfl
  | .string => by
    unfold read
    apply Reader.alike_blob.bind
    rintro blob _ rfl
    cases Text.ofBlob blob with
    | ok text => exact Reader.alike_pure rfl
    | error cause => exact Reader.alike_throw _
  | .bytes => by
    unfold read
    apply Reader.alike_blob.bind
    rintro blob _ rfl
    exact Reader.alike_pure rfl
  | .row columns => by
    unfold read
    apply Reader.alike_get.bind
    rintro start start' -
    apply (alike_readArity columns.length).bind
    rintro arity _ rfl
    apply (alike_readColumns columns arity).bind
    intro xs ys hContents
    apply Reader.alike_pure
    rw [Value.content, Value.content, hContents]

theorem alike_readColumns : ∀ (columns : List Schema) (arity : Nat),
    Reader.Alike (readColumns columns arity) (readColumns columns arity) fun xs ys =>
      Value.contentAll xs = Value.contentAll ys
  | [], arity => by
    unfold readColumns
    exact Reader.alike_pure rfl
  | schema :: columns, 0 => by
    unfold readColumns
    exact Reader.alike_pure rfl
  | schema :: columns, arity + 1 => by
    unfold readColumns
    apply (alike_read schema).bind
    intro x y hContent
    apply (alike_readColumns columns arity).bind
    intro xs ys hContents
    apply Reader.alike_pure
    rw [Value.contentAll, Value.contentAll, hContent, hContents]

end

/-- The bytes are read in full, as the value. -/
def ReadsAs (schema : Schema) (data : Bytes) (x : Value) : Prop :=
  ∃ next, schema.read (.ofBytes 0 data) = .ok x next ∧ next.rest = []

theorem ReadsAs.read_eq {schema : Schema} {data : Bytes} {x : Value} (h : schema.ReadsAs data x)
    (source position : Nat) (rest : Bytes) :
    ∃ y, schema.read ⟨source, position, data ++ rest⟩ =
      .ok y ⟨source, position + data.length, rest⟩ ∧ y.content = x.content := by
  obtain ⟨next, hRead, hNext⟩ := h
  have hAlike := schema.alike_read (.ofBytes 0 data) ⟨source, position, data⟩ rfl
  rw [hRead] at hAlike
  generalize hThere : schema.read ⟨source, position, data⟩ = outcome at hAlike
  cases hAlike with
  | @ok _ y _ there hContent hRest =>
    obtain ⟨taken, left, rfl, rfl, -, hAccepts⟩ := (steady_read schema).of_ok hThere
    obtain rfl : left = [] := hRest.symm.trans hNext
    rw [List.append_nil]
    exact ⟨y, hAccepts.extended rest, hContent.symm⟩

theorem exists_readsAs {schema : Schema} {source position : Nat} {data : Bytes} {y : Value}
    {next : Cursor} (h : schema.read ⟨source, position, data⟩ = .ok y next) :
    ∃ taken rest x, data = taken ++ rest ∧ next = ⟨source, position + taken.length, rest⟩ ∧
      schema.ReadsAs taken x ∧ y.content = x.content := by
  obtain ⟨taken, rest, rfl, rfl, -, hAccepts⟩ := (steady_read schema).of_ok h
  have hHere := hAccepts.extended []
  rw [List.append_nil] at hHere
  have hAlike := schema.alike_read ⟨source, position, taken⟩ (.ofBytes 0 taken) rfl
  rw [hHere] at hAlike
  generalize hThere : schema.read (.ofBytes 0 taken) = outcome at hAlike
  cases hAlike with
  | @ok _ x _ there hContent hRest =>
    exact ⟨taken, rest, x, rfl, rfl, ⟨there, hThere, hRest.symm⟩, hContent⟩

theorem ReadsAs.length_pos {schema : Schema} {data : Bytes} {x : Value}
    (h : schema.ReadsAs data x) : 0 < data.length := by
  obtain ⟨next, hRead, hNext⟩ := h
  obtain ⟨taken, rest, hData, rfl, ⟨-, hSpelled⟩, -⟩ := (steady_read schema).of_ok hRead
  obtain rfl : rest = [] := hNext
  have hLength := hSpelled.condenses.length_le
  have hPos := x.length_encoding_pos
  rw [hData, List.append_nil]
  omega

end Schema

end RowStore
