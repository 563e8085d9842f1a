import RowStore.Value.Basic

/-!
# What a value holds

`content` forgets the origins of rows: two values hold the same data when their contents are equal.
`sameContent` decides that without building the contents, and passes over copies of a row.
-/

namespace RowStore.Value

mutual

/-- The value with the origins of its rows forgotten. -/
def content : Value → Value
  | row _ columns => row {} (contentAll columns)
  | x => x

def contentAll : List Value → List Value
  | [] => []
  | x :: xs => content x :: contentAll xs

end

theorem contentAll_eq_map (xs : List Value) : contentAll xs = xs.map content := by
  induction xs with
  | nil => rfl
  | cons x xs ih => simp [contentAll, ih]

@[simp] theorem kind_content (x : Value) : x.content.kind = x.kind := by
  cases x <;> simp [content, kind]

mutual

def sameContent : Value → Value → Bool
  | int m, int n => m == n
  | long m, long n => m == n
  | string s, string t => s == t
  | bytes a, bytes b => a == b
  | row o xs, row p ys => isCopy o xs p ys || sameContentAll xs ys
  | _, _ => false

def sameContentAll : List Value → List Value → Bool
  | [], [] => true
  | x :: xs, y :: ys => sameContent x y && sameContentAll xs ys
  | _, _ => false

end

mutual

theorem sameContent_iff : ∀ {x y : Value}, sameContent x y = true ↔ x.content = y.content
  | int m, y => by cases y <;> simp [sameContent, content]
  | long m, y => by cases y <;> simp [sameContent, content]
  | string s, y => by cases y <;> simp [sameContent, content]
  | bytes a, y => by cases y <;> simp [sameContent, content]
  | row o xs, y => by
    cases y with
    | row p ys =>
      simp only [sameContent, content, Bool.or_eq_true, isCopy_iff, sameContentAll_iff,
        Value.row.injEq, true_and]
      exact ⟨fun h => h.elim (fun hCopy => hCopy.2 ▸ rfl) id, .inr⟩
    | _ => simp [sameContent, content]

theorem sameContentAll_iff : ∀ {xs ys : List Value},
    sameContentAll xs ys = true ↔ contentAll xs = contentAll ys
  | [], ys => by cases ys <;> simp [sameContentAll, contentAll]
  | x :: xs, ys => by
    cases ys with
    | nil => simp [sameContentAll, contentAll]
    | cons y ys =>
      simp [sameContentAll, contentAll, sameContent_iff, sameContentAll_iff]

end

end RowStore.Value
