import RowStore.Value.Content
import RowStore.Schema.Compare

/-!
# Laws of the natural order

The order of two values depends on their contents alone, and it is a total order of contents. A
schema compares two values as the natural order does, so that all of this holds under any schema.
-/

namespace RowStore.Value

theorem order_of_kind_ne {x y : Value} (h : x.kind ≠ y.kind) :
    x.order y = compare x.kind.rank y.kind.rank := by
  cases x <;> cases y <;> first | rfl | exact absurd rfl h

mutual

theorem order_self : ∀ x : Value, x.order x = .eq
  | int n => Std.ReflOrd.compare_self
  | long n => Std.ReflOrd.compare_self
  | string text => Std.ReflOrd.compare_self
  | bytes blob => Std.ReflOrd.compare_self
  | row origin xs => by simp [order, isCopy_iff]

theorem orderAll_self : ∀ xs : List Value, orderAll xs xs = .eq
  | [] => rfl
  | x :: xs => by simp [orderAll, order_self x, orderAll_self xs]

end

/-- The short cut for copies of a row does not change the answer. -/
@[simp] theorem order_row (o p : Origin) (xs ys : List Value) :
    (row o xs).order (row p ys) = orderAll xs ys := by
  rw [order]
  split
  · rename_i hCopy
    rw [(isCopy_iff.mp hCopy).2, orderAll_self]
  · rfl

mutual

theorem order_swap : ∀ {x y : Value}, (x.order y).swap = y.order x
  | int m, y => by
    cases y with
    | int n => exact Std.OrientedOrd.eq_swap.symm
    | _ => rfl
  | long m, y => by
    cases y with
    | long n => exact Std.OrientedOrd.eq_swap.symm
    | _ => rfl
  | string s, y => by
    cases y with
    | string t => exact Std.OrientedOrd.eq_swap.symm
    | _ => rfl
  | bytes a, y => by
    cases y with
    | bytes b => exact Std.OrientedOrd.eq_swap.symm
    | _ => rfl
  | row o xs, y => by
    cases y with
    | row p ys => rw [order_row, order_row, orderAll_swap]
    | _ => rfl

theorem orderAll_swap : ∀ {xs ys : List Value}, (orderAll xs ys).swap = orderAll ys xs
  | [], ys => by cases ys <;> rfl
  | x :: xs, ys => by
    cases ys with
    | nil => rfl
    | cons y ys => rw [orderAll, orderAll, Ordering.swap_then, order_swap, orderAll_swap]

end

mutual

theorem order_eq_iff : ∀ {x y : Value}, x.order y = .eq ↔ x.content = y.content
  | int m, y => by
    cases y <;> simp [order, content, kind, Kind.rank]
  | long m, y => by
    cases y <;> simp [order, content, kind, Kind.rank]
  | string s, y => by
    cases y with
    | string t =>
      simp only [order, content, Std.compare_eq_iff_eq, string.injEq]
      constructor
      · intro h
        cases s
        cases t
        cases h
        rfl
      · rintro rfl
        rfl
    | _ => simp [order, content, kind, Kind.rank]
  | bytes a, y => by
    cases y with
    | bytes b =>
      simp only [order, content, Std.compare_eq_iff_eq, bytes.injEq]
      constructor
      · intro h
        cases a
        cases b
        cases h
        rfl
      · rintro rfl
        rfl
    | _ => simp [order, content, kind, Kind.rank]
  | row o xs, y => by
    cases y with
    | row p ys => simp [content, orderAll_eq_iff]
    | _ => simp [order, content, kind, Kind.rank]

theorem orderAll_eq_iff : ∀ {xs ys : List Value},
    orderAll xs ys = .eq ↔ contentAll xs = contentAll ys
  | [], ys => by cases ys <;> simp [orderAll, contentAll]
  | x :: xs, ys => by
    cases ys with
    | nil => simp [orderAll, contentAll]
    | cons y ys => simp [orderAll, contentAll, order_eq_iff, orderAll_eq_iff]

end

mutual

theorem order_content : ∀ {x y : Value}, x.content.order y.content = x.order y
  | int m, y => by cases y <;> rfl
  | long m, y => by cases y <;> rfl
  | string s, y => by cases y <;> rfl
  | bytes a, y => by cases y <;> rfl
  | row o xs, y => by
    cases y with
    | row p ys => rw [content, content, order_row, order_row, orderAll_contentAll]
    | _ => rfl

theorem orderAll_contentAll : ∀ {xs ys : List Value},
    orderAll (contentAll xs) (contentAll ys) = orderAll xs ys
  | [], ys => by cases ys <;> rfl
  | x :: xs, ys => by
    cases ys with
    | nil => rfl
    | cons y ys => rw [contentAll, contentAll, orderAll, orderAll, order_content, orderAll_contentAll]

end

theorem order_congr {x x' y y' : Value} (hx : x.content = x'.content)
    (hy : y.content = y'.content) : x.order y = x'.order y' := by
  rw [← order_content, hx, hy, order_content]

theorem rank_le_of_order_lt {x y : Value} (h : x.order y = .lt) :
    x.kind.rank ≤ y.kind.rank := by
  by_cases hKind : x.kind = y.kind
  · exact Nat.le_of_eq (congrArg Kind.rank hKind)
  · rw [order_of_kind_ne hKind, Nat.compare_eq_lt] at h
    exact Nat.le_of_lt h

/-- When the kind changes on the way, the ranks alone decide. -/
theorem order_lt_trans_of_kind_ne {x y z : Value} (hxy : x.order y = .lt) (hyz : y.order z = .lt)
    (h : x.kind ≠ y.kind ∨ y.kind ≠ z.kind) : x.order z = .lt := by
  have hxyRank := rank_le_of_order_lt hxy
  have hyzRank := rank_le_of_order_lt hyz
  have hRank : x.kind.rank < z.kind.rank := by
    rcases h with h | h
    · have hNe : x.kind.rank ≠ y.kind.rank := by
        intro hEq
        exact h (Kind.rank_inj.mp hEq)
      omega
    · have hNe : y.kind.rank ≠ z.kind.rank := by
        intro hEq
        exact h (Kind.rank_inj.mp hEq)
      omega
  rw [order_of_kind_ne, Nat.compare_eq_lt.mpr hRank]
  intro hKind
  rw [hKind] at hRank
  exact Nat.lt_irrefl _ hRank

theorem order_lt_trans_of_leaf {x y z : Value} (hLeaf : x.kind ≠ .row) (hxy : x.order y = .lt)
    (hyz : y.order z = .lt) : x.order z = .lt := by
  by_cases hKind : x.kind ≠ y.kind ∨ y.kind ≠ z.kind
  · exact order_lt_trans_of_kind_ne hxy hyz hKind
  · obtain ⟨hxyKind, hyzKind⟩ : x.kind = y.kind ∧ y.kind = z.kind := by
      simpa only [not_or, Decidable.not_not] using hKind
    cases x <;> cases y <;> cases hxyKind <;> cases z <;> cases hyzKind <;> rw [order] at *
    · exact Std.TransCmp.lt_trans hxy hyz
    · exact Std.TransCmp.lt_trans hxy hyz
    · exact Std.TransCmp.lt_trans hxy hyz
    · exact Std.TransCmp.lt_trans hxy hyz
    · exact absurd rfl hLeaf

mutual

theorem order_lt_trans : ∀ {x y z : Value}, x.order y = .lt → y.order z = .lt → x.order z = .lt
  | int _, _, _, hxy, hyz => order_lt_trans_of_leaf (by simp [kind]) hxy hyz
  | long _, _, _, hxy, hyz => order_lt_trans_of_leaf (by simp [kind]) hxy hyz
  | string _, _, _, hxy, hyz => order_lt_trans_of_leaf (by simp [kind]) hxy hyz
  | bytes _, _, _, hxy, hyz => order_lt_trans_of_leaf (by simp [kind]) hxy hyz
  | row o xs, y, z, hxy, hyz => by
    cases y with
    | row p ys =>
      cases z with
      | row q zs =>
        rw [order_row] at hxy hyz ⊢
        exact orderAll_lt_trans hxy hyz
      | _ => exact order_lt_trans_of_kind_ne hxy hyz (.inr (by simp [kind]))
    | _ => exact order_lt_trans_of_kind_ne hxy hyz (.inl (by simp [kind]))

theorem orderAll_lt_trans : ∀ {xs ys zs : List Value},
    orderAll xs ys = .lt → orderAll ys zs = .lt → orderAll xs zs = .lt
  | [], ys, zs, hxy, hyz => by
    cases zs with
    | nil =>
      cases ys with
      | nil => cases hxy
      | cons y ys => cases hyz
    | cons z zs => rfl
  | x :: xs, ys, zs, hxy, hyz => by
    cases ys with
    | nil => cases hxy
    | cons y ys =>
      cases zs with
      | nil => cases hyz
      | cons z zs =>
        rw [orderAll, Ordering.then_eq_lt] at hxy hyz ⊢
        rcases hxy with hxy | ⟨hxy, hxyRest⟩
        · rcases hyz with hyz | ⟨hyz, -⟩
          · exact .inl (order_lt_trans hxy hyz)
          · exact .inl (order_congr rfl (order_eq_iff.mp hyz) ▸ hxy)
        · rcases hyz with hyz | ⟨hyz, hyzRest⟩
          · exact .inl (order_congr (order_eq_iff.mp hxy) rfl ▸ hyz)
          · have hxz : x.order z = .eq :=
              order_eq_iff.mpr ((order_eq_iff.mp hxy).trans (order_eq_iff.mp hyz))
            exact .inr ⟨hxz, orderAll_lt_trans hxyRest hyzRest⟩

end

instance : Std.TransCmp order where
  eq_swap := order_swap.symm
  isLE_trans {x y z} hxy hyz := by
    rw [Ordering.isLE_iff_eq_lt_or_eq_eq] at hxy hyz ⊢
    rcases hxy with hxy | hxy
    · rcases hyz with hyz | hyz
      · exact .inl (order_lt_trans hxy hyz)
      · exact .inl (order_congr rfl (order_eq_iff.mp hyz) ▸ hxy)
    · rw [order_congr (order_eq_iff.mp hxy) rfl]
      exact hyz

end RowStore.Value

namespace RowStore.Schema

theorem compareLeaf_eq_order (schema : Schema) (x y : Value) :
    schema.compareLeaf x y = x.order y := by
  unfold compareLeaf
  split <;> rfl

mutual

/-- A schema compares in the natural order, also values that do not fit it. -/
theorem value_weigh : ∀ (schema : Schema) (x y : Value), (schema.weigh x y).value = x.order y
  | .int, x, y => compareLeaf_eq_order .int x y
  | .long, x, y => compareLeaf_eq_order .long x y
  | .string, x, y => compareLeaf_eq_order .string x y
  | .bytes, x, y => compareLeaf_eq_order .bytes x y
  | .row columns, x, y => by
    unfold weigh
    split
    · rw [Value.order_row]
      split
      · rename_i hCopy
        rw [(Value.isCopy_iff.mp hCopy).2, Value.orderAll_self]
        rfl
      · exact value_weighColumns columns _ _
    · rfl

theorem value_weighColumns : ∀ (columns : List Schema) (xs ys : List Value),
    (weighColumns columns xs ys).value = Value.orderAll xs ys
  | [], xs, ys => rfl
  | _ :: _, [], ys => rfl
  | _ :: _, _ :: _, [] => rfl
  | schema :: columns, x :: xs, y :: ys => by
    rw [weighColumns, Counted.value_bind, value_weigh, Value.orderAll]
    cases x.order y with
    | eq => exact value_weighColumns columns xs ys
    | lt => rfl
    | gt => rfl

end

theorem compare_eq_order (schema : Schema) (x y : Value) : schema.compare x y = x.order y :=
  schema.value_weigh x y

end RowStore.Schema
