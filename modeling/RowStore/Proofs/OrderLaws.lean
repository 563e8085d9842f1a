import RowStore.Page.Basic
import RowStore.Proofs.Search

/-!
# One order under all schemas

The natural order is a total order of what values hold, and every schema compares in it. Slots that
ascend under one schema therefore ascend under all of them, and a search answers the same under any.
-/

namespace RowStore

/-- A comparison that orders values totally, by what they hold. -/
structure Value.OrdersContents (cmp : Value → Value → Ordering) : Prop where
  self : ∀ x, cmp x x = .eq
  swap : ∀ x y, cmp y x = (cmp x y).swap
  le_trans : ∀ x y z, (cmp x y).isLE → (cmp y z).isLE → (cmp x z).isLE
  lt_of_lt_of_le : ∀ x y z, cmp x y = .lt → (cmp y z).isLE → cmp x z = .lt
  lt_of_le_of_lt : ∀ x y z, (cmp x y).isLE → cmp y z = .lt → cmp x z = .lt
  eq_iff : ∀ x y, cmp x y = .eq ↔ x.content = y.content
  /-- Equality of contents is what the equality test decides. -/
  eq_iff_same : ∀ x y, cmp x y = .eq ↔ x.sameContent y = true

theorem Value.ordersContents_order : OrdersContents order where
  self := order_self
  swap _ _ := order_swap.symm
  le_trans _ _ _ hxy hyz := Std.TransCmp.isLE_trans hxy hyz
  lt_of_lt_of_le _ _ _ hxy hyz := Std.TransCmp.lt_of_lt_of_isLE hxy hyz
  lt_of_le_of_lt _ _ _ hxy hyz := Std.TransCmp.lt_of_isLE_of_lt hxy hyz
  eq_iff _ _ := order_eq_iff
  eq_iff_same _ _ := order_eq_iff.trans sameContent_iff.symm

namespace Schema

theorem compare_eq (schema : Schema) : schema.compare = Value.order := by
  funext x y
  exact schema.compare_eq_order x y

/-- Values need not fit the schema, nor be of one kind. -/
theorem compare_orders_contents (schema : Schema) :
    Value.OrdersContents schema.compare ∧ Value.OrdersContents Value.order := by
  rw [compare_eq]
  exact ⟨Value.ordersContents_order, Value.ordersContents_order⟩

/-- The order of slots: an empty slot is below every value. -/
def SlotLE (schema : Schema) : Option Value → Option Value → Prop
  | none, _ => True
  | some _, none => False
  | some x, some y => (schema.compare x y).isLE

/-- No slot is above one that comes after it. -/
def Ascending (schema : Schema) (slots : Storage) : Prop := slots.Pairwise schema.SlotLE

theorem slotLE_congr (s t : Schema) (a b : Option Value) : s.SlotLE a b ↔ t.SlotLE a b := by
  cases a with
  | none => rfl
  | some x =>
    cases b with
    | none => rfl
    | some y => rw [SlotLE, SlotLE, compare_eq, compare_eq]

theorem ascending_congr (s t : Schema) (slots : Storage) :
    s.Ascending slots ↔ t.Ascending slots :=
  List.Pairwise.iff (slotLE_congr s t)

theorem value_bisect_congr (s t : Schema) (key : Value) (slots : Storage) (low high probe : Nat) :
    (s.bisect key slots low high probe).value = (t.bisect key slots low high probe).value := by
  induction low, high, probe using bisect.induct with
  | case1 low high probe hWithin ihAbove ihBelow =>
    rw [value_bisect_of_probe s key slots hWithin, value_bisect_of_probe t key slots hWithin,
      ihAbove, ihBelow]
  | case2 low high probe hOutside =>
    rw [value_bisect_of_empty s key slots hOutside, value_bisect_of_empty t key slots hOutside]

theorem value_search_congr (s t : Schema) (key : Value) (slots : Storage) (len guess : Nat) :
    (s.search key slots len guess).value = (t.search key slots len guess).value :=
  value_bisect_congr s t key slots _ _ _

theorem compare_same_under_all_schemas (s t : Schema) :
    (∀ x y, s.compare x y = x.order y) ∧
    (∀ x y, s.compare x y = t.compare x y) ∧
    (∀ slots, s.Ascending slots ↔ t.Ascending slots) ∧
    (∀ page : Page, (page.keys.Pairwise fun x y => s.compare x y = .lt) ↔
      page.keys.Pairwise fun x y => t.compare x y = .lt) ∧
    (∀ key slots len guess,
      (s.search key slots len guess).value = (t.search key slots len guess).value) := by
  refine ⟨s.compare_eq_order, ?_, ascending_congr s t, ?_, value_search_congr s t⟩
  · intro x y
    rw [s.compare_eq, t.compare_eq]
  · intro page
    rw [s.compare_eq, t.compare_eq]

end Schema

end RowStore
