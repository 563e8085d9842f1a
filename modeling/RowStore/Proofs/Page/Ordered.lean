import RowStore.Proofs.OrderLaws
import RowStore.Proofs.Page.Acceptance
import RowStore.Proofs.Page.Refinement

/-!
# Decoded pages in order

Decoding takes the keys in the order in which the bytes list them, and nothing in it looks at that
order. A decoded page is in order when its bytes are, and then each of its keys is found
(`ordered_of_decode`). That holds of the bytes of every page that was filled key by key, but not of
all bytes that are accepted (`decode_not_ordered`).
-/

namespace RowStore.Page

variable {checksum : Bytes → UInt32} {schema : Schema} {options : Options} {source : Nat}
  {data : Bytes} {page : Page} {set : BoundedSet} {xs keys : List Value}

/-- Each key of the page is less than those behind it. -/
def IsOrdered (page : Page) : Prop :=
  page.keys.Pairwise fun x y => page.schema.compare x y = .lt

theorem pairwise_compare_iff :
    (xs.Pairwise fun x y => schema.compare x y = .lt) ↔ (xs.map Value.datum).Pairwise (· < ·) := by
  rw [schema.compare_eq, List.pairwise_map]
  exact List.Pairwise.iff fun x y => Datum.datum_lt_iff.symm

theorem HasKeys.isOrdered_iff (h : page.HasKeys schema options keys) :
    page.IsOrdered ↔ keys.Pairwise fun x y => schema.compare x y = .lt := by
  rw [IsOrdered, pairwise_compare_iff, pairwise_compare_iff, Value.map_datum_congr h.keys]

/-- A page in order represents the set of its keys. -/
theorem Holds.represents_of_isOrdered (h : page.Holds xs) (hOrdered : page.IsOrdered) :
    ∃ set, page.Represents page.schema set := by
  rw [IsOrdered, h.keys, pairwise_compare_iff] at hOrdered
  have hCard : (xs.map Value.datum).toFinset.card ≤ page.capacity := by
    apply (List.toFinset_card_le _).trans
    rw [List.length_map]
    exact h.length_le
  refine ⟨⟨_, page.capacity, hCard⟩, h.represents ?_ rfl rfl⟩
  apply BoundedSet.sort_eq_of_pairwise hOrdered
  intro d
  exact List.mem_toFinset

theorem Represents.isOrdered (h : page.Represents schema set) : page.IsOrdered := by
  rw [IsOrdered, page.schema.compare_eq]
  exact h.ascending

theorem Represents.exists_get? (h : page.Represents schema set) {key : Value}
    (hKey : key ∈ page.keys) :
    ∃ x, (page.get? key).value = some x ∧ x.content = key.content := by
  have hMem : key.datum ∈ set.members := by
    rw [← Finset.mem_sort (· ≤ ·), h.sorted]
    exact List.mem_map_of_mem hKey
  have hGet := h.get? key
  rw [BoundedSet.get?, if_pos hMem, Option.map_eq_some_iff] at hGet
  exact hGet

/-- What a page in order encodes to is decoded to a page in order. -/
theorem Represents.isOrdered_of_decode (h : page.Represents schema set)
    (hEncode : page.encode checksum = .ok data) {next : Page}
    (hDecode : decode schema options source data checksum = .ok next) : next.IsOrdered := by
  have hReload : page.reload options source checksum = .ok next := by
    rw [Page.reload, hEncode, h.schema]
    exact hDecode
  obtain ⟨reloaded, hReloaded, hNext⟩ := h.reload hEncode options source
  rw [hReload, Except.ok.injEq] at hReloaded
  exact hReloaded ▸ hNext.isOrdered

/-- The order of a decoded page is that of its bytes. It is strict for the bytes of a page that was
made empty, and a page in order finds all of its keys. -/
theorem ordered_of_decode (hDecode : decode schema options source data checksum = .ok page) :
    (∀ keys, IsImage checksum schema data keys →
      (page.IsOrdered ↔ keys.Pairwise fun x y => schema.compare x y = .lt)) ∧
    (page.IsOrdered → ∀ key ∈ page.keys, ∃ x, (page.get? key).value = some x ∧
      x.content = key.content) ∧
    (∀ options operations,
      ((new schema options).run checksum operations).2.encode checksum = .ok data →
      page.IsOrdered) := by
  refine ⟨?_, ?_, ?_⟩
  · intro keys hImage
    exact (hImage.hasKeys hDecode).isOrdered_iff
  · intro hOrdered key hKey
    obtain ⟨set, hSet⟩ := (Reached.decoded hDecode).holds.represents_of_isOrdered hOrdered
    exact hSet.exists_get? hKey
  · intro options operations hEncode
    have hLast := ((represents_new schema options).run checksum operations).2
    exact hLast.isOrdered_of_decode hEncode hDecode

theorem ordered_of_decode_ascending :
    ∃ page, decode .int {} 0 (sealed Checksum.crc32 [2, 1, 2]) = .ok page ∧ page.IsOrdered := by
  have hDecode : decode .int {} 0 (sealed Checksum.crc32 [2, 1, 2]) =
      .ok (ofKeys .int {} [.int 1, .int 2]) := by
    rw [decode_sealed]
    rfl
  have hFirst : Schema.int.ReadsAs [1] (.int 1) := ⟨_, rfl, rfl⟩
  have hSecond : Schema.int.ReadsAs [2] (.int 2) := ⟨_, rfl, rfl⟩
  have hLists : Schema.int.Lists [1, 2] [.int 1, .int 2] := .cons hFirst (.cons hSecond .nil)
  have hImage : IsImage Checksum.crc32 .int (sealed Checksum.crc32 [2, 1, 2]) [.int 1, .int 2] :=
    ⟨_, rfl, [2], [1, 2], rfl, rfl, hLists⟩
  refine ⟨_, hDecode, ((ordered_of_decode hDecode).1 _ hImage).mpr ?_⟩
  decide

/-- Bytes that list two keys in descending order are accepted, and the second key is not found. -/
theorem decode_not_ordered :
    ∃ page, decode .int { capacity := 0 } 0 (sealed Checksum.crc32 [2, 2, 1]) = .ok page ∧
      ¬page.IsOrdered ∧ .int 1 ∈ page.keys ∧ (page.get? (.int 1)).value = none := by
  refine ⟨_, decode_descending, ?_, ?_, ?_⟩
  · unfold IsOrdered
    decide
  · decide
  · decide +kernel

end RowStore.Page
