import RowStore.Proofs.Page.Refinement

/-!
# Encoded pages as names of sets

A page that was made empty and filled key by key encodes its keys in ascending order, and nothing
else shows in the bytes: not its capacity, not the place where the next search starts, not the
places where rows were built, and not how the keys came there. The bytes in turn tell the keys.
-/

namespace RowStore.Page

variable {checksum : Bytes → UInt32} {schema : Schema} {page other : Page}
  {set otherSet : BoundedSet} {xs ys : List Value} {data : Bytes}

/-- The pages hold the same set of keys. -/
def SameKeys (page other : Page) : Prop :=
  ∀ x, x ∈ page.keys.map Value.content ↔ x ∈ other.keys.map Value.content

theorem Represents.mem_members_iff (h : page.Represents schema set) (d : Datum) :
    d ∈ set.members ↔ d.value ∈ page.keys.map Value.content := by
  rw [← Finset.mem_sort (· ≤ ·), h.sorted, List.mem_map, List.mem_map]
  apply exists_congr
  intro key
  apply and_congr_right
  intro _
  rw [← d.datum_value, Value.datum_eq_iff, d.datum_value, d.plain]

theorem Represents.members_eq (h : page.Represents schema set)
    (h' : other.Represents schema otherSet) (hSame : page.SameKeys other) :
    set.members = otherSet.members := by
  ext d
  rw [h.mem_members_iff, h'.mem_members_iff]
  exact hSame d.value

/-- There is one ascending arrangement of a set. -/
theorem Represents.encode_congr (h : page.Represents schema set)
    (h' : other.Represents schema otherSet) (hSame : page.SameKeys other) :
    page.encode checksum = other.encode checksum := by
  rw [h.encode, h'.encode, BoundedSet.keys, BoundedSet.keys, h.members_eq h' hSame]

/-- The keys can be told from the bytes, since they can be decoded. -/
theorem Holds.contents_eq_of_encode (h : page.Holds xs) (h' : other.Holds ys)
    (hSchema : other.schema = page.schema) (hEncode : page.encode checksum = .ok data)
    (hEncode' : other.encode checksum = .ok data) :
    xs.map Value.content = ys.map Value.content := by
  obtain ⟨us, hUs, hDecode⟩ := h.decode_encode hEncode {} 0
  obtain ⟨vs, hVs, hDecode'⟩ := h'.decode_encode hEncode' {} 0
  rw [hSchema, hDecode, Except.ok.injEq] at hDecode'
  have hKeys := congrArg Page.keys hDecode'
  rw [keys_ofKeys, keys_ofKeys] at hKeys
  rw [← hUs, ← hVs, hKeys]

/-- Two pages that were made empty may have gone through any operations, with any capacities. -/
theorem encode_canonical {options otherOptions : Options} {operations others : List Operation}
    {otherData : Bytes}
    (h : ((new schema options).run checksum operations).2.encode checksum = .ok data)
    (h' : ((new schema otherOptions).run checksum others).2.encode checksum = .ok otherData) :
    data = otherData ↔ ((new schema options).run checksum operations).2.SameKeys
      ((new schema otherOptions).run checksum others).2 := by
  have hPage := ((represents_new schema options).run checksum operations).2
  have hOther := ((represents_new schema otherOptions).run checksum others).2
  constructor
  · rintro rfl x
    have hSchema := hOther.schema.trans hPage.schema.symm
    rw [hPage.holds.contents_eq_of_encode hOther.holds hSchema h h']
  · intro hSame
    rw [hPage.encode_congr hOther hSame, h', Except.ok.injEq] at h
    exact h.symm

/-- Pages with the same keys, one of them reloaded, and a page with one key more. -/
theorem encode_canonical_history :
    let filled := ((new .int { capacity := 3 }).run Checksum.crc32
      [.insert (.int 2), .insert (.int 1), .insert (.int 3), .remove (.int 3)]).2
    let reloaded := ((new .int { capacity := 2, bufferCapacity := 0 }).run Checksum.crc32
      [.insert (.int 1), .insert (.int 2), .reload { capacity := 9 } 1, .insert (.int 2)]).2
    let larger := ((new .int {}).run Checksum.crc32
      [.insert (.int 1), .insert (.int 2), .insert (.int 3)]).2
    ∃ data, filled.encode = .ok data ∧ reloaded.encode = .ok data ∧
      ∃ others, larger.encode = .ok others ∧ data ≠ others := by
  intro filled reloaded larger
  have hFilled : filled.keys = [.int 1, .int 2] := by decide +kernel
  have hReloaded : reloaded.keys = [.int 1, .int 2] := by decide +kernel
  have hLarger : larger.keys = [.int 1, .int 2, .int 3] := by decide +kernel
  have hInt (n : Int32) : Schema.int.Conforms (.int n) := rfl
  have hEncodes {page : Page} {set : BoundedSet} {keys : List Value}
      (hPage : page.Represents .int set) (hKeys : page.keys = keys)
      (hConforms : ∀ key ∈ keys, Schema.int.Conforms key) : ∃ data, page.encode = .ok data := by
    rw [← hKeys, ← hPage.schema] at hConforms
    exact hPage.holds.encode_isOk_iff.mpr hConforms
  obtain ⟨data, hData⟩ : ∃ data, filled.encode = .ok data :=
    hEncodes ((represents_new _ _).run _ _).2 hFilled (by simp [hInt])
  obtain ⟨same, hSame⟩ : ∃ data, reloaded.encode = .ok data :=
    hEncodes ((represents_new _ _).run _ _).2 hReloaded (by simp [hInt])
  obtain ⟨others, hOthers⟩ : ∃ data, larger.encode = .ok data :=
    hEncodes ((represents_new _ _).run _ _).2 hLarger (by simp [hInt])
  have hEq : data = same := by
    refine (encode_canonical hData hSame).mpr fun x => ?_
    rw [hFilled, hReloaded]
  have hNe : data ≠ others := by
    intro hEq
    have hMem := (encode_canonical hData hOthers).mp hEq (.int 3)
    rw [hFilled, hLarger] at hMem
    exact absurd (hMem.mpr (by decide)) (by decide)
  exact ⟨data, hData, hEq ▸ hSame, others, hOthers, hNe⟩

end RowStore.Page
