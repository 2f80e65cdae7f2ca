import HeapLayout.Proofs.Folding
import HeapLayout.Proofs.Resolution

/-!
# Where slots are

Given a count for every size field, the fields of an object follow one another: each starts at the
end of the one before, after its pad or rounded up (`Field.start`), and ends after its elements
(`Field.stop`). A slot is an element of a field. Slots do not overlap (`offset_disjoint`), and all
of them lie within the size of the object (`offset_add_le_size`), whatever the counts are.

The last section is about the order in which counts are used for the first time: what stands before
a size field is governed by the size fields listed before it (`Schema.mem_of_firstUses`).
-/

namespace HeapLayout

/-- A count for every size field. -/
abbrev Counts := FieldId → Nat

theorem le_roundUp {unit : Nat} (h : 0 < unit) (n : Nat) : n ≤ roundUp unit n := by
  have hmod := Nat.div_add_mod (n + unit - 1) unit
  have hlt := Nat.mod_lt (n + unit - 1) h
  rw [roundUp, Nat.mul_comm]
  omega

theorem dvd_roundUp (unit n : Nat) : unit ∣ roundUp unit n :=
  Nat.dvd_mul_left unit _

namespace Field

variable {w : PointerWidth} {κ κ' : Counts} {f : Field}

/-- The number of elements of a field. -/
def length (κ : Counts) (f : Field) : Nat :=
  match f.sizeField with
  | none => 1
  | some i => κ i

/-- Whether a field can have an element at an index: a field that is no array has one element. -/
def HasIndex (f : Field) (i : Nat) : Prop :=
  f.sizeField = none → i = 0

/-- Where a field starts that follows `e` bytes. -/
def start (w : PointerWidth) (f : Field) (e : Nat) : Nat :=
  match f.align with
  | .dynamic => roundUp w.bytes e
  | .static pad => e + pad

/-- Where a field ends that follows `e` bytes. -/
def stop (w : PointerWidth) (κ : Counts) (f : Field) (e : Nat) : Nat :=
  f.start w e + f.elemSize * f.length κ

theorem length_of_none (h : f.sizeField = none) : f.length κ = 1 := by
  simp only [length, h]

theorem length_of_some {i : FieldId} (h : f.sizeField = some i) : f.length κ = κ i := by
  simp only [length, h]

theorem hasIndex_of_lt {i : Nat} (h : i < f.length κ) : f.HasIndex i := by
  intro hnone
  rw [length_of_none hnone] at h
  exact Nat.lt_one_iff.mp h

theorem le_start (e : Nat) : e ≤ f.start w e := by
  unfold start
  split
  · exact le_roundUp w.bytes_pos e
  · exact Nat.le_add_right e _

theorem le_stop (e : Nat) : e ≤ f.stop w κ e :=
  (le_start e).trans (Nat.le_add_right _ _)

theorem stop_congr (h : ∀ i, f.sizeField = some i → κ i = κ' i) (e : Nat) :
    f.stop w κ e = f.stop w κ' e := by
  have hlen : f.length κ = f.length κ' := by
    cases hs : f.sizeField with
    | none => rw [length_of_none hs, length_of_none hs]
    | some i => rw [length_of_some hs, length_of_some hs, h i hs]
  rw [stop, stop, hlen]

end Field

namespace Layout

variable {w : PointerWidth} {κ κ' : Counts} {l : Layout} {f g : Field} {i j k : Nat}

/-- Where the last of the given fields ends, the first of them following `e` bytes. -/
def endOf (w : PointerWidth) (κ : Counts) : Nat → List Field → Nat
  | e, [] => e
  | e, f :: fs => endOf w κ (f.stop w κ e) fs

/-- The size of an object. -/
def size (w : PointerWidth) (l : Layout) (κ : Counts) : Nat :=
  endOf w κ 0 l.fields

/-- Where element `i` of the field `f` at position `k` is. -/
def offset (w : PointerWidth) (l : Layout) (κ : Counts) (k : Nat) (f : Field) (i : Nat) : Nat :=
  f.start w (endOf w κ 0 (l.fields.take k)) + f.elemSize * i

theorem endOf_append (e : Nat) (fs gs : List Field) :
    endOf w κ e (fs ++ gs) = endOf w κ (endOf w κ e fs) gs := by
  induction fs generalizing e with
  | nil => rfl
  | cons f fs ih => exact ih _

theorem le_endOf (e : Nat) (fs : List Field) : e ≤ endOf w κ e fs := by
  induction fs generalizing e with
  | nil => exact le_rfl
  | cons f fs ih => exact (Field.le_stop e).trans (ih _)

theorem endOf_congr {fs : List Field} (h : ∀ f ∈ fs, ∀ i, f.sizeField = some i → κ i = κ' i)
    (e : Nat) : endOf w κ e fs = endOf w κ' e fs := by
  induction fs generalizing e with
  | nil => rfl
  | cons f fs ih =>
    obtain ⟨hf, hfs⟩ := List.forall_mem_cons.mp h
    rw [endOf, endOf, Field.stop_congr hf, ih hfs]

theorem offset_congr (h : ∀ g ∈ l.fields.take k, ∀ i, g.sizeField = some i → κ i = κ' i) :
    l.offset w κ k f i = l.offset w κ' k f i := by
  rw [offset, offset, endOf_congr h]

/-! ## Order -/

theorem endOf_take_succ (hk : l.fields[k]? = some f) :
    endOf w κ 0 (l.fields.take (k + 1)) = f.stop w κ (endOf w κ 0 (l.fields.take k)) := by
  rw [List.take_add_one, hk, endOf_append]
  rfl

theorem endOf_take_mono (h : j ≤ k) :
    endOf w κ 0 (l.fields.take j) ≤ endOf w κ 0 (l.fields.take k) := by
  obtain ⟨d, rfl⟩ := Nat.exists_eq_add_of_le h
  rw [List.take_add, endOf_append]
  exact le_endOf _ _

theorem endOf_take_le_size : endOf w κ 0 (l.fields.take k) ≤ l.size w κ := by
  conv_rhs => rw [size, ← List.take_append_drop k l.fields, endOf_append]
  exact le_endOf _ _

theorem endOf_take_le_offset : endOf w κ 0 (l.fields.take k) ≤ l.offset w κ k f i :=
  (Field.le_start _).trans (Nat.le_add_right _ _)

/-- An element ends where the next one starts. -/
theorem offset_succ : l.offset w κ k f (i + 1) = l.offset w κ k f i + f.elemSize := by
  rw [offset, offset, Nat.mul_succ, Nat.add_assoc]

theorem offset_mono (h : i ≤ j) : l.offset w κ k f i ≤ l.offset w κ k f j :=
  Nat.add_le_add_left (Nat.mul_le_mul_left _ h) _

/-- A field ends where its last element does. -/
theorem offset_length (hk : l.fields[k]? = some f) :
    l.offset w κ k f (f.length κ) = endOf w κ 0 (l.fields.take (k + 1)) := by
  rw [endOf_take_succ hk]
  rfl

/-- A slot ends before the end of its field. -/
theorem offset_add_le (hk : l.fields[k]? = some f) (hi : i < f.length κ) :
    l.offset w κ k f i + f.elemSize ≤ endOf w κ 0 (l.fields.take (k + 1)) := by
  rw [← offset_succ, ← offset_length hk]
  exact offset_mono hi

/-- Slots lie within the object. -/
theorem offset_add_le_size (hk : l.fields[k]? = some f) (hi : i < f.length κ) :
    l.offset w κ k f i + f.elemSize ≤ l.size w κ :=
  (offset_add_le hk hi).trans endOf_take_le_size

/-- The slots of an earlier field end before those of a later one start. -/
theorem offset_add_le_of_lt (hj : l.fields[j]? = some g) {n : Nat} (hn : n < g.length κ)
    (h : j < k) : l.offset w κ j g n + g.elemSize ≤ l.offset w κ k f i :=
  (offset_add_le hj hn).trans ((endOf_take_mono h).trans endOf_take_le_offset)

/-- Different slots do not overlap. -/
theorem offset_disjoint (hj : l.fields[j]? = some g) {n : Nat} (hn : n < g.length κ)
    (hk : l.fields[k]? = some f) (hi : i < f.length κ) (hne : (j, n) ≠ (k, i)) :
    l.offset w κ j g n + g.elemSize ≤ l.offset w κ k f i ∨
      l.offset w κ k f i + f.elemSize ≤ l.offset w κ j g n := by
  rcases Nat.lt_trichotomy j k with hjk | rfl | hkj
  · exact .inl (offset_add_le_of_lt hj hn hjk)
  · obtain rfl : g = f := Option.some.inj (hj.symm.trans hk)
    have hni : n ≠ i := fun h => hne (by rw [h])
    rcases Nat.lt_or_gt_of_ne hni with h | h
    · exact .inl (offset_succ ▸ offset_mono h)
    · exact .inr (offset_succ ▸ offset_mono h)
  · exact .inr (offset_add_le_of_lt hk hi hkj)

end Layout

/-! ## The order of counts -/

namespace Schema

theorem mem_firstUses {i : FieldId} {is : List FieldId} : i ∈ firstUses is ↔ i ∈ is := by
  induction is with
  | nil => rfl
  | cons j is ih =>
    by_cases h : i = j <;> simp [firstUses, ih, h]

theorem nodup_firstUses (is : List FieldId) : (firstUses is).Nodup := by
  induction is with
  | nil => exact List.nodup_nil
  | cons j is ih =>
    refine List.nodup_cons.mpr ⟨by simp, ih.filter _⟩

/-- The first uses in a list come before the first uses that follow it. -/
theorem firstUses_append (is js : List FieldId) :
    firstUses (is ++ js) = firstUses is ++ (firstUses js).filter (· ∉ is) := by
  induction is with
  | nil => simp [firstUses]
  | cons i is ih =>
    simp only [List.cons_append, firstUses, ih, List.filter_append, List.filter_filter]
    congr 2
    apply List.filter_congr
    intro j _
    by_cases h : j = i <;> simp [h]

section Uses

variable {α : Type} {xs : List α} {use : α → Option FieldId} {x : α}
  (hlt : ∀ (k : Nat) (x : α) (i : FieldId), xs[k]? = some x → use x = some i → i < k)
include hlt

theorem lt_of_mem_take {i k : Nat} (hx : x ∈ xs.take k) (hi : use x = some i) : i < k := by
  obtain ⟨j, hj⟩ := List.mem_iff_getElem?.mp hx
  rw [List.getElem?_take] at hj
  split at hj
  · next hjk => exact (hlt j x i hj hi).trans hjk
  · cases hj

/-- If members of a list use earlier positions only, what the members before position `s` use is
listed before `s`. -/
theorem mem_of_firstUses {ps rest : List FieldId} {s c : FieldId}
    (hs : firstUses (xs.filterMap use) = ps ++ s :: rest) (hx : x ∈ xs.take s)
    (hc : use x = some c) : c ∈ ps := by
  -- Split the uses at the position itself: `c` is used before it, and it is used only after.
  have hsplit := firstUses_append ((xs.take s).filterMap use) ((xs.drop s).filterMap use)
  rw [← List.filterMap_append, List.take_append_drop, hs] at hsplit
  have hmem : c ∈ firstUses ((xs.take s).filterMap use) :=
    mem_firstUses.mpr (List.mem_filterMap.mpr ⟨x, hx, hc⟩)
  have hnot : s ∉ firstUses ((xs.take s).filterMap use) := by
    rw [mem_firstUses, List.mem_filterMap]
    rintro ⟨y, hy, hys⟩
    exact Nat.lt_irrefl s (lt_of_mem_take hlt hy hys)
  rcases List.append_eq_append_iff.mp hsplit with ⟨us, hus, hrest⟩ | ⟨us, hus, -⟩
  · cases us with
    | nil => simpa [hus] using hmem
    | cons u us =>
      cases hrest
      exact absurd (by simp [hus]) hnot
  · exact hus ▸ List.mem_append_left us hmem

end Uses

end Schema

namespace Layout.WellFormed

variable {w : PointerWidth} {l : Layout}

theorem mem_sizeFields_iff (h : l.WellFormed w) {i : FieldId} :
    i ∈ l.sizeFields ↔ ∃ f ∈ l.fields, f.sizeField = some i := by
  rw [h.sizeFields_eq, Schema.mem_firstUses, List.mem_filterMap]

theorem nodup_sizeFields (h : l.WellFormed w) : l.sizeFields.Nodup :=
  h.sizeFields_eq ▸ Schema.nodup_firstUses _

/-- A listed size field is a single integer. -/
theorem exists_of_mem_sizeFields (h : l.WellFormed w) {i : FieldId} (hi : i ∈ l.sizeFields) :
    ∃ s, l.fields[i]? = some s ∧ s.sizeField = none ∧ Schema.isCountType s.type = true := by
  obtain ⟨f, hf, hfi⟩ := h.mem_sizeFields_iff.mp hi
  obtain ⟨k, hk⟩ := List.mem_iff_getElem?.mp hf
  exact (h.sizeField hk hfi).2

theorem sizeField_eq_none (h : l.WellFormed w) {i : FieldId} (hi : i ∈ l.sizeFields) {s : Field}
    (hs : l.fields[i]? = some s) : s.sizeField = none := by
  obtain ⟨t, ht, hnone, -⟩ := h.exists_of_mem_sizeFields hi
  cases hs.symm.trans ht
  exact hnone

/-- No reserved name is the name of a field. -/
theorem name_ne (h : l.WellFormed w) {i : Nat} {s : Field} (hs : l.fields[i]? = some s)
    {x : String} (hx : x ∈ Name.reserved) : s.name ≠ x := by
  rintro rfl
  exact h.not_reserved s (List.mem_of_getElem? hs) hx

theorem mem_sizeFields_of_mem_take (h : l.WellFormed w) {f : Field} {i k : Nat}
    (hf : f ∈ l.fields.take k) (hi : f.sizeField = some i) : i ∈ l.sizeFields :=
  h.mem_sizeFields_iff.mpr ⟨f, List.mem_of_mem_take hf, hi⟩

/-- What governs a field before some position stands before that position itself. -/
theorem lt_of_mem_take (h : l.WellFormed w) {f : Field} {i k : Nat} (hf : f ∈ l.fields.take k)
    (hi : f.sizeField = some i) : i < k :=
  Schema.lt_of_mem_take (fun _ _ _ hk hi => (h.sizeField hk hi).1) hf hi

/-- Whatever stands before a size field is governed by size fields that are listed before it. -/
theorem mem_of_append_cons (h : l.WellFormed w) {ps rest : List FieldId} {s c : FieldId}
    (hs : l.sizeFields = ps ++ s :: rest) {f : Field} (hf : f ∈ l.fields.take s)
    (hc : f.sizeField = some c) : c ∈ ps :=
  Schema.mem_of_firstUses (fun _ _ _ hk hi => (h.sizeField hk hi).1) (h.sizeFields_eq ▸ hs) hf hc

end Layout.WellFormed

end HeapLayout
