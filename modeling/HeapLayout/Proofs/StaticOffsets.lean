import HeapLayout.Proofs.SlotAlignment

/-!
# Static offsets

The offset of a field is found twice. Placing keeps count of the true offset as long as no array was
passed, and synthesis sums up the spans of the fields in front. If these are single values, folding
leaves nothing but a constant of the sum, and the two agree (`exists_endBefore_of_planFrom`): the
field starts at the first multiple of its width behind the field before. Behind an array no offset
is known any more (`staticOffset_eq_none_of_isVariable`).
-/

namespace HeapLayout

namespace Layout

variable {w : PointerWidth} {f g : Field} {fs : List Field} {a e k : Nat}

/-- Where the field at position `k` may start at the earliest: after `e` bytes if it is the first
one, and otherwise at the end of the field before, if no count can move that. -/
def endBefore? (e : Nat) (fs : List Field) : Nat → Option Nat
  | 0 => some e
  | k + 1 => fs[k]?.bind fun g =>
    if g.isVariable then none else g.staticOffset.map (· + g.elemSize)

theorem endBefore?_cons (hg : g.isVariable = false) (ha : g.staticOffset = some a) :
    endBefore? e (g :: fs) (k + 1) = endBefore? (a + g.elemSize) fs k := by
  cases k with
  | zero => simp [endBefore?, hg, ha]
  | succ k => rfl

/-- Behind a field something was passed. -/
theorem pos_of_endBefore? (hpos : ∀ g ∈ fs, 0 < g.elemSize) {stop : Nat}
    (h : endBefore? e fs (k + 1) = some stop) : 0 < stop := by
  obtain ⟨g, hg, hstop⟩ := Option.bind_eq_some_iff.mp h
  split at hstop
  · cases hstop
  · obtain ⟨a, -, rfl⟩ := Option.map_eq_some_iff.mp hstop
    exact Nat.add_pos_right a (hpos g (List.mem_of_getElem? hg))

/-- Padding goes to the least multiple. -/
theorem isLeast_add_padTo {unit : Nat} (h : 0 < unit) (e : Nat) :
    IsLeast {x | e ≤ x ∧ unit ∣ x} (e + padTo unit e) := by
  refine ⟨⟨Nat.le_add_right e _, dvd_add_padTo h e⟩, ?_⟩
  rintro x ⟨hle, hdvd⟩
  by_contra hlt
  have hgap : unit ∣ e + padTo unit e - x := Nat.dvd_sub (dvd_add_padTo h e) hdvd
  have hunit := Nat.le_of_dvd (by omega) hgap
  have hpad := padTo_lt h e
  omega

/-! ## What placing knows of offsets -/

section Place

variable {c : Cursor} {b : BoundField} {bs : List BoundField}

/-- No array was passed yet. -/
structure Cursor.Exact (c : Cursor) : Prop where
  known : c.known = some c.offset
  region : c.region = none

theorem Cursor.Exact.followsSmaller (h : c.Exact) (size : Nat) : c.followsSmaller size = false := by
  rw [Cursor.followsSmaller, h.region, Option.any_none]

theorem Cursor.Exact.align (h : c.Exact) :
    (planField w c b).align = .static (padTo (planField w c b).elemSize c.offset) :=
  align_planField_of_not (h.followsSmaller _)

theorem Cursor.Exact.staticOffset (h : c.Exact) :
    (planField w c b).staticOffset =
      some (c.offset + padTo (planField w c b).elemSize c.offset) := by
  simp [planField, Cursor.place, h.followsSmaller, h.known]

/-- A single value is passed exactly. -/
theorem Cursor.Exact.advance (h : c.Exact) (size : Nat) :
    (c.advance size false (some (c.offset + padTo size c.offset))).Exact :=
  ⟨by rw [advance_offset_of_not (h.followsSmaller size)]; rfl, rfl⟩

/-- Once an offset is unknown, all later ones are. -/
theorem staticOffset_eq_none_of_known (h : c.known = none) (hf : f ∈ planFrom w c bs) :
    f.staticOffset = none := by
  induction bs generalizing c with
  | nil => cases hf
  | cons b bs ih =>
    have hnone : (planField w c b).staticOffset = none := by
      simp only [planField, Cursor.place, h]
      split <;> rfl
    rcases List.mem_cons.mp hf with rfl | hf
    · exact hnone
    · refine ih ?_ hf
      simp only [Cursor.advance, hnone]
      split <;> rfl

/-- Behind an array no offset is known. -/
theorem staticOffset_eq_none_of_isVariable (hk : (planFrom w c bs)[k]? = some f)
    (hg : g ∈ (planFrom w c bs).take k) (hvar : g.isVariable = true) : f.staticOffset = none := by
  induction bs generalizing c k with
  | nil => simp [planFrom] at hg
  | cons b bs ih =>
    cases k with
    | zero => cases hg
    | succ k =>
      simp only [planFrom, List.getElem?_cons_succ] at hk
      rcases List.mem_cons.mp hg with rfl | hg
      · rw [hvar] at hk
        exact staticOffset_eq_none_of_known rfl (List.mem_of_getElem? hk)
      · exact ih hk hg

end Place

end Layout

/-! ## What synthesis knows of offsets -/

/-- Nothing folds but a sum with zero. -/
theorem Code.Expr.add_const_of_ne {v : Int} (hv : v ≠ 0) {b : Expr} (hb : b.const? = none) :
    add (const v) b = bin .add (const v) b := by
  cases b <;> simp_all [add, const?]

namespace Code.Accessor

open Layout

variable {w : PointerWidth} {l : Layout} {f : Field} {fs : List Field} {count : Field → Expr}
  {e k pad : Nat}

theorem aligned_const (halign : f.align = .static pad) (hpad : pad < 8) :
    aligned w (.const e) f = .const (e + pad : Nat) := by
  have hsigned : signed64 pad = pad := signed64_of_lt (by omega)
  simp only [aligned, halign, hsigned, Nat.cast_add]
  rfl

/-- A single value behind a constant sum leaves a constant. -/
theorem prefixSumFrom_const_cons (hsingle : f.isVariable = false) (halign : f.align = .static pad)
    (hpad : pad < 8) (hsize : f.elemSize = f.type.size w) :
    prefixSumFrom w l count (.const e) (f :: fs) =
      prefixSumFrom w l count (.const (e + pad + f.elemSize : Nat)) fs := by
  have hnone : f.sizeField = none := by simpa [Field.isVariable] using hsingle
  have hmem := f.type.size_mem w
  simp only [List.mem_cons, List.not_mem_nil, or_false] at hmem
  have hsigned : signed64 f.elemSize = f.elemSize := signed64_of_lt (by omega)
  have hspan : span l count f = .ok (.const f.elemSize) := by
    simp only [span, hnone, hsigned]
    rfl
  rw [prefixSumFrom, hspan, aligned_const halign hpad]
  push_cast
  rfl

/-- As long as no array was passed, placing and the sum of spans agree. -/
theorem exists_endBefore_of_planFrom {c : Cursor} {bs : List BoundField} (hc : c.Exact)
    (hk : k ≤ (planFrom w c bs).length)
    (hsingle : ∀ g ∈ (planFrom w c bs).take k, g.isVariable = false) :
    ∃ e, endBefore? c.offset (planFrom w c bs) k = some e ∧
      (∀ f, (planFrom w c bs)[k]? = some f → f.align = .static (padTo f.elemSize e) ∧
        f.staticOffset = some (e + padTo f.elemSize e)) ∧
      prefixSumFrom w l count (.const c.offset) ((planFrom w c bs).take k) = .ok (.const e) := by
  induction bs generalizing c k with
  | nil =>
    obtain rfl : k = 0 := by simpa [planFrom] using hk
    exact ⟨c.offset, rfl, by simp [planFrom], rfl⟩
  | cons b bs ih =>
    cases k with
    | zero =>
      refine ⟨c.offset, rfl, ?_, rfl⟩
      intro f hf
      cases hf
      exact ⟨hc.align, hc.staticOffset⟩
    | succ k =>
      simp only [planFrom] at hsingle ⊢
      obtain ⟨hfirst, hrest⟩ := List.forall_mem_cons.mp hsingle
      have hstart := hc.staticOffset (w := w) (b := b)
      rw [planFrom, hfirst, hstart] at hk
      rw [hfirst, hstart] at hrest ⊢
      obtain ⟨e, hend, hfield, hsum⟩ := ih (hc.advance _) (Nat.le_of_succ_le_succ hk) hrest
      rw [advance_offset_of_not (hc.followsSmaller _)] at hend hsum
      refine ⟨e, ?_, hfield, ?_⟩
      · rw [endBefore?_cons hfirst hstart]
        exact hend
      · have halign := hc.align (w := w) (b := b)
        rw [List.take_succ_cons,
          prefixSumFrom_const_cons hfirst halign (pad_lt_of_planField halign) rfl]
        exact hsum

end Code.Accessor

/-! ## Static offsets in code -/

namespace Code

open Accessor
open Schema (bind_eq_ok pure_eq_ok)

variable {w : PointerWidth} {l : Layout} {f : Field} {a k : Nat}

/-- The place of a slot of a field that starts at `a`, in code. -/
def slotFrom (a : Nat) (f : Field) : Expr :=
  if f.isVariable then .bin .add (.const a) (.bin .mul (.const f.elemSize) index) else .const a

/-- Static offsets are the least possible ones, and what the offset functions return. -/
structure Program.OffsetsStatic (p : Program) (l : Layout) : Prop where
  /-- An offset is static as long as no array was passed. -/
  isSome_iff : ∀ k f, l.fields[k]? = some f →
    (f.staticOffset.isSome = true ↔ ∀ g ∈ l.fields.take k, g.isVariable = false)
  /-- A field starts at the first multiple of its width behind the field before. -/
  isLeast : ∀ k f a, l.fields[k]? = some f → f.staticOffset = some a →
    ∃ e, Layout.endBefore? 0 l.fields k = some e ∧ IsLeast {x | e ≤ x ∧ f.elemSize ∣ x} a
  offset : ∀ f ∈ l.fields, ∀ a, f.staticOffset = some a →
    ∃ g, p.function? (Name.offset l.name f.name) = some g ∧ g.body = [.ret (some (slotFrom a f))]
  /-- Without arrays the size is a constant, too. -/
  compSize : l.sizeFields = [] →
    ∃ total, Layout.endBefore? 0 l.fields l.fields.length = some total ∧
      ∃ g, p.function? (Name.compSize l.name) = some g ∧ g.params = [] ∧
        g.body = [.ret (some (.const total))]

/-- The offset function of a field behind a constant sum. -/
theorem body_of_offsetFunction {earlier : List Field} {e pad : Nat} {g : Function}
    (hsum : prefixSum w l (storedCount l) earlier = .ok (.const e))
    (halign : f.align = .static pad) (hpad : pad < 8) (hsize : signed64 f.elemSize = f.elemSize)
    (hpos : f.isVariable = true → 0 < e + pad) (hg : offsetFunction w l earlier f = .ok g) :
    g.body = [.ret (some (slotFrom (e + pad) f))] := by
  obtain ⟨offset, hoffset, hg⟩ := bind_eq_ok.mp hg
  cases pure_eq_ok.mp hg
  obtain ⟨sum, hsum', hoffset⟩ := bind_eq_ok.mp hoffset
  cases hsum.symm.trans hsum'
  cases pure_eq_ok.mp hoffset
  rw [aligned_const halign hpad, hsize, slotFrom]
  by_cases hvar : f.isVariable
  · have hne : ((e + pad : Nat) : Int) ≠ 0 := Int.natCast_ne_zero.mpr (hpos hvar).ne'
    rw [if_pos hvar, if_pos hvar, Expr.add_const_of_ne hne]
    · rfl
    · rfl
  · rw [if_neg hvar, if_neg hvar]

section Placed

variable {bs : List BoundField}

/-- What placing and synthesis know in front of a field as long as no array was passed. -/
theorem exists_endBefore (hfields : l.fields = Layout.planFrom w {} bs)
    (hk : k ≤ l.fields.length) (hsingle : ∀ g ∈ l.fields.take k, g.isVariable = false)
    (count : Field → Expr) :
    ∃ e, Layout.endBefore? 0 l.fields k = some e ∧
      (∀ f, l.fields[k]? = some f → f.align = .static (Layout.padTo f.elemSize e) ∧
        f.staticOffset = some (e + Layout.padTo f.elemSize e)) ∧
      prefixSum w l count (l.fields.take k) = .ok (.const e) := by
  rw [hfields] at hk hsingle ⊢
  exact exists_endBefore_of_planFrom ⟨rfl, rfl⟩ hk hsingle

theorem isSome_staticOffset_iff (hfields : l.fields = Layout.planFrom w {} bs)
    (hk : l.fields[k]? = some f) :
    f.staticOffset.isSome = true ↔ ∀ g ∈ l.fields.take k, g.isVariable = false := by
  constructor
  · intro hsome g hg
    by_contra hvar
    rw [hfields] at hk hg
    rw [Layout.staticOffset_eq_none_of_isVariable hk hg (Bool.not_eq_false _ ▸ hvar)] at hsome
    cases hsome
  · intro hsingle
    obtain ⟨hlt, -⟩ := List.getElem?_eq_some_iff.mp hk
    obtain ⟨e, -, hfield, -⟩ := exists_endBefore hfields hlt.le hsingle passedCount
    rw [(hfield f hk).2]
    rfl

/-- A static offset is the sum of the spans before and a pad. -/
theorem exists_of_staticOffset (hfields : l.fields = Layout.planFrom w {} bs)
    (hk : l.fields[k]? = some f) (ha : f.staticOffset = some a) :
    ∃ e, Layout.endBefore? 0 l.fields k = some e ∧ a = e + Layout.padTo f.elemSize e ∧
      f.align = .static (Layout.padTo f.elemSize e) ∧
      prefixSum w l (storedCount l) (l.fields.take k) = .ok (.const e) := by
  have hsingle := (isSome_staticOffset_iff hfields hk).mp (by rw [ha]; rfl)
  obtain ⟨hlt, -⟩ := List.getElem?_eq_some_iff.mp hk
  obtain ⟨e, hend, hfield, hsum⟩ := exists_endBefore hfields hlt.le hsingle (storedCount l)
  obtain ⟨halign, hoffset⟩ := hfield f hk
  exact ⟨e, hend, Option.some.inj (ha.symm.trans hoffset), halign, hsum⟩

theorem offsetsStatic_of_implements {p : Program} (h : l.WellFormed w)
    (hfields : l.fields = Layout.planFrom w {} bs) (hp : p.Implements w l) : p.OffsetsStatic l := by
  have hpos : ∀ f ∈ l.fields, 0 < f.elemSize := by
    intro f hf
    rw [h.elemSize_eq f hf]
    exact f.type.size_pos w
  refine ⟨fun k f hk => isSome_staticOffset_iff hfields hk, ?isLeast, ?offset, ?compSize⟩
  case isLeast =>
    intro k f a hk ha
    obtain ⟨e, hend, rfl, -⟩ := exists_of_staticOffset hfields hk ha
    exact ⟨e, hend, Layout.isLeast_add_padTo (hpos f (List.mem_of_getElem? hk)) e⟩
  case offset =>
    intro f hf a ha
    obtain ⟨k, hk⟩ := List.mem_iff_getElem?.mp hf
    obtain ⟨e, hend, rfl, halign, hsum⟩ := exists_of_staticOffset hfields hk ha
    obtain ⟨g, hg, hfind⟩ := hp.offset hk
    refine ⟨g, hfind, body_of_offsetFunction hsum halign (h.pad_lt f hf _ halign)
      (signed64_elemSize h hf) ?_ hg⟩
    -- An array stands behind the field that holds its length.
    intro hvar
    obtain ⟨i, hi⟩ := Option.isSome_iff_exists.mp hvar
    obtain ⟨k, rfl⟩ := Nat.exists_eq_add_of_lt (h.sizeField hk hi).1
    exact Nat.add_pos_left (Layout.pos_of_endBefore? hpos hend) _
  case compSize =>
    intro hnone
    have hsingle : ∀ g ∈ l.fields.take l.fields.length, g.isVariable = false := by
      intro g hg
      rw [Field.isVariable, Option.isSome_eq_false_iff, Option.isNone_iff_eq_none]
      by_contra hne
      obtain ⟨i, hi⟩ := Option.ne_none_iff_exists'.mp hne
      have hmem := h.mem_sizeFields_of_mem_take hg hi
      rw [hnone] at hmem
      cases hmem
    obtain ⟨total, hend, -, hsum⟩ := exists_endBefore hfields le_rfl hsingle passedCount
    obtain ⟨g, hg, hfind⟩ := hp.compSize
    obtain ⟨sizes, hsizes, hg⟩ := bind_eq_ok.mp hg
    obtain ⟨sum, hsum', hg⟩ := bind_eq_ok.mp hg
    cases pure_eq_ok.mp hg
    rw [sizeFields, hnone] at hsizes
    cases hsizes
    rw [List.take_length] at hsum
    cases hsum.symm.trans hsum'
    exact ⟨total, hend, _, hfind, rfl, rfl⟩

end Placed

/-- On every layout of an accepted schema the offset of a field is static if and only if no array
stands before it. It is the least multiple of the field's width behind the field before, and the
offset function returns it without a computation. -/
theorem offsetsStatic_of_resolve {defs : List LayoutDef} {ls : List Layout}
    (h : Schema.resolve w defs = .ok ls) (hl : l ∈ ls) :
    ∃ decls, layoutDecls w l = .ok decls ∧ (Program.ofDecls w decls).OffsetsStatic l := by
  have hwf := Schema.wellFormed_of_resolve h hl
  obtain ⟨t, b, -, hplan, -⟩ := Schema.exists_plan_of_resolve h hl
  have hfields : l.fields = Layout.planFrom w {} b.fields := by rw [hplan]; rfl
  obtain ⟨decls, hdecls, hp⟩ := exists_layoutDecls hwf
  exact ⟨decls, hdecls, offsetsStatic_of_implements hwf hfields hp⟩

/-! ### Words behind pads -/

/-- A byte and a length in front of an array of words, and a byte behind it. -/
def paddedDef : LayoutDef where
  name := "pad"
  category := "plain"
  fields := [{ name := "b", type := .uint8 }, { name := "n", type := .uint32 },
    { name := "xs", type := .uint64, sizeField := some "n" }, { name := "c", type := .uint8 }]

def paddedWords : Field where
  name := "xs"
  type := .uint64
  elemSize := 8
  sizeField := some 3
  align := .static 4
  staticOffset := some 24

def paddedLayout : Layout where
  id := 0
  name := "pad"
  category := "plain"
  fields := [
    { name := "next", type := .refptr, elemSize := 8, init := some .null, align := .static 0,
      staticOffset := some 0 },
    { name := "tag", type := .uint32, elemSize := 4, init := some (.int 0), align := .static 0,
      staticOffset := some 8 },
    { name := "b", type := .uint8, elemSize := 1, align := .static 0, staticOffset := some 12 },
    { name := "n", type := .uint32, elemSize := 4, align := .static 3, staticOffset := some 16 },
    paddedWords,
    { name := "c", type := .uint8, elemSize := 1, align := .static 0 }]
  sizeFields := [3]

theorem offsetsStatic_padded :
    Schema.resolve .eight [paddedDef] = .ok [paddedLayout] ∧
      ∃ decls, layoutDecls .eight paddedLayout = .ok decls ∧
        (Program.ofDecls .eight decls).OffsetsStatic paddedLayout ∧
        ∃ g, (Program.ofDecls .eight decls).function? "pad_ofs_xs" = some g ∧
          g.body = [.ret (some (.bin .add (.const 24) (.bin .mul (.const 8) (.var "i"))))] := by
  have hresolve : Schema.resolve .eight [paddedDef] = .ok [paddedLayout] := by decide
  obtain ⟨decls, hdecls, hstatic⟩ :=
    offsetsStatic_of_resolve hresolve (List.mem_singleton_self paddedLayout)
  have hmem : paddedWords ∈ paddedLayout.fields := List.mem_of_getElem? (i := 4) rfl
  exact ⟨hresolve, decls, hdecls, hstatic, hstatic.offset paddedWords hmem 24 rfl⟩

end Code

end HeapLayout
