import HeapLayout.Proofs.SlotOrder
import Mathlib.Algebra.BigOperators.Group.Finset.Piecewise
import Mathlib.Algebra.BigOperators.Ring.Finset
import Mathlib.Data.Int.ModEq
import Mathlib.Tactic.Ring

/-!
# Aligned slots

A slot should start at a multiple of the width of its kind, or of the pointer width if that is less.
Fields are placed as if every array had one element. What more and fewer elements do to the places
behind is the `excess` of the fields since the last boundary that is rounded up at run time:
`endOf_modEq_of_planFrom` carries this through placing.

A count that governs several small arrays moves what follows them by the sum of their widths
(`bytesPer`). A slot is aligned for all counts if and only if its field is rounded up itself, or each
of these sums is a multiple of the alignment (`aligned_iff_of_resolve`). Placing looks at the last
field only, so a field that stands two behind an array of smaller elements need not be aligned.
-/

namespace HeapLayout

/-- What the slots of a kind are aligned to. -/
def Prim.alignment (w : PointerWidth) (p : Prim) : Nat :=
  min (p.size w) w.bytes

theorem Prim.alignment_dvd_size (w : PointerWidth) (p : Prim) : p.alignment w ∣ p.size w := by
  cases w <;> cases p <;> decide

theorem Prim.alignment_dvd_bytes (w : PointerWidth) (p : Prim) : p.alignment w ∣ w.bytes := by
  cases w <;> cases p <;> decide

namespace Layout

variable {w : PointerWidth} {κ : Counts} {l : Layout} {f : Field} {fs gs : List Field} {k e : Nat}

theorem dvd_add_padTo {unit : Nat} (h : 0 < unit) (offset : Nat) :
    unit ∣ offset + padTo unit offset := by
  rw [padTo, Nat.dvd_iff_mod_eq_zero, Nat.add_mod_mod]
  have hlt := Nat.mod_lt offset h
  have hsplit := Nat.mod_add_div offset unit
  have hsum : offset + (unit - offset % unit) = unit * (offset / unit + 1) := by
    rw [Nat.mul_add, Nat.mul_one]
    omega
  rw [hsum, Nat.mul_mod_right]

/-! ## What counts do to places -/

/-- The fields since the last one that is rounded up at run time, that one included. -/
def sinceBoundary (since fs : List Field) : List Field :=
  fs.foldl (fun since f => if f.align = .dynamic then [f] else since ++ [f]) since

/-- The bytes by which one more in a count moves the end of the given fields. -/
def bytesPer (c : FieldId) (fs : List Field) : Nat :=
  ((fs.filter fun f => f.sizeField = some c).map (·.elemSize)).sum

/-- The bytes by which the given fields are longer than with a single element each. -/
def excess (κ : Counts) (fs : List Field) : Int :=
  (fs.map fun f => (f.elemSize : Int) * (f.length κ - 1)).sum

theorem excess_append : excess κ (fs ++ gs) = excess κ fs + excess κ gs := by
  simp [excess]

theorem excess_singleton : excess κ [f] = f.elemSize * (f.length κ - 1) := by
  simp [excess]

theorem bytesPer_cons (c : FieldId) :
    bytesPer c (f :: fs) = (if f.sizeField = some c then f.elemSize else 0) + bytesPer c fs := by
  by_cases h : f.sizeField = some c <;> simp [bytesPer, h]

theorem bytesPer_eq_zero {c : FieldId} (h : ∀ f ∈ fs, f.sizeField ≠ some c) :
    bytesPer c fs = 0 := by
  have hnone : fs.filter (fun f => f.sizeField = some c) = [] :=
    List.filter_eq_nil_iff.mpr fun f hf => by simpa using h f hf
  rw [bytesPer, hnone]
  rfl

/-- Every count contributes on its own. -/
theorem excess_eq_sum (s : Finset FieldId)
    (h : ∀ f ∈ fs, ∀ c, f.sizeField = some c → c ∈ s) :
    excess κ fs = ∑ c ∈ s, ((κ c : Int) - 1) * bytesPer c fs := by
  induction fs with
  | nil => simp [excess, bytesPer]
  | cons f fs ih =>
    obtain ⟨hf, hfs⟩ := List.forall_mem_cons.mp h
    have hhead : (f.elemSize : Int) * (f.length κ - 1) =
        ∑ c ∈ s, ((κ c : Int) - 1) * (if f.sizeField = some c then f.elemSize else 0 : Nat) := by
      cases hc : f.sizeField with
      | none => simp [Field.length_of_none hc]
      | some c =>
        have hmem := hf c hc
        simp [Field.length_of_some hc, hmem, Int.mul_comm]
    have htail := ih hfs
    simp only [excess, List.map_cons, List.sum_cons] at htail ⊢
    rw [hhead, htail, ← Finset.sum_add_distrib]
    apply Finset.sum_congr rfl
    intro c _
    rw [bytesPer_cons, Nat.cast_add, Int.mul_add]

/-- One count too many shows what it moves. -/
theorem excess_update (c : FieldId) :
    excess (Function.update (fun _ => 1) c 2) fs = bytesPer c fs := by
  induction fs with
  | nil => rfl
  | cons f fs ih =>
    rw [← List.singleton_append, excess_append, excess_singleton, ih, List.singleton_append,
      bytesPer_cons, Nat.cast_add]
    congr 1
    cases hc : f.sizeField with
    | none => simp [Field.length_of_none hc]
    | some d =>
      rw [Field.length_of_some hc]
      by_cases hd : d = c
      · simp [hd]
      · simp [hd]

/-- The excess is a multiple of a unit whatever the counts are, if and only if no single count can
make it anything else. -/
theorem forall_dvd_excess_iff {unit : Nat} :
    (∀ κ, (unit : Int) ∣ excess κ fs) ↔ ∀ c, unit ∣ bytesPer c fs := by
  constructor
  · intro h c
    have hone := h (Function.update (fun _ => 1) c 2)
    rw [excess_update] at hone
    exact_mod_cast hone
  · intro h κ
    have hmem : ∀ f ∈ fs, ∀ c, f.sizeField = some c → c ∈ (fs.filterMap (·.sizeField)).toFinset := by
      intro f hf c hc
      exact List.mem_toFinset.mpr (List.mem_filterMap.mpr ⟨f, hf, hc⟩)
    rw [excess_eq_sum _ hmem]
    refine Finset.dvd_sum fun c _ => Dvd.dvd.mul_left ?_ _
    exact_mod_cast h c

/-! ## What placing knows -/

section Place

variable {c : Cursor} {b : BoundField} {since : List Field}

theorem align_planField_of_followsSmaller (h : c.followsSmaller (b.type.size w) = true) :
    (planField w c b).align = .dynamic := by
  simp only [planField, Cursor.place, h, if_true]

theorem align_planField_of_not (h : c.followsSmaller (b.type.size w) = false) :
    (planField w c b).align = .static (padTo (b.type.size w) c.offset) := by
  simp [planField, Cursor.place, h]

theorem advance_offset_of_followsSmaller {size : Nat} (h : c.followsSmaller size = true)
    (isVariable : Bool) (placed : Option Nat) :
    (c.advance size isVariable placed).offset = size := by
  simp only [Cursor.advance, h, if_true]

theorem advance_offset_of_not {size : Nat} (h : c.followsSmaller size = false)
    (isVariable : Bool) (placed : Option Nat) :
    (c.advance size isVariable placed).offset = c.offset + padTo size c.offset + size := by
  simp [Cursor.advance, h]

theorem sinceBoundary_of_dynamic (h : f.align = .dynamic) : sinceBoundary since [f] = [f] := by
  simp [sinceBoundary, h]

theorem sinceBoundary_of_static {pad : Nat} (h : f.align = .static pad) :
    sinceBoundary since [f] = since ++ [f] := by
  simp [sinceBoundary, h]

/-- Of the true place of a cursor, placing knows the remainder for single elements. -/
theorem stop_modEq_of_planField (hf : f = planField w c b)
    (he : (e : Int) ≡ c.offset + excess κ since [ZMOD w.bytes]) :
    (f.stop w κ e : Int) ≡ (c.advance f.elemSize f.isVariable f.staticOffset).offset +
      excess κ (sinceBoundary since [f]) [ZMOD w.bytes] := by
  have hsize : f.elemSize = b.type.size w := by rw [hf]; rfl
  by_cases hsmaller : c.followsSmaller (b.type.size w) = true
  · have halign : f.align = .dynamic := hf ▸ align_planField_of_followsSmaller hsmaller
    have hround : (roundUp w.bytes e : Int) ≡ 0 [ZMOD w.bytes] :=
      Int.modEq_zero_iff_dvd.mpr (Int.natCast_dvd_natCast.mpr (dvd_roundUp _ _))
    have hstop := hround.add_right ((f.elemSize : Int) * f.length κ)
    rw [advance_offset_of_followsSmaller (hsize ▸ hsmaller), sinceBoundary_of_dynamic halign,
      excess_singleton, Field.stop, Field.start, halign, Nat.cast_add, Nat.cast_mul]
    convert hstop using 1
    ring
  · rw [Bool.not_eq_true] at hsmaller
    have halign : f.align = .static (padTo f.elemSize c.offset) :=
      hsize ▸ hf ▸ align_planField_of_not hsmaller
    have hstop := he.add_right (padTo f.elemSize c.offset + f.elemSize * f.length κ : Int)
    rw [advance_offset_of_not (hsize ▸ hsmaller), sinceBoundary_of_static halign, excess_append,
      excess_singleton, Field.stop, Field.start, halign]
    push_cast
    convert hstop using 1 <;> ring

end Place

/-- The cursor at a field knows where the fields before it end, up to the excess since the last
boundary. -/
theorem endOf_modEq_of_planFrom {c : Cursor} {bs : List BoundField}
    (hk : (planFrom w c bs)[k]? = some f) :
    ∃ c' b, f = planField w c' b ∧
      ∀ (since : List Field) (e : Nat), (e : Int) ≡ c.offset + excess κ since [ZMOD w.bytes] →
        (endOf w κ e ((planFrom w c bs).take k) : Int) ≡
          c'.offset + excess κ (sinceBoundary since ((planFrom w c bs).take k)) [ZMOD w.bytes] := by
  induction bs generalizing c k with
  | nil => simp [planFrom] at hk
  | cons b bs ih =>
    cases k with
    | zero =>
      cases hk
      exact ⟨c, b, rfl, fun since e he => he⟩
    | succ k =>
      obtain ⟨c', b', hf, hend⟩ := ih hk
      refine ⟨c', b', hf, ?_⟩
      intro since e he
      exact hend _ _ (stop_modEq_of_planField rfl he)

/-! ## Aligned places -/

/-- A field that is not rounded up is as far from alignment as the counts since the last boundary
moved it. -/
theorem offset_modEq {bs : List BoundField} (hl : l.fields = planFrom w {} bs)
    (hk : l.fields[k]? = some f) (hstatic : f.align ≠ .dynamic) (i : Nat) :
    (l.offset w κ k f i : Int) ≡ excess κ (sinceBoundary [] (l.fields.take k))
      [ZMOD f.type.alignment w] := by
  rw [hl] at hk
  obtain ⟨c, b, hf, hend⟩ := endOf_modEq_of_planFrom (κ := κ) hk
  have hsmaller : c.followsSmaller (b.type.size w) = false := by
    by_contra h
    rw [Bool.not_eq_false] at h
    exact hstatic (hf ▸ align_planField_of_followsSmaller h)
  have halign : f.align = .static (padTo (b.type.size w) c.offset) :=
    hf ▸ align_planField_of_not hsmaller
  have htype : f.type = b.type := by rw [hf]; rfl
  have hsize : f.elemSize = b.type.size w := by rw [hf]; rfl
  -- Modulo the alignment, pad and elements add nothing.
  have hpad : (c.offset + padTo (b.type.size w) c.offset : Int) ≡ 0 [ZMOD f.type.alignment w] := by
    rw [Int.modEq_zero_iff_dvd]
    have hdvd := dvd_add_padTo (b.type.size_pos w) c.offset
    rw [htype]
    exact_mod_cast (Prim.alignment_dvd_size w b.type).trans hdvd
  have helem : (f.elemSize * i : Int) ≡ 0 [ZMOD f.type.alignment w] := by
    rw [Int.modEq_zero_iff_dvd, hsize, htype]
    exact_mod_cast Dvd.dvd.mul_right (Prim.alignment_dvd_size w b.type) i
  have hfrom := (hend [] 0 (by simp [excess])).of_dvd
    (Int.natCast_dvd_natCast.mpr (Prim.alignment_dvd_bytes w f.type))
  rw [← hl] at hfrom
  have hsum := (hfrom.add_right (padTo (b.type.size w) c.offset + f.elemSize * i : Int)).trans
    (show _ ≡ excess κ (sinceBoundary [] (l.fields.take k)) [ZMOD f.type.alignment w] by
      have := (hpad.add helem).add_right (excess κ (sinceBoundary [] (l.fields.take k)))
      convert this using 1 <;> ring)
  have hstart : f.start w (endOf w κ 0 (l.fields.take k)) =
      endOf w κ 0 (l.fields.take k) + padTo (b.type.size w) c.offset := by rw [Field.start, halign]
  rw [offset, hstart]
  push_cast
  rw [add_assoc]
  exact hsum

/-- The fields before `f`, at position `k`, leave it aligned whatever the counts are. -/
def AlignedFor (w : PointerWidth) (l : Layout) (k : Nat) (f : Field) : Prop :=
  f.align = .dynamic ∨
    ∀ c ∈ l.sizeFields, f.type.alignment w ∣ bytesPer c (sinceBoundary [] (l.fields.take k))

instance (w : PointerWidth) (l : Layout) (k : Nat) (f : Field) : Decidable (AlignedFor w l k f) :=
  inferInstanceAs (Decidable (_ ∨ _))

theorem mem_of_mem_sinceBoundary {since : List Field} (h : f ∈ sinceBoundary since fs) :
    f ∈ since ∨ f ∈ fs := by
  induction fs generalizing since with
  | nil => exact .inl h
  | cons g fs ih =>
    rcases ih h with hsince | hfs
    · by_cases hg : g.align = .dynamic
      · simp only [if_pos hg, List.mem_singleton] at hsince
        exact .inr (hsince ▸ List.mem_cons_self)
      · simp only [if_neg hg, List.mem_append, List.mem_singleton] at hsince
        rcases hsince with hsince | rfl
        · exact .inl hsince
        · exact .inr List.mem_cons_self
    · exact .inr (List.mem_cons_of_mem g hfs)

/-- A field that is not rounded up is aligned as far as the excess since the last boundary is. -/
theorem dvd_offset_iff {bs : List BoundField} (hl : l.fields = planFrom w {} bs)
    (hk : l.fields[k]? = some f) (hstatic : f.align ≠ .dynamic) (i : Nat) :
    f.type.alignment w ∣ l.offset w κ k f i ↔
      (f.type.alignment w : Int) ∣ excess κ (sinceBoundary [] (l.fields.take k)) := by
  rw [← Int.natCast_dvd_natCast]
  exact (offset_modEq hl hk hstatic i).dvd_iff

theorem dvd_offset_of_dynamic (hdynamic : f.align = .dynamic) (hsize : f.elemSize = f.type.size w)
    (i : Nat) : f.type.alignment w ∣ l.offset w κ k f i := by
  rw [offset, Field.start, hdynamic, hsize]
  exact Nat.dvd_add ((Prim.alignment_dvd_bytes w f.type).trans (dvd_roundUp _ _))
    (Dvd.dvd.mul_right (Prim.alignment_dvd_size w f.type) i)

/-- Slots are aligned for all counts if and only if no single count can move them out of place. -/
theorem forall_dvd_offset_iff (hwf : l.WellFormed w) {bs : List BoundField}
    (hl : l.fields = planFrom w {} bs) (hk : l.fields[k]? = some f) :
    (∀ κ i, f.HasIndex i → f.type.alignment w ∣ l.offset w κ k f i) ↔ AlignedFor w l k f := by
  by_cases hdynamic : f.align = .dynamic
  · have hsize := hwf.elemSize_eq f (List.mem_of_getElem? hk)
    exact ⟨fun _ => .inl hdynamic, fun _ κ i _ => dvd_offset_of_dynamic hdynamic hsize i⟩
  · constructor
    · intro haligned
      refine .inr fun c _ => forall_dvd_excess_iff.mp ?_ c
      intro κ
      exact (dvd_offset_iff hl hk hdynamic 0).mp (haligned κ 0 fun _ => rfl)
    · rintro (h | hbytes) κ i -
      · exact absurd h hdynamic
      · rw [dvd_offset_iff hl hk hdynamic]
        refine forall_dvd_excess_iff.mpr (fun c => ?_) κ
        by_cases hc : c ∈ l.sizeFields
        · exact hbytes c hc
        -- What governs no field moves nothing.
        · rw [bytesPer_eq_zero]
          · exact dvd_zero _
          · intro g hg hgc
            rcases mem_of_mem_sinceBoundary hg with hg | hg
            · cases hg
            · exact hc (hwf.mem_sizeFields_of_mem_take hg hgc)

end Layout

/-! ## Aligned offset functions -/

namespace Code

open Accessor

variable {w : PointerWidth} {l : Layout} {κ : Counts}

/-- The size field whose getter has the given name. -/
def sizeFieldOf? (l : Layout) (name : String) : Option FieldId :=
  l.sizeFields.find? fun c => (l.fields[c]?).any fun s => Name.getter l.name s.name == name

/-- Calls that answer the getters of size fields with counts. -/
def countCalls (l : Layout) (κ : Counts) : Calls := fun name _ =>
  Run.ofOption ((sizeFieldOf? l name).map fun c => some (κ c : Int))

theorem sizeFieldOf?_getter (hwf : l.WellFormed w) {c : FieldId} (hc : c ∈ l.sizeFields) {s : Field}
    (hs : l.fields[c]? = some s) : sizeFieldOf? l (Name.getter l.name s.name) = some c := by
  unfold sizeFieldOf?
  cases hfind : l.sizeFields.find? fun c =>
      (l.fields[c]?).any fun t => Name.getter l.name t.name == Name.getter l.name s.name with
  | none =>
    have hnone := List.find?_eq_none.mp hfind c hc
    simp [hs] at hnone
  | some d =>
    have hname := List.find?_some hfind
    rw [Option.any_eq_true] at hname
    obtain ⟨t, ht, hname⟩ := hname
    have hkind : FunctionKind.get l.name t.name = .get l.name s.name :=
      FunctionKind.eq_of_name_eq rfl rfl (beq_iff_eq.mp hname)
    rw [hwf.eq_of_name_eq ht hs (FunctionKind.get.inj hkind).2]

theorem answers_countCalls (hwf : l.WellFormed w) (o : Int) (m : Machine) :
    Answers (countCalls l κ) l κ o m l.fields := by
  intro f hf c s hc hs
  rw [countCalls, sizeFieldOf?_getter hwf (hwf.mem_sizeFields_iff.mpr ⟨f, hf, hc⟩) hs]
  rfl

/-- A scope in which nothing but the getters of size fields is answered. -/
def countScope (w : PointerWidth) (l : Layout) (κ : Counts) : Scope where
  platform := { width := w, undef := fun _ => 0, place := fun _ _ => 0, forward := fun _ _ => 0 }
  constant := fun _ => none
  calls := countCalls l κ

/-- On every layout of an accepted schema, an offset function gives multiples of the alignment,
whatever counts the getters of size fields answer, if and only if no single count can move the field
out of place. -/
theorem aligned_iff_of_resolve {defs : List LayoutDef} {ls : List Layout}
    (h : Schema.resolve w defs = .ok ls) (hl : l ∈ ls) :
    ∃ decls, layoutDecls w l = .ok decls ∧ ∀ k f, l.fields[k]? = some f →
      ∃ g, (Program.ofDecls w decls).function? (Name.offset l.name f.name) = some g ∧
        ((∀ κ S o m i, f.HasIndex i → Answers S.calls l κ o m l.fields →
          ∃ v : Int, g.run S (slotValues f o i) m = .ok (some v, m) ∧
            (f.type.alignment w : Int) ∣ v) ↔ l.AlignedFor w k f) := by
  have hwf := Schema.wellFormed_of_resolve h hl
  obtain ⟨t, b, -, hplan, -⟩ := Schema.exists_plan_of_resolve h hl
  have hfields : l.fields = Layout.planFrom w {} b.fields := by rw [hplan]; rfl
  obtain ⟨decls, hdecls, hp⟩ := exists_layoutDecls hwf
  refine ⟨decls, hdecls, ?_⟩
  intro k f hk
  obtain ⟨g, hg, hfind⟩ := hp.offset hk
  refine ⟨g, hfind, ?_⟩
  have hrun {κ S o m i} (hi : f.HasIndex i) (hc : Answers S.calls l κ o m l.fields) :
      g.run S (slotValues f o i) m = .ok (some (l.offset w κ k f i : Int), m) :=
    run_offset hwf hk hi hg fun f hf => hc f (List.mem_of_mem_take hf)
  rw [← Layout.forall_dvd_offset_iff hwf hfields hk]
  constructor
  · intro haligned κ i hi
    have hc : Answers (countScope w l κ).calls l κ 0 { bytes := fun _ => 0 } l.fields :=
      answers_countCalls hwf _ _
    obtain ⟨v, hv, hdvd⟩ := haligned κ (countScope w l κ) 0 _ i hi hc
    cases (hrun hi hc).symm.trans hv
    exact_mod_cast hdvd
  · intro haligned κ S o m i hi hc
    refine ⟨_, hrun hi hc, ?_⟩
    have hdvd := haligned κ i hi
    exact_mod_cast hdvd

/-! ### Fields two behind an array -/

/-- Two arrays of bytes that share a count, a byte behind them and a half-word. -/
def twinDef : LayoutDef where
  name := "buf"
  category := "plain"
  fields := [{ name := "n", type := .uint32 },
    { name := "xs", type := .uint8, sizeField := some "n" },
    { name := "ys", type := .uint8, sizeField := some "n" },
    { name := "b", type := .uint8 },
    { name := "h", type := .uint16 }]

def tailByte : Field where
  name := "b"
  type := .uint8
  elemSize := 1
  align := .static 0

def twinHalf : Field where
  name := "h"
  type := .uint16
  elemSize := 2
  align := .static 1

def twinLayout : Layout where
  id := 0
  name := "buf"
  category := "plain"
  fields := (bufferLayout none none).fields ++ [
    { name := "ys", type := .uint8, elemSize := 1, sizeField := some 2, align := .static 0 },
    tailByte, twinHalf]
  sizeFields := [2]

/-- One more in the count moves the half-word by two bytes, one of each array. -/
theorem aligned_twins :
    Schema.resolve .eight [twinDef] = .ok [twinLayout] ∧ twinHalf.align = .static 1 ∧
      ∃ decls, layoutDecls .eight twinLayout = .ok decls ∧
        ∃ g, (Program.ofDecls .eight decls).function? "buf_ofs_h" = some g ∧
          ∀ κ S o m i, twinHalf.HasIndex i → Answers S.calls twinLayout κ o m twinLayout.fields →
            ∃ v : Int, g.run S (slotValues twinHalf o i) m = .ok (some v, m) ∧ (2 : Int) ∣ v := by
  have hresolve : Schema.resolve .eight [twinDef] = .ok [twinLayout] := by decide
  obtain ⟨decls, hdecls, hall⟩ :=
    aligned_iff_of_resolve hresolve (List.mem_singleton_self twinLayout)
  obtain ⟨g, hfind, hiff⟩ := hall 6 twinHalf rfl
  exact ⟨hresolve, rfl, decls, hdecls, g, hfind, hiff.mpr (by decide)⟩

/-- A byte and a word behind an array of bytes. -/
def tailDef : LayoutDef where
  name := "buf"
  category := "plain"
  fields := [{ name := "n", type := .uint32 },
    { name := "xs", type := .uint8, sizeField := some "n" },
    { name := "b", type := .uint8 },
    { name := "w", type := .uint32 }]

def tailWord : Field where
  name := "w"
  type := .uint32
  elemSize := 4
  align := .static 2

def tailLayout : Layout where
  id := 0
  name := "buf"
  category := "plain"
  fields := (bufferLayout none none).fields ++ [tailByte, tailWord]
  sizeFields := [2]

/-- Behind two bytes the word starts at 21, which is no multiple of four. -/
theorem not_aligned_tail :
    Schema.resolve .eight [tailDef] = .ok [tailLayout] ∧
      ∃ decls, layoutDecls .eight tailLayout = .ok decls ∧
        ∃ m, (Program.ofDecls .eight decls).ReadsCounts examplePlatform tailLayout (fun _ => 2) 0 m ∧
          (∃ m', (Program.ofDecls .eight decls).Returns examplePlatform "buf_ofs_w" [.int 0] m
            (some 21) m') ∧
          ¬(tailWord.type.alignment .eight : Int) ∣ 21 := by
  obtain ⟨decls, hdecls⟩ : ∃ decls, layoutDecls .eight tailLayout = .ok decls := ⟨_, rfl⟩
  let m : Machine := { bytes := fun a => if a = 12 then 2 else 0 }
  have hoffset : Run.result? ((Program.ofDecls .eight decls).call examplePlatform 3 "buf_ofs_w"
      [.int 0]) m = some (some 21) := by
    cases hdecls
    decide +kernel
  obtain ⟨m', hrun⟩ := Run.result?_eq_some.mp hoffset
  refine ⟨by decide, decls, hdecls, m, ?_, ⟨m', 3, hrun⟩, by decide⟩
  intro i hi s hs
  cases List.mem_singleton.mp hi
  cases hs
  cases hdecls
  exact ⟨_, 2, rfl⟩

end Code

end HeapLayout
