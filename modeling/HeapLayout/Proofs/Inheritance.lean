import HeapLayout.Proofs.Placement
import Mathlib.Logic.Relation

/-!
# Inherited fields

A layout starts with the fields of the layout that it extends. Its fields are bound within a longer
list and placed from scratch, and yet an inherited field comes out as in the parent; only the tag is
initialised to the layout's own (`startsWith_of_resolve`).

Each phase is stable in its own way. Headers differ in the tag alone. A binding is the position of
the first field of some name, which further fields at the end do not move (`fields_of_bind`). A
field is placed by what stands in front of it (`prefix_planFrom`).
-/

namespace HeapLayout

/-! ## The tag of another layout -/

/-- The same field in a layout with the tag `id`. -/
def FieldDef.withTag (id : Nat) (f : FieldDef) : FieldDef :=
  { f with init := if f.name = Schema.tagField then some (.int id) else f.init }

@[inherit_doc FieldDef.withTag]
def BoundField.withTag (id : Nat) (f : BoundField) : BoundField :=
  { f with init := if f.name = Schema.tagField then some (.int id) else f.init }

@[inherit_doc FieldDef.withTag]
def Field.withTag (id : Nat) (f : Field) : Field :=
  { f with init := if f.name = Schema.tagField then some (.int id) else f.init }

theorem FieldDef.withTag_of_ne {f : FieldDef} (h : f.name ≠ Schema.tagField) (id : Nat) :
    f.withTag id = f := by
  rw [withTag, if_neg h]

/-- The child starts with the fields of the parent, up to the tag, and with its size fields. -/
structure Layout.StartsWith (child parent : Layout) : Prop where
  fields : parent.fields.map (Field.withTag child.id) <+: child.fields
  sizeFields : parent.sizeFields <+: child.sizeFields

namespace Schema

/-! ## Flattened and tagged fields -/

/-- The declaration at position `i` extends the one at position `j`. -/
def Extends (defs : List LayoutDef) (i j : Nat) : Prop :=
  ∃ child parent, defs[i]? = some child ∧ defs[j]? = some parent ∧
    child.parent = some parent.name

section Phases

variable {flat : List FlatLayout} {i j : Nat} {child parent : LayoutDef} {fl fl' : FlatLayout}
  {t t' : TaggedLayout} {b b' : BoundLayout}

/-- The parent is found by its name, which no other layout has. -/
theorem Stages.prefix_fields (h : Stages flat i child fl t b) (h' : Stages flat j parent fl' t' b')
    (hparent : child.parent = some parent.name) : fl'.fields <+: fl.fields := by
  obtain ⟨-, -, inherited, hinherited, hfields⟩ := flattenLayout_eq_ok h.flatten
  obtain ⟨hnew, hname, -⟩ := flattenLayout_eq_ok h'.flatten
  rcases inheritedFields_eq_ok hinherited with ⟨hnone, -⟩ | ⟨n, found, hn, hfind, rfl⟩
  · cases hparent.symm.trans hnone
  cases hparent.symm.trans hn
  obtain ⟨hfoundName, k, hk, hfound, hfirst⟩ := List.find?_eq_some_iff_getElem.mp hfind
  have hget : flat[k]? = some found := by
    rw [← hfound, List.getElem_take]
    exact List.getElem?_eq_getElem _
  have hkj : k = j := by
    rcases Nat.lt_trichotomy k j with hlt | heq | hgt
    · have hmem : found ∈ flat.take j := by
        refine List.mem_of_getElem? (i := k) ?_
        rw [List.getElem?_take, if_pos hlt, hget]
      have hmem' := List.mem_map_of_mem (f := (·.name)) hmem
      rw [beq_iff_eq.mp hfoundName] at hmem'
      exact absurd hmem' hnew
    · exact heq
    · have hbefore := hfirst j hgt
      rw [List.getElem_take, (List.getElem_eq_iff _).mpr h'.getElem_flat, hname] at hbefore
      simp at hbefore
  rw [hkj, h'.getElem_flat] at hget
  cases hget
  exact hfields ▸ List.prefix_append _ _

/-- Further up the chain, a layout still starts with the fields of what it extends. -/
theorem exists_prefix_flat {defs : List LayoutDef}
    (hstages : ∀ k d, defs[k]? = some d → ∃ fl t b, Stages flat k d fl t b)
    (h : Relation.TransGen (Extends defs) i j) :
    ∃ fl fl', flat[i]? = some fl ∧ flat[j]? = some fl' ∧ fl'.fields <+: fl.fields := by
  have hstep {i j : Nat} (h : Extends defs i j) :
      ∃ fl fl', flat[i]? = some fl ∧ flat[j]? = some fl' ∧ fl'.fields <+: fl.fields := by
    obtain ⟨child, parent, hchild, hparent, hname⟩ := h
    obtain ⟨fl, t, b, hst⟩ := hstages i child hchild
    obtain ⟨fl', t', b', hst'⟩ := hstages j parent hparent
    exact ⟨fl, fl', hst.getElem_flat, hst'.getElem_flat, hst.prefix_fields hst' hname⟩
  induction h with
  | single h => exact hstep h
  | tail _ h ih =>
    obtain ⟨fl, mid, hfl, hmid, hpre⟩ := ih
    obtain ⟨mid', fl', hmid', hfl', hpre'⟩ := hstep h
    cases hmid.symm.trans hmid'
    exact ⟨fl, fl', hfl, hfl', hpre'.trans hpre⟩

/-- Only the header holds a tag. -/
theorem map_withTag_of_tagLayout (h : tagLayout i fl = .ok t) (id : Nat) :
    t.fields.map (FieldDef.withTag id) = headerFields id ++ fl.fields := by
  obtain ⟨-, -, hfields, hnodup⟩ := tagLayout_eq_ok h
  rw [hfields, List.map_append] at hnodup
  have hown : fl.fields.map (FieldDef.withTag id) = fl.fields := by
    conv_rhs => rw [← List.map_id fl.fields]
    refine List.map_congr_left ?_
    intro f hf
    refine FieldDef.withTag_of_ne ?_ id
    have htag : tagField ∈ (headerFields i).map (·.name) := by simp [headerFields]
    exact ((List.nodup_append.mp hnodup).2.2 _ htag _ (List.mem_map_of_mem hf)).symm
  have hheader : (headerFields i).map (FieldDef.withTag id) = headerFields id := by
    simp [headerFields, FieldDef.withTag, forwardField, tagField]
  rw [hfields, List.map_append, hown, hheader]

theorem prefix_of_tagLayout (h : tagLayout i fl = .ok t) (h' : tagLayout j fl' = .ok t')
    (hpre : fl'.fields <+: fl.fields) : t'.fields.map (FieldDef.withTag i) <+: t.fields := by
  obtain ⟨-, -, hfields, -⟩ := tagLayout_eq_ok h
  rw [map_withTag_of_tagLayout h', hfields]
  exact (List.prefix_append_right_inj _).mpr hpre

/-! ## Bound fields -/

theorem boundField_withTag (names : List String) (f : FieldDef) (id : Nat) :
    boundField names (f.withTag id) = (boundField names f).withTag id := by
  by_cases h : f.name = tagField
  · simp [boundField, FieldDef.withTag, BoundField.withTag, h, InitConst.ofValue?]
  · simp [boundField, FieldDef.withTag, BoundField.withTag, h]

theorem prefix_of_bind (h : bind t = .ok b) (h' : bind t' = .ok b') {id : Nat}
    (hpre : t'.fields.map (FieldDef.withTag id) <+: t.fields) :
    b'.fields.map (BoundField.withTag id) <+: b.fields := by
  have hnames : t'.fields.map (·.name) <+: t.fields.map (·.name) := by
    have := hpre.map (·.name)
    rwa [List.map_map] at this
  have hcomm : BoundField.withTag id ∘ boundField (t.fields.map (·.name)) =
      boundField (t.fields.map (·.name)) ∘ FieldDef.withTag id :=
    funext fun f => (boundField_withTag _ f id).symm
  rw [fields_of_bind h List.prefix_rfl, fields_of_bind h' hnames, List.map_map, hcomm,
    ← List.map_map]
  exact hpre.map _

theorem prefix_sizeFields_of_bind (h : bind t = .ok b) (h' : bind t' = .ok b') {id : Nat}
    (hpre : b'.fields.map (BoundField.withTag id) <+: b.fields) :
    b'.sizeFields <+: b.sizeFields := by
  have hsizes := hpre.filterMap (·.sizeField)
  rw [List.filterMap_map] at hsizes
  obtain ⟨more, hmore⟩ := hsizes
  rw [sizeFields_of_bind h, sizeFields_of_bind h', ← hmore, firstUses_append]
  exact List.prefix_append _ _

end Phases

end Schema

/-! ## Placed fields -/

namespace Layout

variable {w : PointerWidth}

/-- A field is placed by the fields in front of it. -/
theorem prefix_planFrom (c : Cursor) {bs bs' : List BoundField} (h : bs <+: bs') :
    planFrom w c bs <+: planFrom w c bs' := by
  induction bs generalizing c bs' with
  | nil => exact List.nil_prefix
  | cons b bs ih =>
    obtain ⟨rest, rfl⟩ := h
    exact (List.prefix_cons_inj _).mpr (ih _ (List.prefix_append bs rest))

/-- Initial values have no part in where a field is placed. -/
theorem planFrom_map_withTag (id : Nat) (c : Cursor) (bs : List BoundField) :
    planFrom w c (bs.map (BoundField.withTag id)) =
      (planFrom w c bs).map (Field.withTag id) := by
  induction bs generalizing c with
  | nil => rfl
  | cons b bs ih => exact congrArg (List.cons _) (ih _)

end Layout

namespace Schema

variable {w : PointerWidth} {defs : List LayoutDef} {ls : List Layout} {i j : Nat}

/-- Every layout starts with the fields of each layout up the chain. -/
theorem startsWith_of_resolve (h : resolve w defs = .ok ls)
    (hchain : Relation.TransGen (Extends defs) i j) {child parent : Layout}
    (hchild : ls[i]? = some child) (hparent : ls[j]? = some parent) :
    child.StartsWith parent := by
  obtain ⟨-, hlength, flat, -, hstages⟩ := exists_stages_of_resolve h
  obtain ⟨d, hd⟩ := exists_getElem?_of_length_eq hlength hchild
  obtain ⟨d', hd'⟩ := exists_getElem?_of_length_eq hlength hparent
  obtain ⟨fl, t, b, hst, hplan⟩ := hstages i d hd
  obtain ⟨fl', t', b', hst', hplan'⟩ := hstages j d' hd'
  cases hchild.symm.trans hplan
  cases hparent.symm.trans hplan'
  have hflat : fl'.fields <+: fl.fields := by
    have hflatten : ∀ k d, defs[k]? = some d → ∃ fl t b, Stages flat k d fl t b := by
      intro k d hk
      obtain ⟨fl, t, b, hst, -⟩ := hstages k d hk
      exact ⟨fl, t, b, hst⟩
    obtain ⟨g, g', hg, hg', hpre⟩ := exists_prefix_flat hflatten hchain
    cases hst.getElem_flat.symm.trans hg
    cases hst'.getElem_flat.symm.trans hg'
    exact hpre
  have hid : (Layout.plan w b).id = i := hst.id_eq
  have hbound := prefix_of_bind hst.bind hst'.bind (prefix_of_tagLayout hst.tag hst'.tag hflat)
  refine ⟨?_, prefix_sizeFields_of_bind hst.bind hst'.bind hbound⟩
  rw [hid, Layout.plan, Layout.plan, ← Layout.planFrom_map_withTag]
  exact Layout.prefix_planFrom {} hbound

end Schema

end HeapLayout
