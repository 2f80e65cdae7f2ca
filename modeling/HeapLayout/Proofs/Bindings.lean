import HeapLayout.Proofs.Acceptance
import HeapLayout.Proofs.Placement

/-!
# From declared to resolved fields

A resolved layout has the fields that are declared along its lineage, behind the header. Where a
declaration names a field, the resolved one holds its position, and conversely every position comes
from a declared name (`Layout.Resolves`). `resolves_of_resolve` shows this for all layouts of an
accepted schema.

A position is that of the first field with the name in question. As names are distinct, the first is
the only one, so it does not matter how far the search goes.
-/

namespace HeapLayout

/-- Some field is governed by `i`, and all fields that are governed by `j` come after it. -/
def UsedBefore (fields : List Field) (i j : FieldId) : Prop :=
  ∃ (k : Nat) (f : Field), fields[k]? = some f ∧ f.sizeField = some i ∧
    ∀ (k' : Nat) (f' : Field), fields[k']? = some f' → f'.sizeField = some j → k < k'

/-- The layout has the declared fields, bound to one another by position. -/
structure Layout.Resolves (l : Layout) (defs : List FieldDef) : Prop where
  length_eq : l.fields.length = defs.length
  /-- Names and kinds are as declared, and initial values are what the declared ones mean. -/
  declared : ∀ {j : Nat} {f : Field} {d : FieldDef}, l.fields[j]? = some f →
    defs[j]? = some d →
    f.name = d.name ∧ f.type = d.type ∧ f.init.map some = d.init.map InitConst.ofValue?
  names_nodup : (l.fields.map (·.name)).Nodup
  sizeField_iff : ∀ {i j : Nat} {f : Field} {d : FieldDef}, l.fields[j]? = some f →
    defs[j]? = some d →
    (f.sizeField = some i ↔ ∃ s : Field, l.fields[i]? = some s ∧ d.sizeField = some s.name)
  sizeField : ∀ {i j : Nat} {f : Field}, l.fields[j]? = some f → f.sizeField = some i →
    i < j ∧ ∃ s : Field, l.fields[i]? = some s ∧ s.sizeField = none ∧ s.type ∈ Schema.countTypes
  typeField_iff : ∀ {i j : Nat} {f : Field} {d : FieldDef}, l.fields[j]? = some f →
    defs[j]? = some d →
    (f.typeField = some i ↔ ∃ t : Field, l.fields[i]? = some t ∧ d.typeField = some t.name)
  typeField : ∀ {i j : Nat} {f : Field}, l.fields[j]? = some f → f.typeField = some i →
    ∃ t : Field, l.fields[i]? = some t ∧ t.sizeField = f.sizeField
  mem_sizeFields : ∀ {i : Nat}, i ∈ l.sizeFields ↔ ∃ f ∈ l.fields, f.sizeField = some i
  sizeFields_nodup : l.sizeFields.Nodup
  sizeFields_inOrder : l.sizeFields.Pairwise (UsedBefore l.fields)

/-! ## The order of first use -/

/-- One more field in front moves every use by one position. -/
theorem UsedBefore.cons {fields : List Field} {i j : FieldId} (h : UsedBefore fields i j)
    {f : Field} (hf : f.sizeField ≠ some j) : UsedBefore (f :: fields) i j := by
  obtain ⟨k, g, hg, hi, hfirst⟩ := h
  refine ⟨k + 1, g, hg, hi, ?_⟩
  intro k' f' hf' hj
  cases k' with
  | zero =>
    cases hf'
    exact absurd hj hf
  | succ k' => exact Nat.succ_lt_succ (hfirst k' f' hf' hj)

theorem usedBefore_head {fields : List Field} {f : Field} {i j : FieldId}
    (hi : f.sizeField = some i) (hij : j ≠ i) : UsedBefore (f :: fields) i j := by
  refine ⟨0, f, rfl, hi, ?_⟩
  intro k' f' hf' hj
  cases k' with
  | zero =>
    cases hf'
    exact absurd (Option.some.inj (hj.symm.trans hi)) hij
  | succ k' => exact Nat.succ_pos k'

theorem pairwise_firstUses (fields : List Field) :
    (Schema.firstUses (fields.filterMap (·.sizeField))).Pairwise (UsedBefore fields) := by
  induction fields with
  | nil => exact List.Pairwise.nil
  | cons f fields ih =>
    cases hf : f.sizeField with
    | none =>
      rw [List.filterMap_cons_none hf]
      exact ih.imp fun h => h.cons (by simp [hf])
    | some i =>
      rw [List.filterMap_cons_some hf, Schema.firstUses, List.pairwise_cons]
      refine ⟨?_, ?_⟩
      · intro j hj
        exact usedBefore_head hf (by simpa using (List.mem_filter.mp hj).2)
      · refine (ih.filter _).imp_of_mem ?_
        intro j j' _ hj' h
        refine h.cons ?_
        rw [hf]
        intro hij
        cases hij
        simpa using (List.mem_filter.mp hj').2

/-! ## Positions of names -/

theorem findIdx?_eq_some_iff_of_nodup {names : List String} (hnodup : names.Nodup) {n : String}
    {i : Nat} : names.findIdx? (· == n) = some i ↔ names[i]? = some n := by
  rw [List.findIdx?_eq_some_iff_getElem]
  constructor
  · rintro ⟨hi, hn, -⟩
    rw [List.getElem?_eq_getElem hi, beq_iff_eq.mp hn]
  · intro hn
    obtain ⟨hi, hni⟩ := List.getElem?_eq_some_iff.mp hn
    refine ⟨hi, by simpa using hni, ?_⟩
    intro j hj hjn
    have hsame : names[j] = names[i] := by simpa [hni] using hjn
    exact Nat.ne_of_lt hj ((hnodup.getElem_inj_iff).mp hsame)

namespace Schema

/-- A binding in a list of fields is the position of the field with the declared name. -/
theorem bind_findIdx?_eq_some_iff {fields : List Field} (hnodup : (fields.map (·.name)).Nodup)
    {n? : Option String} {i : FieldId} :
    (n?.bind fun n => (fields.map (·.name)).findIdx? (· == n)) = some i ↔
      ∃ s, fields[i]? = some s ∧ n? = some s.name := by
  simp only [Option.bind_eq_some_iff, findIdx?_eq_some_iff_of_nodup hnodup, List.getElem?_map,
    Option.map_eq_some_iff]
  constructor
  · rintro ⟨n, rfl, s, hs, rfl⟩
    exact ⟨s, hs, rfl⟩
  · rintro ⟨s, hs, rfl⟩
    exact ⟨_, rfl, s, hs, rfl⟩

theorem resolves_plan {w : PointerWidth} {t : TaggedLayout} {b : BoundLayout}
    (h : bind t = .ok b) (hwf : (Layout.plan w b).WellFormed w)
    (hinit : ∀ f ∈ t.fields, ∀ v, f.init = some v → v.HasMeaning) :
    (Layout.plan w b).Resolves t.fields := by
  have hbound := fields_of_bind h List.prefix_rfl
  have hnames := Layout.map_name_plan (w := w) h
  have hlength : (Layout.plan w b).fields.length = t.fields.length := by
    simpa using congrArg List.length hnames
  -- A field and its declaration stand at the same position.
  have hfield {j : Nat} {f : Field} {d : FieldDef} (hf : (Layout.plan w b).fields[j]? = some f)
      (hd : t.fields[j]? = some d) :
      ∃ c, f = Layout.planField w c (boundField (t.fields.map (·.name)) d) := by
    obtain ⟨c, bf, hbf, rfl⟩ := Layout.exists_planField hf
    rw [hbound, List.getElem?_map, hd, Option.map_some] at hbf
    cases hbf
    exact ⟨c, rfl⟩
  refine ⟨hlength, ?agrees, hwf.names_nodup, ?sizeField_iff, ?sizeField, ?typeField_iff, ?typeField,
    hwf.mem_sizeFields_iff, hwf.nodup_sizeFields, hwf.sizeFields_eq ▸ pairwise_firstUses _⟩
  case agrees =>
    intro j f d hf hd
    obtain ⟨c, rfl⟩ := hfield hf hd
    refine ⟨rfl, rfl, ?_⟩
    show (d.init.bind InitConst.ofValue?).map some = _
    cases hv : d.init with
    | none => rfl
    | some v =>
      obtain ⟨c, hc⟩ := InitConst.exists_ofValue?_iff.mpr (hinit d (List.mem_of_getElem? hd) v hv)
      simp [hc]
  case sizeField_iff =>
    intro i j f d hf hd
    obtain ⟨c, rfl⟩ := hfield hf hd
    rw [← bind_findIdx?_eq_some_iff hwf.names_nodup, hnames]
    rfl
  case sizeField =>
    intro i j f hf hi
    obtain ⟨hij, s, hs, hsingle, hcount⟩ := hwf.sizeField hf hi
    exact ⟨hij, s, hs, hsingle, isCountType_iff.mp hcount⟩
  case typeField_iff =>
    intro i j f d hf hd
    obtain ⟨c, rfl⟩ := hfield hf hd
    rw [← bind_findIdx?_eq_some_iff hwf.names_nodup, hnames]
    rfl
  case typeField =>
    intro i j f hf hi
    exact hwf.typeField f (List.mem_of_getElem? hf) i hi

/-- Every declaration is resolved to the layout at its own position, which is its tag. The fields are
the header, which is the same for all layouts up to the tag, and those along the lineage. -/
theorem resolves_of_resolve {w : PointerWidth} {defs : List LayoutDef} {ls : List Layout}
    (h : resolve w defs = .ok ls) :
    ls.length = defs.length ∧ ∀ (k : Nat) d, defs[k]? = some d →
      ∃ l ds, ls[k]? = some l ∧ l.id = k ∧ l.name = d.name ∧ Lineage defs k ds ∧
        l.Resolves ({ name := "next", type := .refptr, init := some (.named "null") } ::
          { name := "tag", type := .uint32, init := some (.int k) } :: ds.flatMap (·.fields)) := by
  obtain ⟨hcheck, hlength, flat, hflat, hstages⟩ := exists_stages_of_resolve h
  obtain ⟨hvalid, -⟩ := check_eq_ok_iff.mp hcheck
  refine ⟨hlength, ?_⟩
  intro k d hd
  obtain ⟨fl, t, b, hst, hl⟩ := hstages k d hd
  obtain ⟨ds, hds, hfl⟩ := exists_lineage_of_flatten hflat hd
  cases hst.getElem_flat.symm.trans hfl
  obtain ⟨-, -, hfields, -⟩ := tagLayout_eq_ok hst.tag
  refine ⟨_, ds, hl, hst.id_eq, hst.name_eq, hds, ?_⟩
  have hinit : ∀ f ∈ t.fields, ∀ v, f.init = some v → v.HasMeaning := fun f hf =>
    hasMeaning_of_mem_lineage hvalid hds (hfields ▸ hf)
  have hresolves := resolves_plan hst.bind (wellFormed_of_resolve h (List.mem_of_getElem? hl)) hinit
  rwa [hfields] at hresolves

/-- The cells have the inherited count between the header and their own two arrays. -/
theorem resolves_cells :
    ∃ ls l, resolve .eight [countedDef, cellsDef] = .ok ls ∧ ls[1]? = some l ∧ l.id = 1 ∧
      l.Resolves ({ name := "next", type := .refptr, init := some (.named "null") } ::
        { name := "tag", type := .uint32, init := some (.int 1) } ::
        (countedDef.fields ++ cellsDef.fields)) := by
  have hlineage : Lineage [countedDef, cellsDef] 1 ([countedDef] ++ [cellsDef]) :=
    .child rfl rfl Nat.zero_lt_one rfl (.root rfl rfl)
  obtain ⟨ls, hls⟩ : ∃ ls, resolve .eight [countedDef, cellsDef] = .ok ls := ⟨_, rfl⟩
  obtain ⟨-, hget⟩ := resolves_of_resolve hls
  obtain ⟨l, ds, hl, hid, -, hds, hresolves⟩ := hget 1 cellsDef rfl
  cases hds.unique (by decide) hlineage
  exact ⟨ls, l, hls, hl, hid, hresolves⟩

end Schema

end HeapLayout
