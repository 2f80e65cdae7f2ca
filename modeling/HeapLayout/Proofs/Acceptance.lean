import HeapLayout.Proofs.Lineage

/-!
# Accepted schemas

Whether a schema is accepted can be said without the phases that decide it, and without an order
between them: `Acceptable` puts conditions on each declaration, on the names of all layouts, and on
the full list of fields along each lineage. `accepts_iff` shows that resolution succeeds on exactly
these schemas, whatever the pointer width is.

The phases check some things twice. Once the declarations have been validated, only faults remain
that lie between layouts or between fields; a repeated layout name or an unknown initial value is
not reported any more.
-/

namespace HeapLayout

/-- Faults of inheritance and of bindings, which cannot be seen in one field alone. -/
def SchemaError.isRelational : SchemaError → Bool
  | unknownParent .. | shadowedField .. | unresolvedSizeField .. | invalidSizeField ..
  | unresolvedTypeField .. | invalidTypeField .. => true
  | _ => false

namespace Schema

/-- Integers of at most four bytes. -/
def countTypes : List Prim :=
  [.uint8, .uint16, .uint32, .int8, .int16, .int32]

/-- Names are distinct, and what is named as a size field or type field can serve as one. -/
structure Bindable (fields : List FieldDef) : Prop where
  names_nodup : (fields.map (·.name)).Nodup
  sizeField : ∀ k f, fields[k]? = some f → ∀ n, f.sizeField = some n →
    ∃ s ∈ fields.take k, s.name = n ∧ s.sizeField = none ∧ s.type ∈ countTypes
  typeField : ∀ f ∈ fields, ∀ n, f.typeField = some n →
    ∃ t ∈ fields, t.name = n ∧ t.sizeField = f.sizeField

structure Acceptable (defs : List LayoutDef) : Prop where
  valid : ∀ d ∈ defs, d.Valid
  names_nodup : (defs.map fun d => Uppercase.ofString d.name).Nodup
  parentsFirst : ParentsFirst defs
  bindable : ∀ k ds, Lineage defs k ds → Bindable (headerFields k ++ ds.flatMap (·.fields))

theorem isCountType_iff {p : Prim} : isCountType p = true ↔ p ∈ countTypes := by
  cases p <;> decide

/-! ## A list of results -/

section Lists

variable {ε α : Type} {x : Except ε α} {xs : Except ε (List α)}

theorem exists_cons_eq_ok_iff :
    (∃ ys, (x >>= fun y => xs >>= fun ys => pure (y :: ys)) = .ok ys) ↔
      (∃ y, x = .ok y) ∧ ∃ ys, xs = .ok ys := by
  constructor
  · rintro ⟨_, h⟩
    obtain ⟨y, hy, h⟩ := bind_eq_ok.mp h
    obtain ⟨ys, hys, -⟩ := bind_eq_ok.mp h
    exact ⟨⟨y, hy⟩, ys, hys⟩
  · rintro ⟨⟨y, hy⟩, ys, hys⟩
    exact ⟨y :: ys, bind_eq_ok.mpr ⟨y, hy, bind_eq_ok.mpr ⟨ys, hys, rfl⟩⟩⟩

theorem bind_eq_error {β : Type} {f : α → Except ε β} {e : ε} :
    x >>= f = .error e ↔ x = .error e ∨ ∃ a, x = .ok a ∧ f a = .error e := by
  cases x <;> simp [Bind.bind, Except.bind]

theorem error_of_cons_eq_error {e : ε}
    (h : (x >>= fun y => xs >>= fun ys => pure (y :: ys)) = .error e) :
    x = .error e ∨ xs = .error e := by
  rcases bind_eq_error.mp h with hx | ⟨y, -, h⟩
  · exact .inl hx
  · rcases bind_eq_error.mp h with hxs | ⟨ys, -, h⟩
    · exact .inr hxs
    · cases h

end Lists

/-! ## Lists of fields -/

section Fields

variable {layout : String} {fields earlier fs : List FieldDef} {f s : FieldDef}

theorem exists_findField?_of_mem (hnodup : (fields.map (·.name)).Nodup) (hs : s ∈ fields) :
    ∃ i, findField? fields s.name = some (s, i) := by
  cases hfind : findField? fields s.name with
  | none =>
    obtain ⟨i, hi⟩ := List.mem_iff_getElem?.mp hs
    have hnone := List.find?_eq_none.mp hfind (s, i) (List.mk_mem_zipIdx_iff_getElem?.mpr hi)
    simp at hnone
  | some found =>
    obtain ⟨t, i⟩ := found
    obtain ⟨ht, hname⟩ := getElem?_of_findField? hfind
    have hts := List.inj_on_of_nodup_map hnodup (List.mem_of_getElem? ht) hs hname
    exact ⟨i, by rw [hts]⟩

theorem exists_bindSizeField_iff (hnodup : (earlier.map (·.name)).Nodup) :
    (∃ i?, bindSizeField layout earlier f = .ok i?) ↔ ∀ n, f.sizeField = some n →
      ∃ s ∈ earlier, s.name = n ∧ s.sizeField = none ∧ s.type ∈ countTypes := by
  constructor
  · rintro ⟨i?, h⟩ n hn
    cases i? with
    | none => cases (bindSizeField_eq_ok_none.mp h).symm.trans hn
    | some i =>
      obtain ⟨n', s, hn', hfind, hsingle, hcount⟩ := bindSizeField_eq_ok_some h
      cases hn.symm.trans hn'
      obtain ⟨hs, hname⟩ := getElem?_of_findField? hfind
      exact ⟨s, List.mem_of_getElem? hs, hname, hsingle, isCountType_iff.mp hcount⟩
  · intro h
    cases hn : f.sizeField with
    | none => exact ⟨none, bindSizeField_eq_ok_none.mpr hn⟩
    | some n =>
      obtain ⟨s, hs, rfl, hsingle, hcount⟩ := h n hn
      obtain ⟨i, hi⟩ := exists_findField?_of_mem hnodup hs
      exact ⟨some i, by simp [bindSizeField, hn, hi, hsingle, isCountType_iff.mpr hcount]⟩

theorem exists_bindTypeField_iff (hnodup : (fields.map (·.name)).Nodup) :
    (∃ i?, bindTypeField layout fields f = .ok i?) ↔ ∀ n, f.typeField = some n →
      ∃ t ∈ fields, t.name = n ∧ t.sizeField = f.sizeField := by
  constructor
  · rintro ⟨i?, h⟩ n hn
    cases i? with
    | none => cases (bindTypeField_eq_ok_none h).symm.trans hn
    | some i =>
      obtain ⟨n', t, hn', hfind, hsame⟩ := bindTypeField_eq_ok_some h
      cases hn.symm.trans hn'
      obtain ⟨ht, hname⟩ := getElem?_of_findField? hfind
      exact ⟨t, List.mem_of_getElem? ht, hname, hsame⟩
  · intro h
    cases hn : f.typeField with
    | none => exact ⟨none, by simp [bindTypeField, hn]⟩
    | some n =>
      obtain ⟨t, ht, rfl, hsame⟩ := h n hn
      obtain ⟨i, hi⟩ := exists_findField?_of_mem hnodup ht
      exact ⟨some i, by simp [bindTypeField, hn, hi, hsame]⟩

theorem exists_bindField_iff :
    (∃ b, bindField layout fields earlier f = .ok b) ↔
      (∃ i?, bindSizeField layout earlier f = .ok i?) ∧
        (∃ i?, bindTypeField layout fields f = .ok i?) ∧ ∃ c, initConst? layout f = .ok c := by
  constructor
  · rintro ⟨b, h⟩
    have hb := bindsTo_of_bindField h
    exact ⟨⟨_, hb.sizeField⟩, ⟨_, hb.typeField⟩, ⟨_, hb.init⟩⟩
  · rintro ⟨⟨i?, hsize⟩, ⟨j?, htype⟩, ⟨c, hinit⟩⟩
    exact ⟨_, bind_eq_ok.mpr ⟨i?, hsize, bind_eq_ok.mpr ⟨j?, htype,
      bind_eq_ok.mpr ⟨c, hinit, rfl⟩⟩⟩⟩

theorem exists_bindFrom_iff :
    (∃ bs, bindFrom layout fields earlier fs = .ok bs) ↔
      ∀ k f, fs[k]? = some f → ∃ b, bindField layout fields (earlier ++ fs.take k) f = .ok b := by
  induction fs generalizing earlier with
  | nil => simp [bindFrom]
  | cons f fs ih =>
    rw [forall_getElem?_cons, List.take_zero, List.append_nil, bindFrom, exists_cons_eq_ok_iff, ih]
    simp only [List.append_assoc, List.cons_append, List.nil_append, List.take_succ_cons]

/-- Binding asks for distinct names, proper size and type fields, and known initial values. -/
theorem exists_bind_iff {t : TaggedLayout} (hnodup : (t.fields.map (·.name)).Nodup)
    (hinit : ∀ f ∈ t.fields, ∀ v, f.init = some v → v.HasMeaning) :
    (∃ b, bind t = .ok b) ↔ Bindable t.fields := by
  have hfrom : (∃ b, bind t = .ok b) ↔ ∃ bs, bindFrom t.name t.fields [] t.fields = .ok bs := by
    constructor
    · rintro ⟨b, hb⟩
      exact ⟨b.fields, bindFrom_of_bind hb⟩
    · rintro ⟨bs, hbs⟩
      exact ⟨_, bind_eq_ok.mpr ⟨bs, hbs, rfl⟩⟩
  have hbefore (k : Nat) : ((t.fields.take k).map (·.name)).Nodup :=
    hnodup.sublist ((List.take_sublist k t.fields).map _)
  rw [hfrom, exists_bindFrom_iff]
  simp only [List.nil_append, exists_bindField_iff, exists_bindSizeField_iff (hbefore _),
    exists_bindTypeField_iff hnodup, exists_initConst?_iff]
  constructor
  · intro h
    refine ⟨hnodup, fun k f hk => (h k f hk).1, ?_⟩
    intro f hf
    obtain ⟨k, hk⟩ := List.mem_iff_getElem?.mp hf
    exact (h k f hk).2.1
  · intro h k f hk
    have hf := List.mem_of_getElem? hk
    exact ⟨h.sizeField k f hk, h.typeField f hf, hinit f hf⟩

end Fields

/-! ## Lists of layouts -/

theorem exists_tagLayout_iff {id : Nat} {l : FlatLayout} :
    (∃ t, tagLayout id l = .ok t) ↔ ((headerFields id ++ l.fields).map (·.name)).Nodup := by
  constructor
  · rintro ⟨t, ht⟩
    obtain ⟨-, -, hfields, hnodup⟩ := tagLayout_eq_ok ht
    rwa [hfields] at hnodup
  · intro hnodup
    have hnone := firstRepeated_eq_none_iff.mpr ⟨fun _ _ => List.not_mem_nil, hnodup⟩
    exact ⟨_, by simp only [tagLayout, hnone]; rfl⟩

theorem exists_assignIdsFrom_iff {id : Nat} {ls : List FlatLayout} :
    (∃ ts, assignIdsFrom id ls = .ok ts) ↔
      ∀ k l, ls[k]? = some l → ∃ t, tagLayout (id + k) l = .ok t := by
  induction ls generalizing id with
  | nil => simp [assignIdsFrom]
  | cons l ls ih =>
    rw [forall_getElem?_cons, assignIdsFrom, exists_cons_eq_ok_iff, ih]
    simp only [Nat.add_zero, Nat.add_assoc, Nat.add_comm 1]

theorem exists_bindAll_iff {ts : List TaggedLayout} :
    (∃ bs, bindAll ts = .ok bs) ↔ ∀ t ∈ ts, ∃ b, bind t = .ok b := by
  induction ts with
  | nil => simp [bindAll]
  | cons t ts ih => rw [bindAll, exists_cons_eq_ok_iff, ih, List.forall_mem_cons]

/-! ## Resolution -/

section Resolve

variable {w : PointerWidth} {defs : List LayoutDef} {flat : List FlatLayout}

theorem exists_resolve_iff : (∃ ls, resolve w defs = .ok ls) ↔ ∃ bs, bound defs = .ok bs := by
  constructor
  · rintro ⟨ls, h⟩
    obtain ⟨bs, hbs, -⟩ := bind_eq_ok.mp h
    exact ⟨bs, hbs⟩
  · rintro ⟨bs, hbs⟩
    exact ⟨_, bind_eq_ok.mpr ⟨bs, hbs, rfl⟩⟩

theorem nodup_names_of_nodup_uppercase
    (h : (defs.map fun d => Uppercase.ofString d.name).Nodup) : (defs.map (·.name)).Nodup := by
  have hupper : ((defs.map (·.name)).map Uppercase.ofString).Nodup := by
    rw [List.map_map]
    exact h
  exact hupper.of_map

/-- Headers have known initial values, and so have all declared fields. -/
theorem hasMeaning_of_mem_lineage (hvalid : ∀ d ∈ defs, d.Valid) {k : Nat} {ds : List LayoutDef}
    (h : Lineage defs k ds) {f : FieldDef} (hf : f ∈ headerFields k ++ ds.flatMap (·.fields)) :
    ∀ v, f.init = some v → v.HasMeaning := by
  rcases List.mem_append.mp hf with hf | hf
  · simp only [headerFields, List.mem_cons, List.not_mem_nil, or_false] at hf
    rcases hf with rfl | rfl <;> simp [InitValue.HasMeaning]
  · obtain ⟨d, hd, hf⟩ := List.mem_flatMap.mp hf
    exact ((hvalid d (h.mem d hd)).fields f hf).init

/-- With its header, a layout has the fields along its lineage. -/
theorem exists_lineage_of_assignIds {ts : List TaggedLayout} (hflat : flatten defs = .ok flat)
    (hts : assignIds flat = .ok ts) {t : TaggedLayout} (ht : t ∈ ts) :
    ∃ k ds, Lineage defs k ds ∧ t.fields = headerFields k ++ ds.flatMap (·.fields) ∧
      (t.fields.map (·.name)).Nodup := by
  obtain ⟨-, hlength, -⟩ := exists_of_flattenFrom hflat
  obtain ⟨htagLength, htag⟩ := exists_of_assignIdsFrom hts
  obtain ⟨k, hk⟩ := List.mem_iff_getElem?.mp ht
  obtain ⟨fl, hfl⟩ := exists_getElem?_of_length_eq htagLength hk
  obtain ⟨d, hd⟩ := exists_getElem?_of_length_eq (by simpa using hlength) hfl
  obtain ⟨ds, hds, hfl'⟩ := exists_lineage_of_flatten hflat hd
  cases hfl.symm.trans hfl'
  obtain ⟨t', ht', htagged⟩ := htag k _ hfl
  cases hk.symm.trans ht'
  obtain ⟨-, -, hfields, hnodup⟩ := tagLayout_eq_ok htagged
  rw [Nat.zero_add] at hfields
  exact ⟨k, ds, hds, hfields, hnodup⟩

theorem acceptable_of_resolve {ls : List Layout} (h : resolve w defs = .ok ls) :
    Acceptable defs := by
  obtain ⟨hcheck, -, flat, hflat, hstages⟩ := exists_stages_of_resolve h
  obtain ⟨hvalid, hnames⟩ := check_eq_ok_iff.mp hcheck
  obtain ⟨hnodup, hparents⟩ := exists_flatten_iff.mp ⟨flat, hflat⟩
  refine ⟨hvalid, hnames, hparents, ?_⟩
  intro k ds hds
  obtain ⟨d, hd⟩ := hds.exists_getElem?
  obtain ⟨fl, t, b, hst, -⟩ := hstages k d hd
  obtain ⟨ds', hds', hfl⟩ := exists_lineage_of_flatten hflat hd
  cases hds.unique hnodup hds'
  cases hst.getElem_flat.symm.trans hfl
  obtain ⟨-, -, hfields, hnames⟩ := tagLayout_eq_ok hst.tag
  have hbind := exists_bind_iff hnames fun f hf =>
    hasMeaning_of_mem_lineage hvalid hds (hfields ▸ hf)
  exact hfields ▸ hbind.mp ⟨b, hst.bind⟩

theorem exists_resolve_of_acceptable (h : Acceptable defs) : ∃ ls, resolve w defs = .ok ls := by
  have hcheck : check defs = .ok () := check_eq_ok_iff.mpr ⟨h.valid, h.names_nodup⟩
  have hnodup := nodup_names_of_nodup_uppercase h.names_nodup
  obtain ⟨flat, hflat⟩ := exists_flatten_iff.mpr ⟨hnodup, h.parentsFirst⟩
  obtain ⟨-, hlength, -⟩ := exists_of_flattenFrom hflat
  have htags : ∃ ts, assignIds flat = .ok ts := by
    refine exists_assignIdsFrom_iff.mpr ?_
    intro k fl hk
    obtain ⟨d, hd⟩ := exists_getElem?_of_length_eq (by simpa using hlength) hk
    obtain ⟨ds, hds, hfl⟩ := exists_lineage_of_flatten hflat hd
    cases hk.symm.trans hfl
    rw [exists_tagLayout_iff, Nat.zero_add]
    exact (h.bindable k ds hds).names_nodup
  obtain ⟨ts, hts⟩ := htags
  have hbinds : ∃ bs, bindAll ts = .ok bs := by
    refine exists_bindAll_iff.mpr ?_
    intro t ht
    obtain ⟨k, ds, hds, hfields, hnames⟩ := exists_lineage_of_assignIds hflat hts ht
    have hbind := exists_bind_iff hnames fun f hf =>
      hasMeaning_of_mem_lineage h.valid hds (hfields ▸ hf)
    exact hbind.mpr (hfields ▸ h.bindable k ds hds)
  obtain ⟨bs, hbs⟩ := hbinds
  exact exists_resolve_iff.mpr ⟨bs, bind_eq_ok.mpr ⟨(), hcheck, bind_eq_ok.mpr ⟨flat, hflat,
    bind_eq_ok.mpr ⟨ts, hts, hbs⟩⟩⟩⟩

/-! ## What is left to report -/

section Errors

variable {layout : String} {fields earlier fs : List FieldDef} {f : FieldDef} {e : SchemaError}

theorem isRelational_of_bindSizeField (h : bindSizeField layout earlier f = .error e) :
    e.isRelational = true := by
  unfold bindSizeField at h
  split at h
  · cases h
  · split at h
    · cases h; rfl
    · split at h <;> cases h
      rfl

theorem isRelational_of_bindTypeField (h : bindTypeField layout fields f = .error e) :
    e.isRelational = true := by
  unfold bindTypeField at h
  split at h
  · cases h
  · split at h
    · cases h; rfl
    · split at h <;> cases h
      rfl

theorem isRelational_of_bindFrom (hinit : ∀ f ∈ fs, ∀ v, f.init = some v → v.HasMeaning)
    (h : bindFrom layout fields earlier fs = .error e) : e.isRelational = true := by
  induction fs generalizing earlier with
  | nil => cases h
  | cons f fs ih =>
    obtain ⟨hf, hfs⟩ := List.forall_mem_cons.mp hinit
    rcases error_of_cons_eq_error h with h | h
    · rcases bind_eq_error.mp h with hsize | ⟨_, -, h⟩
      · exact isRelational_of_bindSizeField hsize
      rcases bind_eq_error.mp h with htype | ⟨_, -, h⟩
      · exact isRelational_of_bindTypeField htype
      -- The initial value has been checked before.
      obtain ⟨c, hc⟩ := exists_initConst?_iff.mpr hf
      rw [hc] at h
      cases h
    · exact ih hfs h

theorem isRelational_of_bindAll {ts : List TaggedLayout}
    (hinit : ∀ t ∈ ts, ∀ f ∈ t.fields, ∀ v, f.init = some v → v.HasMeaning)
    (h : bindAll ts = .error e) : e.isRelational = true := by
  induction ts with
  | nil => cases h
  | cons t ts ih =>
    obtain ⟨ht, hts⟩ := List.forall_mem_cons.mp hinit
    rcases error_of_cons_eq_error h with h | h
    · rcases bind_eq_error.mp h with h | ⟨bs, -, h⟩
      · exact isRelational_of_bindFrom ht h
      · cases h
    · exact ih hts h

theorem isRelational_of_assignIdsFrom {id : Nat} {ls : List FlatLayout}
    (h : assignIdsFrom id ls = .error e) : e.isRelational = true := by
  induction ls generalizing id with
  | nil => cases h
  | cons l ls ih =>
    rcases error_of_cons_eq_error h with h | h
    · simp only [tagLayout] at h
      split at h <;> cases h
      rfl
    · exact ih h

/-- No layout is a duplicate, so only its parent can be at fault. -/
theorem isRelational_of_flattenFrom {done : List FlatLayout}
    (hnodup : (done.map (·.name) ++ defs.map (·.name)).Nodup)
    (h : flattenFrom done defs = .error e) : e.isRelational = true := by
  induction defs generalizing done with
  | nil => cases h
  | cons d defs ih =>
    rcases bind_eq_error.mp h with h | ⟨fl, hfl, h⟩
    · have hnew : d.name ∉ done.map (·.name) := by
        intro hmem
        exact (List.nodup_append.mp hnodup).2.2 _ hmem _ List.mem_cons_self rfl
      rw [flattenLayout, if_neg hnew] at h
      rcases bind_eq_error.mp h with h | ⟨fs, -, h⟩
      · unfold inheritedFields at h
        split at h
        · cases h
        · split at h <;> cases h
          rfl
      · cases h
    · refine ih ?_ h
      rw [List.map_append, List.map_singleton, (flattenLayout_eq_ok hfl).2.1, List.append_assoc]
      exact hnodup

end Errors

theorem isRelational_of_resolve {e : SchemaError} (hcheck : check defs = .ok ())
    (h : resolve w defs = .error e) : e.isRelational = true := by
  obtain ⟨hvalid, hnames⟩ := check_eq_ok_iff.mp hcheck
  rcases bind_eq_error.mp h with h | ⟨_, -, h⟩
  · rcases bind_eq_error.mp h with h | ⟨_, -, h⟩
    · cases hcheck.symm.trans h
    rcases bind_eq_error.mp h with h | ⟨flat, hflat, h⟩
    · exact isRelational_of_flattenFrom (by simpa using nodup_names_of_nodup_uppercase hnames) h
    rcases bind_eq_error.mp h with h | ⟨ts, hts, h⟩
    · exact isRelational_of_assignIdsFrom h
    · refine isRelational_of_bindAll ?_ h
      intro t ht f hf
      obtain ⟨k, ds, hds, hfields, -⟩ := exists_lineage_of_assignIds hflat hts ht
      exact hasMeaning_of_mem_lineage hvalid hds (hfields ▸ hf)
  · cases h

/-- A schema is accepted, for any pointer width, if and only if it is acceptable; once its
declarations have been validated, only relational faults are reported. -/
theorem accepts_iff (defs : List LayoutDef) :
    (∀ w, (∃ ls, resolve w defs = .ok ls) ↔ Acceptable defs) ∧
      (check defs = .ok () → ∀ w e, resolve w defs = .error e → e.isRelational = true) :=
  ⟨fun _ => ⟨fun ⟨_, h⟩ => acceptable_of_resolve h, exists_resolve_of_acceptable⟩,
    fun hcheck _ _ h => isRelational_of_resolve hcheck h⟩

end Resolve

/-- A count that further layouts can use. -/
def countedDef : LayoutDef where
  name := "counted"
  category := "plain"
  fields := [{ name := "n", type := .uint32 }]

/-- Words with their type tags behind them, as many as the inherited count says. -/
def cellsDef : LayoutDef where
  name := "cells"
  parent := some "counted"
  category := "object"
  fields := [{ name := "words", type := .uint64, sizeField := some "n", typeField := some "types" },
    { name := "types", type := .uint8, sizeField := some "n" }]

/-- The cells are accepted behind the layout that they extend, and not without it. -/
theorem accepts_cells :
    Acceptable [countedDef, cellsDef] ∧ ¬ Acceptable [cellsDef] ∧ check [cellsDef] = .ok () ∧
      resolve .eight [cellsDef] = .error (.unknownParent "cells" "counted") ∧
      (SchemaError.unknownParent "cells" "counted").isRelational = true := by
  have hcheck : check [cellsDef] = .ok () := by decide
  have hresolve : resolve .eight [cellsDef] = .error (.unknownParent "cells" "counted") := by decide
  refine ⟨?_, ?_, hcheck, hresolve, (accepts_iff [cellsDef]).2 hcheck .eight _ hresolve⟩
  · exact ((accepts_iff _).1 .eight).mp ⟨_, rfl⟩
  · intro h
    obtain ⟨ls, hls⟩ := ((accepts_iff _).1 .eight).mpr h
    cases hls.symm.trans hresolve

end Schema

end HeapLayout
