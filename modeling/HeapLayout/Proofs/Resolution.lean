import HeapLayout.Proofs.Validity
import HeapLayout.Resolution

/-!
# What resolution guarantees

Code is synthesised from resolved layouts, and relies on facts that were checked in different
phases: names are distinct and not reserved when the header is put in front, size fields stand
before what they govern when fields are bound, sizes and pads come from placing.
`Layout.WellFormed` collects what the generated code needs, and `wellFormed_of_resolve` derives it
for every layout of an accepted schema, one phase after the other.

A declaration keeps its position through all phases (`exists_stages_of_resolve`). Where a field is
bound depends on names alone (`fields_of_bind`).
-/

namespace HeapLayout

/-- What the generated code of a layout relies on. -/
structure Layout.WellFormed (w : PointerWidth) (l : Layout) : Prop where
  fields_ne_nil : l.fields ≠ []
  names_nodup : (l.fields.map (·.name)).Nodup
  not_reserved : ∀ f ∈ l.fields, f.name ∉ Name.reserved
  elemSize_eq : ∀ f ∈ l.fields, f.elemSize = f.type.size w
  pad_lt : ∀ f ∈ l.fields, ∀ pad, f.align = .static pad → pad < 8
  /-- An array comes after the field that holds its length, a single integer. -/
  sizeField : ∀ {k i : Nat} {f : Field}, l.fields[k]? = some f → f.sizeField = some i →
    i < k ∧ ∃ s : Field, l.fields[i]? = some s ∧ s.sizeField = none ∧
      Schema.isCountType s.type = true
  /-- A word and its type tag repeat alike. -/
  typeField : ∀ f ∈ l.fields, ∀ i, f.typeField = some i →
    ∃ t : Field, l.fields[i]? = some t ∧ t.sizeField = f.sizeField
  sizeFields_eq : l.sizeFields = Schema.firstUses (l.fields.filterMap (·.sizeField))

/-- A position is known by what stands there, if that does not occur twice. -/
theorem getElem?_eq_of_nodup {α β : Type} {xs : List α} {f : α → β} (hnodup : (xs.map f).Nodup)
    {i j : Nat} {x y : α} (hx : xs[i]? = some x) (hy : xs[j]? = some y) (h : f x = f y) :
    i = j := by
  obtain ⟨hi, -⟩ := List.getElem?_eq_some_iff.mp hx
  have hsame : (xs.map f)[i]? = (xs.map f)[j]? := by
    rw [List.getElem?_map, List.getElem?_map, hx, hy, Option.map_some, Option.map_some, h]
  exact (List.getElem?_inj (by simpa using hi) hnodup).mp hsame

/-- A field is known by its name. -/
theorem Layout.WellFormed.eq_of_name_eq {w : PointerWidth} {l : Layout} (h : l.WellFormed w)
    {i j : Nat} {s t : Field} (hs : l.fields[i]? = some s) (ht : l.fields[j]? = some t)
    (hname : s.name = t.name) : i = j :=
  getElem?_eq_of_nodup h.names_nodup hs ht hname

namespace Schema

/-! ## Inheritance -/

theorem inheritedFields_eq_ok {done : List FlatLayout} {d : LayoutDef} {fs : List FieldDef}
    (h : inheritedFields done d = .ok fs) :
    (d.parent = none ∧ fs = []) ∨
      ∃ n fl, d.parent = some n ∧ done.find? (fun f => f.name == n) = some fl ∧ fs = fl.fields := by
  unfold inheritedFields at h
  split at h
  · next hn =>
    cases h
    exact .inl ⟨hn, rfl⟩
  · next n hn =>
    split at h
    · next fl hfl =>
      cases h
      exact .inr ⟨n, fl, hn, hfl, rfl⟩
    · cases h

theorem flattenLayout_eq_ok {done : List FlatLayout} {d : LayoutDef} {fl : FlatLayout}
    (h : flattenLayout done d = .ok fl) :
    d.name ∉ done.map (·.name) ∧ fl.name = d.name ∧
      ∃ inherited, inheritedFields done d = .ok inherited ∧ fl.fields = inherited ++ d.fields := by
  unfold flattenLayout at h
  split at h
  · cases h
  next hnew =>
  obtain ⟨inherited, hinherited, h⟩ := bind_eq_ok.mp h
  cases pure_eq_ok.mp h
  exact ⟨hnew, rfl, inherited, hinherited, rfl⟩

/-- A property of all declared fields is one of all fields of the flattened layouts. -/
theorem forall_fields_of_flattenFrom {p : FieldDef → Prop} {done flat : List FlatLayout}
    {ls : List LayoutDef} (h : flattenFrom done ls = .ok flat)
    (hdone : ∀ l ∈ done, ∀ f ∈ l.fields, p f) (hls : ∀ l ∈ ls, ∀ f ∈ l.fields, p f) :
    ∀ l ∈ flat, ∀ f ∈ l.fields, p f := by
  induction ls generalizing done with
  | nil => cases h; exact hdone
  | cons l ls ih =>
    obtain ⟨fl, hfl, h⟩ := bind_eq_ok.mp h
    obtain ⟨hl, hls⟩ := List.forall_mem_cons.mp hls
    obtain ⟨-, -, inherited, hinh, hfields⟩ := flattenLayout_eq_ok hfl
    have hinherited : ∀ f ∈ inherited, p f := by
      rcases inheritedFields_eq_ok hinh with ⟨-, rfl⟩ | ⟨n, fl', -, hfind, rfl⟩
      · simp
      · exact hdone fl' (List.mem_of_find?_eq_some hfind)
    apply ih h _ hls
    intro l' hl' f hf
    rcases List.mem_append.mp hl' with hl' | hl'
    · exact hdone l' hl' f hf
    · cases List.mem_singleton.mp hl'
      rw [hfields] at hf
      rcases List.mem_append.mp hf with hf | hf
      · exact hinherited f hf
      · exact hl f hf

/-- Every declaration is flattened with the layouts before it. -/
theorem exists_of_flattenFrom {done flat : List FlatLayout} {ds : List LayoutDef}
    (h : flattenFrom done ds = .ok flat) :
    done <+: flat ∧ flat.length = done.length + ds.length ∧ ∀ k d, ds[k]? = some d →
      ∃ fl, flat[done.length + k]? = some fl ∧
        flattenLayout (flat.take (done.length + k)) d = .ok fl := by
  induction ds generalizing done with
  | nil =>
    cases h
    simp
  | cons d ds ih =>
    obtain ⟨fl, hfl, h⟩ := bind_eq_ok.mp h
    obtain ⟨hdone, hlength, hget⟩ := ih h
    rw [List.length_append, List.length_singleton] at hlength hget
    refine ⟨(List.prefix_append _ _).trans hdone, by rw [hlength, List.length_cons]; omega, ?_⟩
    intro k d' hk
    cases k with
    | zero =>
      cases hk
      obtain ⟨rest, rfl⟩ := hdone
      refine ⟨fl, by simp, ?_⟩
      rw [Nat.add_zero, List.append_assoc, List.take_left]
      exact hfl
    | succ k =>
      have hsucc := hget k d' hk
      rwa [Nat.add_assoc, Nat.add_comm 1 k] at hsucc

/-! ## Headers -/

theorem firstRepeated_eq_none_iff {earlier ns : List String} :
    firstRepeated earlier ns = none ↔ (∀ n ∈ ns, n ∉ earlier) ∧ ns.Nodup := by
  induction ns generalizing earlier with
  | nil => simp [firstRepeated]
  | cons n ns ih =>
    rw [firstRepeated]
    by_cases hn : n ∈ earlier
    · simp [hn]
    · rw [if_neg hn, ih, List.forall_mem_cons, List.nodup_cons]
      simp only [List.mem_append, List.mem_singleton, not_or]
      grind

theorem tagLayout_eq_ok {id : Nat} {l : FlatLayout} {t : TaggedLayout}
    (h : tagLayout id l = .ok t) :
    t.id = id ∧ t.name = l.name ∧ t.fields = headerFields id ++ l.fields ∧
      (t.fields.map (·.name)).Nodup := by
  simp only [tagLayout] at h
  split at h
  · cases h
  · next hn =>
    cases h
    exact ⟨rfl, rfl, rfl, (firstRepeated_eq_none_iff.mp hn).2⟩

theorem exists_of_assignIdsFrom {id : Nat} {ls : List FlatLayout} {ts : List TaggedLayout}
    (h : assignIdsFrom id ls = .ok ts) :
    ts.length = ls.length ∧ ∀ k l, ls[k]? = some l →
      ∃ t, ts[k]? = some t ∧ tagLayout (id + k) l = .ok t := by
  induction ls generalizing id ts with
  | nil => cases h; simp
  | cons l ls ih =>
    obtain ⟨t, ht, h⟩ := bind_eq_ok.mp h
    obtain ⟨ts', hts', h⟩ := bind_eq_ok.mp h
    cases pure_eq_ok.mp h
    obtain ⟨hlength, hget⟩ := ih hts'
    refine ⟨by simp [hlength], ?_⟩
    intro k l' hk
    cases k with
    | zero =>
      cases hk
      exact ⟨t, rfl, ht⟩
    | succ k =>
      have hsucc := hget k l' hk
      rwa [Nat.add_assoc, Nat.add_comm 1 k] at hsucc

theorem headerFields_not_reserved {id : Nat} {f : FieldDef} (hf : f ∈ headerFields id) :
    f.name ∉ Name.reserved := by
  simp only [headerFields, List.mem_cons, List.not_mem_nil, or_false] at hf
  rcases hf with rfl | rfl
  · show forwardField ∉ Name.reserved
    decide
  · show tagField ∉ Name.reserved
    decide

/-! ## Bindings -/

theorem getElem?_of_findField? {fields : List FieldDef} {name : String} {f : FieldDef} {i : FieldId}
    (h : findField? fields name = some (f, i)) : fields[i]? = some f ∧ f.name = name := by
  refine ⟨List.mk_mem_zipIdx_iff_getElem?.mp (List.mem_of_find?_eq_some h), ?_⟩
  simpa using List.find?_some h

/-- The position of a field of some name depends on the names alone. -/
theorem findIdx?_of_findField? {fields : List FieldDef} {name : String} {f : FieldDef} {i : FieldId}
    (h : findField? fields name = some (f, i)) :
    (fields.map (·.name)).findIdx? (· == name) = some i := by
  rw [List.findIdx?_map, List.findIdx?_eq_fst_find?_zipIdx]
  exact Option.map_eq_some_iff.mpr ⟨(f, i), h, rfl⟩

theorem bindSizeField_eq_ok_some {layout : String} {earlier : List FieldDef} {f : FieldDef}
    {i : FieldId} (h : bindSizeField layout earlier f = .ok (some i)) :
    ∃ n s, f.sizeField = some n ∧ findField? earlier n = some (s, i) ∧ s.sizeField = none ∧
      isCountType s.type = true := by
  unfold bindSizeField at h
  split at h
  · cases h
  · next n hn =>
    split at h
    · cases h
    · next s j hs =>
      split at h
      · next hc =>
        cases h
        simp only [Bool.and_eq_true, Option.isNone_iff_eq_none] at hc
        exact ⟨n, s, hn, hs, hc⟩
      · cases h

theorem bindSizeField_eq_ok_none {layout : String} {earlier : List FieldDef} {f : FieldDef} :
    bindSizeField layout earlier f = .ok none ↔ f.sizeField = none := by
  constructor
  · intro h
    unfold bindSizeField at h
    split at h
    · next hn => exact hn
    · split at h
      · cases h
      · split at h <;> cases h
  · intro h
    simp [bindSizeField, h]

theorem bindTypeField_eq_ok_some {layout : String} {fields : List FieldDef} {f : FieldDef}
    {i : FieldId} (h : bindTypeField layout fields f = .ok (some i)) :
    ∃ n t, f.typeField = some n ∧ findField? fields n = some (t, i) ∧ t.sizeField = f.sizeField := by
  unfold bindTypeField at h
  split at h
  · cases h
  · next n hn =>
    split at h
    · cases h
    · next t j ht =>
      split at h
      · next hc =>
        cases h
        exact ⟨n, t, hn, ht, hc⟩
      · cases h

theorem bindTypeField_eq_ok_none {layout : String} {fields : List FieldDef} {f : FieldDef}
    (h : bindTypeField layout fields f = .ok none) : f.typeField = none := by
  unfold bindTypeField at h
  split at h
  · next hn => exact hn
  · split at h
    · cases h
    · split at h <;> cases h

section Positions

variable {layout : String} {fs : List FieldDef} {f : FieldDef} {i? : Option FieldId}
  {names : List String}

/-! A binding is a position in any list of names that starts with the names in question. -/

theorem eq_of_bindSizeField (h : bindSizeField layout fs f = .ok i?)
    (hnames : fs.map (·.name) <+: names) :
    i? = f.sizeField.bind fun n => names.findIdx? (· == n) := by
  cases i? with
  | none => rw [bindSizeField_eq_ok_none.mp h, Option.bind_none]
  | some i =>
    obtain ⟨n, s, hn, hs, -⟩ := bindSizeField_eq_ok_some h
    rw [hn, Option.bind_some, hnames.findIdx?_eq_some (findIdx?_of_findField? hs)]

theorem eq_of_bindTypeField (h : bindTypeField layout fs f = .ok i?)
    (hnames : fs.map (·.name) <+: names) :
    i? = f.typeField.bind fun n => names.findIdx? (· == n) := by
  cases i? with
  | none => rw [bindTypeField_eq_ok_none h, Option.bind_none]
  | some i =>
    obtain ⟨n, t, hn, ht, -⟩ := bindTypeField_eq_ok_some h
    rw [hn, Option.bind_some, hnames.findIdx?_eq_some (findIdx?_of_findField? ht)]

end Positions

theorem eq_of_initConst? {layout : String} {f : FieldDef} {c : Option InitConst}
    (h : initConst? layout f = .ok c) : c = f.init.bind InitConst.ofValue? := by
  unfold initConst? at h
  split at h
  · next hnone =>
    cases h
    rw [hnone, Option.bind_none]
  · next v hv =>
    split at h
    · next c hc =>
      cases h
      rw [hv, Option.bind_some, hc]
    · cases h

/-- A declared field as it is bound in a list of fields with the given names. -/
def boundField (names : List String) (f : FieldDef) : BoundField where
  name := f.name
  type := f.type
  sizeField := f.sizeField.bind fun n => names.findIdx? (· == n)
  typeField := f.typeField.bind fun n => names.findIdx? (· == n)
  init := f.init.bind InitConst.ofValue?

/-- A bound field keeps its name and kind; its bindings come from the fields around it. -/
structure BindsTo (layout : String) (fields earlier : List FieldDef) (f : FieldDef)
    (b : BoundField) : Prop where
  name : b.name = f.name
  type : b.type = f.type
  sizeField : bindSizeField layout earlier f = .ok b.sizeField
  typeField : bindTypeField layout fields f = .ok b.typeField
  init : initConst? layout f = .ok b.init

theorem bindsTo_of_bindField {layout : String} {fields earlier : List FieldDef} {f : FieldDef}
    {b : BoundField} (h : bindField layout fields earlier f = .ok b) :
    BindsTo layout fields earlier f b := by
  obtain ⟨size, hsize, h⟩ := bind_eq_ok.mp h
  obtain ⟨type, htype, h⟩ := bind_eq_ok.mp h
  obtain ⟨init, hinit, h⟩ := bind_eq_ok.mp h
  cases pure_eq_ok.mp h
  exact ⟨rfl, rfl, hsize, htype, hinit⟩

theorem exists_getElem?_of_length_eq {α β : Type} {xs : List α} {ys : List β}
    (h : xs.length = ys.length) {k : Nat} {x : α} (hx : xs[k]? = some x) :
    ∃ y, ys[k]? = some y := by
  obtain ⟨hk, -⟩ := List.getElem?_eq_some_iff.mp hx
  exact ⟨ys.get ⟨k, h ▸ hk⟩, List.getElem?_eq_getElem _⟩

/-- The bound fields correspond to the declared ones, position by position. -/
theorem bindsTo_of_bindFrom {layout : String} {fields earlier fs : List FieldDef}
    {bs : List BoundField} (h : bindFrom layout fields earlier fs = .ok bs) :
    bs.length = fs.length ∧ ∀ k f b, fs[k]? = some f → bs[k]? = some b →
      BindsTo layout fields (earlier ++ fs.take k) f b := by
  induction fs generalizing earlier bs with
  | nil => cases h; simp
  | cons f fs ih =>
    obtain ⟨b, hb, h⟩ := bind_eq_ok.mp h
    obtain ⟨bs', hbs, h⟩ := bind_eq_ok.mp h
    cases pure_eq_ok.mp h
    obtain ⟨hlen, hget⟩ := ih hbs
    refine ⟨by simp [hlen], ?_⟩
    intro k f' b' hf hk
    cases k with
    | zero =>
      cases hf
      cases hk
      simpa using bindsTo_of_bindField hb
    | succ k => simpa using hget k f' b' hf hk

section Bind

variable {t : TaggedLayout} {b : BoundLayout}

theorem bindFrom_of_bind (h : bind t = .ok b) :
    bindFrom t.name t.fields [] t.fields = .ok b.fields := by
  obtain ⟨bs, hbs, h⟩ := bind_eq_ok.mp h
  cases pure_eq_ok.mp h
  exact hbs

theorem sizeFields_of_bind (h : bind t = .ok b) :
    b.sizeFields = firstUses (b.fields.filterMap (·.sizeField)) := by
  obtain ⟨bs, hbs, h⟩ := bind_eq_ok.mp h
  cases pure_eq_ok.mp h
  rfl

/-- Names decide where a field is bound, and names at the end change nothing. -/
theorem fields_of_bind (h : bind t = .ok b) {names : List String}
    (hnames : t.fields.map (·.name) <+: names) : b.fields = t.fields.map (boundField names) := by
  obtain ⟨hlength, hget⟩ := bindsTo_of_bindFrom (bindFrom_of_bind h)
  refine List.ext_getElem (by rw [hlength, List.length_map]) ?_
  intro k hk hk'
  rw [List.length_map] at hk'
  have hbinds := hget k _ _ (List.getElem?_eq_getElem hk') (List.getElem?_eq_getElem hk)
  have hbefore : (t.fields.take k).map (·.name) <+: names :=
    ((List.take_prefix k t.fields).map _).trans hnames
  rw [List.getElem_map, boundField, ← hbinds.name, ← hbinds.type,
    ← eq_of_bindSizeField hbinds.sizeField hbefore, ← eq_of_bindTypeField hbinds.typeField hnames,
    ← eq_of_initConst? hbinds.init]

theorem map_name_of_bind (h : bind t = .ok b) : b.fields.map (·.name) = t.fields.map (·.name) := by
  rw [fields_of_bind h List.prefix_rfl, List.map_map]
  rfl

/-- A size field stands before the field that it governs and is a single integer. -/
theorem sizeField_of_bind (h : bind t = .ok b) {k : Nat} {i : FieldId} {f : BoundField}
    (hk : b.fields[k]? = some f) (hi : f.sizeField = some i) :
    i < k ∧ ∃ s, b.fields[i]? = some s ∧ s.sizeField = none ∧ isCountType s.type = true := by
  obtain ⟨hlen, hget⟩ := bindsTo_of_bindFrom (bindFrom_of_bind h)
  obtain ⟨d, hd⟩ := exists_getElem?_of_length_eq hlen hk
  obtain ⟨_, s, -, hfind, hnone, hcount⟩ :=
    bindSizeField_eq_ok_some (hi ▸ (hget k d f hd hk).sizeField)
  have hs := (getElem?_of_findField? hfind).1
  rw [List.nil_append, List.getElem?_take] at hs
  split at hs
  · next hik =>
    obtain ⟨s', hs'⟩ := exists_getElem?_of_length_eq hlen.symm hs
    have hbinds := hget i s s' hs hs'
    have hsize : s'.sizeField = none := by
      have hbound := hbinds.sizeField
      rw [bindSizeField_eq_ok_none.mpr hnone] at hbound
      exact (Except.ok.inj hbound).symm
    exact ⟨hik, s', hs', hsize, hbinds.type ▸ hcount⟩
  · cases hs

/-- A word and its type tag have the same size field. -/
theorem typeField_of_bind (h : bind t = .ok b) {f : BoundField} (hf : f ∈ b.fields) {i : FieldId}
    (hi : f.typeField = some i) : ∃ s, b.fields[i]? = some s ∧ s.sizeField = f.sizeField := by
  obtain ⟨hlen, hget⟩ := bindsTo_of_bindFrom (bindFrom_of_bind h)
  obtain ⟨k, hk⟩ := List.mem_iff_getElem?.mp hf
  obtain ⟨d, hd⟩ := exists_getElem?_of_length_eq hlen hk
  have hbinds := hget k d f hd hk
  obtain ⟨_, s, -, hfind, hsame⟩ := bindTypeField_eq_ok_some (hi ▸ hbinds.typeField)
  have hs := (getElem?_of_findField? hfind).1
  obtain ⟨s', hs'⟩ := exists_getElem?_of_length_eq hlen.symm hs
  refine ⟨s', hs', ?_⟩
  have hnames (j : Nat) : (t.fields.take j).map (·.name) <+: t.fields.map (·.name) :=
    (List.take_prefix j t.fields).map _
  rw [eq_of_bindSizeField (hget i s s' hs hs').sizeField (hnames i),
    eq_of_bindSizeField hbinds.sizeField (hnames k), hsame]

end Bind

theorem exists_of_bindAll {ts : List TaggedLayout} {bs : List BoundLayout}
    (h : bindAll ts = .ok bs) :
    bs.length = ts.length ∧ ∀ (k : Nat) t, ts[k]? = some t →
      ∃ b, bs[k]? = some b ∧ bind t = .ok b := by
  induction ts generalizing bs with
  | nil => cases h; simp
  | cons t ts ih =>
    obtain ⟨b, hb, h⟩ := bind_eq_ok.mp h
    obtain ⟨bs', hbs', h⟩ := bind_eq_ok.mp h
    cases pure_eq_ok.mp h
    obtain ⟨hlength, hget⟩ := ih hbs'
    refine ⟨by simp [hlength], ?_⟩
    intro k t' hk
    cases k with
    | zero =>
      cases hk
      exact ⟨b, rfl, hb⟩
    | succ k => exact hget k t' hk

end Schema

/-! ## Placing -/

namespace Layout

variable {w : PointerWidth}

/-- Placing goes field by field; only the cursor depends on the fields before. -/
theorem exists_getElem?_planFrom (c : Cursor) (bs : List BoundField) (k : Nat) :
    ∃ c', (planFrom w c bs)[k]? = bs[k]?.map (planField w c') := by
  induction bs generalizing c k with
  | nil => exact ⟨c, by simp [planFrom]⟩
  | cons b bs ih =>
    cases k with
    | zero => exact ⟨c, rfl⟩
    | succ k => exact ih _ k

/-- Placing keeps whatever does not depend on the cursor. -/
theorem map_planFrom {α : Type} (g : Field → α) (g' : BoundField → α)
    (h : ∀ c b, g (planField w c b) = g' b) (c : Cursor) (bs : List BoundField) :
    (planFrom w c bs).map g = bs.map g' := by
  induction bs generalizing c with
  | nil => rfl
  | cons b bs ih => rw [planFrom, List.map_cons, List.map_cons, h, ih]

theorem filterMap_sizeField_planFrom (c : Cursor) (bs : List BoundField) :
    (planFrom w c bs).filterMap (·.sizeField) = bs.filterMap (·.sizeField) := by
  have h := congrArg (List.filterMap fun i : Option FieldId => i)
    (map_planFrom (w := w) (·.sizeField) (·.sizeField) (fun _ _ => rfl) c bs)
  rw [List.filterMap_map, List.filterMap_map] at h
  exact h

theorem padTo_lt {unit : Nat} (h : 0 < unit) (offset : Nat) : padTo unit offset < unit :=
  Nat.mod_lt _ h

theorem pad_lt_of_planField {c : Cursor} {b : BoundField} {pad : Nat}
    (h : (planField w c b).align = .static pad) : pad < 8 := by
  have hsize : b.type.size w ≤ 8 := by
    have := b.type.size_mem w
    simp only [List.mem_cons, List.not_mem_nil, or_false] at this
    omega
  have hpos := b.type.size_pos w
  simp only [planField, Cursor.place] at h
  split at h
  · cases h
  · cases h
    exact Nat.lt_of_lt_of_le (padTo_lt hpos c.offset) hsize

/-- The fields of a placed layout are the bound ones, each placed at some cursor. -/
theorem exists_planField {b : BoundLayout} {k : Nat} {f : Field}
    (hk : (plan w b).fields[k]? = some f) :
    ∃ c bf, b.fields[k]? = some bf ∧ f = planField w c bf := by
  obtain ⟨c, hc⟩ := exists_getElem?_planFrom (w := w) {} b.fields k
  rw [plan, hc, Option.map_eq_some_iff] at hk
  obtain ⟨bf, hbf, rfl⟩ := hk
  exact ⟨c, bf, hbf, rfl⟩

section Plan

variable {t : TaggedLayout} {b : BoundLayout}

theorem map_name_plan (h : Schema.bind t = .ok b) :
    (plan w b).fields.map (·.name) = t.fields.map (·.name) :=
  (map_planFrom _ _ (fun _ _ => rfl) _ _).trans (Schema.map_name_of_bind h)

theorem sizeFields_plan (h : Schema.bind t = .ok b) :
    (plan w b).sizeFields = Schema.firstUses ((plan w b).fields.filterMap (·.sizeField)) := by
  rw [plan, filterMap_sizeField_planFrom, Schema.sizeFields_of_bind h]

theorem sizeField_plan (h : Schema.bind t = .ok b) {k : Nat} {i : FieldId} {f : Field}
    (hk : (plan w b).fields[k]? = some f) (hi : f.sizeField = some i) :
    i < k ∧ ∃ s : Field, (plan w b).fields[i]? = some s ∧ s.sizeField = none ∧
      Schema.isCountType s.type = true := by
  obtain ⟨c, bf, hbf, rfl⟩ := exists_planField hk
  obtain ⟨hik, s, hs, hnone, hcount⟩ := Schema.sizeField_of_bind h hbf hi
  obtain ⟨c', hc'⟩ := exists_getElem?_planFrom (w := w) {} b.fields i
  exact ⟨hik, planField w c' s, by rw [plan, hc', hs, Option.map_some], hnone, hcount⟩

theorem typeField_plan (h : Schema.bind t = .ok b) {f : Field} (hf : f ∈ (plan w b).fields)
    {i : FieldId} (hi : f.typeField = some i) :
    ∃ s : Field, (plan w b).fields[i]? = some s ∧ s.sizeField = f.sizeField := by
  obtain ⟨k, hk⟩ := List.mem_iff_getElem?.mp hf
  obtain ⟨c, bf, hbf, rfl⟩ := exists_planField hk
  obtain ⟨s, hs, hsame⟩ := Schema.typeField_of_bind h (List.mem_of_getElem? hbf) hi
  obtain ⟨c', hc'⟩ := exists_getElem?_planFrom (w := w) {} b.fields i
  exact ⟨planField w c' s, by rw [plan, hc', hs, Option.map_some], hsame⟩

/-- A layout is well-formed if it comes from declared fields with distinct names, none of them
reserved. -/
theorem wellFormed_plan (h : Schema.bind t = .ok b) (hne : t.fields ≠ [])
    (hnodup : (t.fields.map (·.name)).Nodup) (hres : ∀ f ∈ t.fields, f.name ∉ Name.reserved) :
    (plan w b).WellFormed w := by
  have hnames := map_name_plan (w := w) h
  have hplanned : ∀ f ∈ (plan w b).fields, ∃ c bf, f = planField w c bf := by
    intro f hf
    obtain ⟨k, hk⟩ := List.mem_iff_getElem?.mp hf
    obtain ⟨c, bf, -, rfl⟩ := exists_planField hk
    exact ⟨c, bf, rfl⟩
  refine ⟨?fields_ne_nil, hnames ▸ hnodup, ?not_reserved, ?elemSize_eq, ?pad_lt, sizeField_plan h,
    fun f hf i hi => typeField_plan h hf hi, sizeFields_plan h⟩
  case fields_ne_nil =>
    intro hnil
    rw [hnil, List.map_nil] at hnames
    exact hne (List.map_eq_nil_iff.mp hnames.symm)
  case not_reserved =>
    intro f hf
    have hmem : f.name ∈ t.fields.map (·.name) := hnames ▸ List.mem_map_of_mem hf
    obtain ⟨f', hf', hname⟩ := List.mem_map.mp hmem
    exact hname ▸ hres f' hf'
  case elemSize_eq =>
    intro f hf
    obtain ⟨c, bf, rfl⟩ := hplanned f hf
    rfl
  case pad_lt =>
    intro f hf pad hpad
    obtain ⟨c, bf, rfl⟩ := hplanned f hf
    exact pad_lt_of_planField hpad

end Plan

end Layout

/-! ## Resolution -/

namespace Schema

variable {w : PointerWidth} {defs : List LayoutDef} {ls : List Layout}

/-- The phases that the declaration at position `k` goes through, until its layout is placed; `flat`
are all flattened layouts. -/
structure Stages (flat : List FlatLayout) (k : Nat) (d : LayoutDef) (fl : FlatLayout)
    (t : TaggedLayout) (b : BoundLayout) : Prop where
  getElem_flat : flat[k]? = some fl
  flatten : flattenLayout (flat.take k) d = .ok fl
  tag : tagLayout k fl = .ok t
  bind : bind t = .ok b

section Stages

variable {flat : List FlatLayout} {k : Nat} {d : LayoutDef} {fl : FlatLayout} {t : TaggedLayout}
  {b : BoundLayout}

/-- The tag of a layout is its position. -/
theorem Stages.id_eq (h : Stages flat k d fl t b) : b.id = k := by
  obtain ⟨bs, -, hb⟩ := bind_eq_ok.mp h.bind
  cases pure_eq_ok.mp hb
  exact (tagLayout_eq_ok h.tag).1

theorem Stages.name_eq (h : Stages flat k d fl t b) : b.name = d.name := by
  obtain ⟨bs, -, hb⟩ := bind_eq_ok.mp h.bind
  cases pure_eq_ok.mp hb
  exact (tagLayout_eq_ok h.tag).2.1.trans (flattenLayout_eq_ok h.flatten).2.1

end Stages

/-- Declarations are resolved one by one, each into the layout at its own position. -/
theorem exists_stages_of_resolve (h : resolve w defs = .ok ls) :
    check defs = .ok () ∧ ls.length = defs.length ∧ ∃ flat, flatten defs = .ok flat ∧
      ∀ k d, defs[k]? = some d →
        ∃ fl t b, Stages flat k d fl t b ∧ ls[k]? = some (Layout.plan w b) := by
  obtain ⟨bs, hbs, h⟩ := bind_eq_ok.mp h
  cases pure_eq_ok.mp h
  obtain ⟨_, hcheck, hbs⟩ := bind_eq_ok.mp hbs
  obtain ⟨flat, hflat, hbs⟩ := bind_eq_ok.mp hbs
  obtain ⟨ts, hts, hbs⟩ := bind_eq_ok.mp hbs
  obtain ⟨-, hflatLength, hflatten⟩ := exists_of_flattenFrom hflat
  obtain ⟨htagLength, htag⟩ := exists_of_assignIdsFrom hts
  obtain ⟨hbindLength, hbind⟩ := exists_of_bindAll hbs
  simp only [List.length_nil, Nat.zero_add] at hflatLength hflatten htag
  refine ⟨hcheck, by rw [List.length_map, hbindLength, htagLength, hflatLength], flat, hflat, ?_⟩
  intro k d hd
  obtain ⟨fl, hfl, hflattened⟩ := hflatten k d hd
  obtain ⟨t, ht, htagged⟩ := htag k fl hfl
  obtain ⟨b, hb, hbound⟩ := hbind k t ht
  refine ⟨fl, t, b, ⟨hfl, hflattened, htagged, hbound⟩, ?_⟩
  rw [List.getElem?_map, hb, Option.map_some]

/-- Every resolved layout is a placed one, bound from a header and further fields, all of them with
distinct names, none of them reserved. -/
theorem exists_plan_of_resolve (h : resolve w defs = .ok ls) {l : Layout} (hl : l ∈ ls) :
    ∃ t b, bind t = .ok b ∧ l = Layout.plan w b ∧ (∃ own, t.fields = headerFields t.id ++ own) ∧
      (t.fields.map (·.name)).Nodup ∧ ∀ f ∈ t.fields, f.name ∉ Name.reserved := by
  obtain ⟨hcheck, hlength, flat, hflat, hstages⟩ := exists_stages_of_resolve h
  obtain ⟨k, hk⟩ := List.mem_iff_getElem?.mp hl
  obtain ⟨d, hd⟩ := exists_getElem?_of_length_eq hlength hk
  obtain ⟨fl, t, b, hst, hplan⟩ := hstages k d hd
  obtain ⟨hid, -, hfields, hnodup⟩ := tagLayout_eq_ok hst.tag
  refine ⟨t, b, hst.bind, Option.some.inj (hk.symm.trans hplan), ⟨fl.fields, hid ▸ hfields⟩,
    hnodup, ?_⟩
  intro f hf
  have hvalid := (check_eq_ok_iff.mp hcheck).1
  have hall := forall_fields_of_flattenFrom hflat (p := fun f => f.name ∉ Name.reserved) (by simp)
    fun d hd f hf => ((hvalid d hd).fields f hf).not_reserved
  rw [hfields] at hf
  rcases List.mem_append.mp hf with hf | hf
  · exact headerFields_not_reserved hf
  · exact hall fl (List.mem_of_getElem? hst.getElem_flat) f hf

theorem wellFormed_of_resolve (h : resolve w defs = .ok ls) {l : Layout} (hl : l ∈ ls) :
    l.WellFormed w := by
  obtain ⟨t, b, hb, rfl, ⟨own, hfields⟩, hnodup, hres⟩ := exists_plan_of_resolve h hl
  exact Layout.wellFormed_plan hb (by simp [hfields, headerFields]) hnodup hres

end Schema

end HeapLayout
