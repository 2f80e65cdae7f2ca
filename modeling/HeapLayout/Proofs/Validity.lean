import HeapLayout.Schema.Validity
import Mathlib.Data.List.Nodup

/-!
# What validation accepts

The checks walk over the declarations in order and stop at the first fault. What they accept does
not depend on that order: each declaration is valid on its own, and no two layouts have names that
differ in case only (`check_eq_ok_iff`).
-/

namespace HeapLayout

/-- An integer, one of the three names, or a numeral for a signed 64-bit integer. -/
def InitValue.HasMeaning : InitValue → Prop
  | .int _ => True
  | .named s => s = "null" ∨ s = "undef_word" ∨ s = "undef_type" ∨
      ∃ v, Numeral.readInt? 10 s.toList = some v ∧ FitsInt64 v

structure FieldDef.Valid (f : FieldDef) : Prop where
  identifier : isIdentifier f.name = true
  not_reserved : f.name ∉ Name.reserved
  init : ∀ v, f.init = some v → v.HasMeaning

/-- What can be said of a declaration without looking at any other. -/
structure LayoutDef.Valid (d : LayoutDef) : Prop where
  identifier : isIdentifier d.name = true
  category : isIdentifier d.category = true
  not_reserved : d.name ∉ Name.reservedLayouts
  names_nodup : (d.fields.map (·.name)).Nodup
  fields : ∀ f ∈ d.fields, f.Valid

theorem InitConst.exists_ofValue?_iff {v : InitValue} :
    (∃ c, ofValue? v = some c) ↔ v.HasMeaning := by
  cases v with
  | int v => simp [ofValue?, InitValue.HasMeaning]
  | named s =>
    simp only [ofValue?, ofText?, ofNumeral?, InitValue.HasMeaning]
    by_cases hnull : s = "null"
    · simp [hnull]
    by_cases hword : s = "undef_word"
    · simp [hword]
    by_cases htype : s = "undef_type"
    · simp [htype]
    cases hread : Numeral.readInt? 10 s.toList with
    | none => simp [hnull, hword, htype]
    | some v => by_cases hv : FitsInt64 v <;> simp [hnull, hword, htype, hv]

namespace Schema

/-! ## Phases in sequence -/

theorem bind_eq_ok {ε α β : Type} {x : Except ε α} {f : α → Except ε β} {b : β} :
    x >>= f = .ok b ↔ ∃ a, x = .ok a ∧ f a = .ok b := by
  cases x with
  | error e => simp [Bind.bind, Except.bind]
  | ok a => simp [Bind.bind, Except.bind]

theorem pure_eq_ok {ε α : Type} {a b : α} : (pure a : Except ε α) = .ok b ↔ a = b := by
  simp [pure, Except.pure]

/-! ## One declaration -/

theorem checkIdentifier_eq_ok_iff {role : NameRole} {name : String} :
    checkIdentifier role name = .ok () ↔ isIdentifier name = true := by
  unfold checkIdentifier
  split <;> simp_all

theorem exists_initConst?_iff {layout : String} {f : FieldDef} :
    (∃ c, initConst? layout f = .ok c) ↔ ∀ v, f.init = some v → v.HasMeaning := by
  unfold initConst?
  cases f.init with
  | none => simp
  | some v =>
    have hmeaning := InitConst.exists_ofValue?_iff (v := v)
    cases hc : InitConst.ofValue? v with
    | none => simpa [hc] using hmeaning
    | some c => simpa [hc] using hmeaning

theorem seq_eq_ok {ε β : Type} {x : Except ε Unit} {f : Unit → Except ε β} {b : β} :
    x >>= f = .ok b ↔ x = .ok () ∧ f () = .ok b := by
  rw [bind_eq_ok]
  constructor
  · rintro ⟨⟨⟩, hx, hf⟩
    exact ⟨hx, hf⟩
  · rintro ⟨hx, hf⟩
    exact ⟨(), hx, hf⟩

theorem ite_throw_eq_ok {ε α β : Type} {c : Prop} [Decidable c] {e : ε} {f : α → Except ε β}
    {x : Except ε β} {b : β} : (if c then throw e >>= f else x) = .ok b ↔ ¬ c ∧ x = .ok b := by
  by_cases h : c <;> simp [h, bind_eq_ok, throw, throwThe, MonadExceptOf.throw]

theorem checkField_eq_ok_iff {layout : String} {earlier : List FieldDef} {f : FieldDef} :
    checkField layout earlier f = .ok () ↔ f.Valid ∧ f.name ∉ earlier.map (·.name) := by
  have hinit : (∃ c, initConst? layout f = .ok c) ↔ _ := exists_initConst?_iff
  rw [checkField, seq_eq_ok, checkIdentifier_eq_ok_iff, ite_throw_eq_ok, ite_throw_eq_ok]
  constructor
  · rintro ⟨hid, hres, hnew, h⟩
    obtain ⟨c, hc, -⟩ := bind_eq_ok.mp h
    exact ⟨⟨hid, hres, hinit.mp ⟨c, hc⟩⟩, hnew⟩
  · rintro ⟨⟨hid, hres, hmeaning⟩, hnew⟩
    obtain ⟨c, hc⟩ := hinit.mpr hmeaning
    exact ⟨hid, hres, hnew, bind_eq_ok.mpr ⟨c, hc, rfl⟩⟩

theorem checkFields_eq_ok_iff {layout : String} {earlier fs : List FieldDef} :
    checkFields layout earlier fs = .ok () ↔
      (∀ f ∈ fs, f.Valid ∧ f.name ∉ earlier.map (·.name)) ∧ (fs.map (·.name)).Nodup := by
  induction fs generalizing earlier with
  | nil => simp [checkFields]
  | cons f fs ih =>
    have hnew : (∀ g ∈ fs, g.Valid ∧ g.name ∉ (earlier ++ [f]).map (·.name)) ↔
        (∀ g ∈ fs, g.Valid ∧ g.name ∉ earlier.map (·.name)) ∧ f.name ∉ fs.map (·.name) := by
      simp only [List.map_append, List.map_singleton, List.mem_append, List.mem_singleton, not_or,
        List.mem_map]
      grind
    rw [checkFields, seq_eq_ok, checkField_eq_ok_iff, ih, hnew, List.forall_mem_cons, List.map_cons,
      List.nodup_cons]
    tauto

/-! ## All declarations -/

/-- Tag constants differ in what follows their common beginning. -/
theorem tagConstant_inj {a b : String} :
    Name.tagConstant a = Name.tagConstant b ↔ Uppercase.ofString a = Uppercase.ofString b :=
  String.append_right_inj _

theorem checkLayoutName_eq_ok_iff {earlier : List String} {name : String} :
    checkLayoutName earlier name = .ok () ↔
      name ∉ Name.reservedLayouts ∧
        Uppercase.ofString name ∉ earlier.map Uppercase.ofString := by
  unfold checkLayoutName
  by_cases hres : name ∈ Name.reservedLayouts
  · simp [hres]
  cases hfind : earlier.find? fun e => Name.tagConstant e == Name.tagConstant name with
  | none =>
    have hnone := List.find?_eq_none.mp hfind
    simpa [hres, tagConstant_inj] using hnone
  | some e =>
    have hmem := List.mem_of_find?_eq_some hfind
    have hsame : Uppercase.ofString e = Uppercase.ofString name := by
      simpa [tagConstant_inj] using List.find?_some hfind
    have hold : Uppercase.ofString name ∈ earlier.map Uppercase.ofString :=
      hsame ▸ List.mem_map_of_mem hmem
    by_cases he : e = name <;> simp [hres, he, hold]

theorem checkLayout_eq_ok_iff {earlier : List String} {d : LayoutDef} :
    checkLayout earlier d = .ok () ↔
      d.Valid ∧ Uppercase.ofString d.name ∉ earlier.map Uppercase.ofString := by
  rw [checkLayout, seq_eq_ok, checkIdentifier_eq_ok_iff, seq_eq_ok, checkIdentifier_eq_ok_iff,
    seq_eq_ok, checkLayoutName_eq_ok_iff, checkFields_eq_ok_iff]
  constructor
  · rintro ⟨hid, hcategory, ⟨hres, hnew⟩, hfields, hnodup⟩
    exact ⟨⟨hid, hcategory, hres, hnodup, fun f hf => (hfields f hf).1⟩, hnew⟩
  · rintro ⟨⟨hid, hcategory, hres, hnodup, hfields⟩, hnew⟩
    exact ⟨hid, hcategory, ⟨hres, hnew⟩, fun f hf => ⟨hfields f hf, by simp⟩, hnodup⟩

theorem checkLayouts_eq_ok_iff {earlier : List String} {defs : List LayoutDef} :
    checkLayouts earlier defs = .ok () ↔
      (∀ d ∈ defs, d.Valid ∧ Uppercase.ofString d.name ∉ earlier.map Uppercase.ofString) ∧
        (defs.map fun d => Uppercase.ofString d.name).Nodup := by
  induction defs generalizing earlier with
  | nil => simp [checkLayouts]
  | cons d defs ih =>
    have hnew : (∀ e ∈ defs, e.Valid ∧
          Uppercase.ofString e.name ∉ (earlier ++ [d.name]).map Uppercase.ofString) ↔
        (∀ e ∈ defs, e.Valid ∧ Uppercase.ofString e.name ∉ earlier.map Uppercase.ofString) ∧
          Uppercase.ofString d.name ∉ defs.map fun d => Uppercase.ofString d.name := by
      simp only [List.map_append, List.map_singleton, List.mem_append, List.mem_singleton, not_or,
        List.mem_map]
      grind
    rw [checkLayouts, seq_eq_ok, checkLayout_eq_ok_iff, ih, hnew, List.forall_mem_cons,
      List.map_cons, List.nodup_cons]
    tauto

/-- Declarations pass the checks if each is valid and no two names differ in case only. -/
theorem check_eq_ok_iff {defs : List LayoutDef} :
    check defs = .ok () ↔
      (∀ d ∈ defs, d.Valid) ∧ (defs.map fun d => Uppercase.ofString d.name).Nodup := by
  rw [check, checkLayouts_eq_ok_iff]
  simp only [List.map_nil, List.not_mem_nil, not_false_eq_true, and_true]

end Schema

end HeapLayout
