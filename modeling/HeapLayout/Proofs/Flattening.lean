import HeapLayout.Proofs.Acceptance
import HeapLayout.Proofs.Inheritance

/-!
# Flattening

What flattening does with any list of declarations, checked or not. It succeeds exactly if names are
distinct and parents come first, and then every declaration has become the fields along its lineage.
Otherwise the first declaration at fault says why: `Fault` is what can be wrong with a declaration
behind others of given names, and `flattenFrom_eq_error_iff` carries it through the pass. Every
extension goes towards the front (`lt_of_extends`), so no chain of them is a cycle.
-/

namespace HeapLayout.Schema

variable {defs : List LayoutDef} {d : LayoutDef} {seen : List String} {e : SchemaError}

/-! ## What is wrong with a declaration -/

/-- What keeps a declaration from being flattened behind others with the names `seen`. -/
inductive Fault (seen : List String) (d : LayoutDef) : SchemaError → Prop where
  | duplicate (h : d.name ∈ seen) : Fault seen d (.duplicateLayout d.name)
  | unknown {n : String} (hnew : d.name ∉ seen) (hparent : d.parent = some n) (h : n ∉ seen) :
      Fault seen d (.unknownParent d.name n)

/-- What is wrong with the first declaration at fault. -/
def FirstFault (seen : List String) (defs : List LayoutDef) (e : SchemaError) : Prop :=
  ∃ k d, defs[k]? = some d ∧ Fault (seen ++ (defs.take k).map (·.name)) d e ∧
    ∀ j d', j < k → defs[j]? = some d' → ∀ e', ¬Fault (seen ++ (defs.take j).map (·.name)) d' e'

/-- A declaration is at fault, or one behind it is. -/
theorem firstFault_cons : FirstFault seen (d :: defs) e ↔
    Fault seen d e ∨ (∀ e', ¬Fault seen d e') ∧ FirstFault (seen ++ [d.name]) defs e := by
  have hnames (k : Nat) : seen ++ ((d :: defs).take (k + 1)).map (·.name) =
      seen ++ [d.name] ++ (defs.take k).map (·.name) := by simp
  constructor
  · rintro ⟨k, d', hk, hfault, hbefore⟩
    cases k with
    | zero =>
      cases hk
      exact .inl (by simpa using hfault)
    | succ k =>
      refine .inr ⟨by simpa using hbefore 0 d k.succ_pos rfl, k, d', hk, hnames k ▸ hfault, ?_⟩
      intro j d'' hj hd''
      rw [← hnames]
      exact hbefore (j + 1) d'' (Nat.succ_lt_succ hj) hd''
  · rintro (hfault | ⟨hnone, k, d', hk, hfault, hbefore⟩)
    · exact ⟨0, d, rfl, by simpa using hfault, fun j _ hj => absurd hj j.not_lt_zero⟩
    · refine ⟨k + 1, d', hk, hnames k ▸ hfault, ?_⟩
      intro j d'' hj hd''
      cases j with
      | zero =>
        cases hd''
        simpa using hnone
      | succ j =>
        rw [hnames]
        exact hbefore j d'' (Nat.lt_of_succ_lt_succ hj) hd''

/-! ## Flattening fails -/

theorem inheritedFields_eq_error_iff {done : List FlatLayout} :
    inheritedFields done d = .error e ↔
      ∃ n, d.parent = some n ∧ n ∉ done.map (·.name) ∧ .unknownParent d.name n = e := by
  unfold inheritedFields
  cases d.parent with
  | none => simp
  | some n =>
    cases hfind : done.find? fun f => f.name == n with
    | none =>
      have hnot : n ∉ done.map (·.name) := by simpa using List.find?_eq_none.mp hfind
      simp only [hfind]
      constructor
      · intro h
        cases h
        exact ⟨n, rfl, hnot, rfl⟩
      · rintro ⟨_, ⟨⟩, -, rfl⟩
        rfl
    | some fl =>
      have hname : fl.name = n := by simpa using List.find?_some hfind
      have hmem : n ∈ done.map (·.name) :=
        hname ▸ List.mem_map_of_mem (List.mem_of_find?_eq_some hfind)
      simp only [hfind]
      constructor
      · intro h
        cases h
      · rintro ⟨_, ⟨⟩, hnot, -⟩
        exact absurd hmem hnot

theorem flattenLayout_eq_error_iff {done : List FlatLayout} :
    flattenLayout done d = .error e ↔ Fault (done.map (·.name)) d e := by
  unfold flattenLayout
  by_cases hmem : d.name ∈ done.map (·.name)
  · rw [if_pos hmem]
    constructor
    · intro h
      cases h
      exact .duplicate hmem
    · rintro (_ | ⟨hnew, -, -⟩)
      · rfl
      · exact absurd hmem hnew
  · rw [if_neg hmem]
    constructor
    · intro h
      rcases bind_eq_error.mp h with h | ⟨fs, -, h⟩
      · obtain ⟨n, hparent, hnot, rfl⟩ := inheritedFields_eq_error_iff.mp h
        exact .unknown hmem hparent hnot
      · cases h
    · rintro (h | ⟨-, hparent, hnot⟩)
      · exact absurd h hmem
      · exact bind_eq_error.mpr
          (.inl (inheritedFields_eq_error_iff.mpr ⟨_, hparent, hnot, rfl⟩))

theorem flattenFrom_eq_error_iff {done : List FlatLayout} :
    flattenFrom done defs = .error e ↔ FirstFault (done.map (·.name)) defs e := by
  induction defs generalizing done with
  | nil => simp [flattenFrom, FirstFault]
  | cons d defs ih =>
    rw [firstFault_cons, flattenFrom, bind_eq_error, flattenLayout_eq_error_iff]
    apply or_congr_right
    -- The names before the other declarations do not depend on how `d` is flattened.
    have hnames {fl : FlatLayout} (hfl : flattenLayout done d = .ok fl) :
        (done ++ [fl]).map (·.name) = done.map (·.name) ++ [d.name] := by
      simp [(flattenLayout_eq_ok hfl).2.1]
    constructor
    · rintro ⟨fl, hfl, h⟩
      refine ⟨?_, hnames hfl ▸ ih.mp h⟩
      intro e' hfault
      cases hfl.symm.trans (flattenLayout_eq_error_iff.mpr hfault)
    · rintro ⟨hnone, h⟩
      cases hfl : flattenLayout done d with
      | error e' => exact absurd (flattenLayout_eq_error_iff.mp hfl) (hnone e')
      | ok fl => exact ⟨fl, rfl, ih.mpr (hnames hfl ▸ h)⟩

/-! ## No cycles -/

/-- What a declaration extends is declared before it. -/
theorem lt_of_extends (hnodup : (defs.map (·.name)).Nodup) (hparents : ParentsFirst defs)
    {i j : Nat} (h : Extends defs i j) : j < i := by
  obtain ⟨child, parent, hchild, hparent, hname⟩ := h
  obtain ⟨p, hp, hpn⟩ := hparents i child hchild parent.name hname
  obtain ⟨m, hm⟩ := List.mem_iff_getElem?.mp hp
  rw [List.getElem?_take] at hm
  split at hm
  · next hmi =>
    cases getElem?_eq_of_nodup hnodup hm hparent hpn
    exact hmi
  · cases hm

theorem lt_of_transGen_extends (hnodup : (defs.map (·.name)).Nodup) (hparents : ParentsFirst defs)
    {i j : Nat} (h : Relation.TransGen (Extends defs) i j) : j < i := by
  induction h with
  | single h => exact lt_of_extends hnodup hparents h
  | tail _ h ih => exact (lt_of_extends hnodup hparents h).trans ih

/-- Flattening succeeds if and only if names are distinct and every parent is declared before its
children. Then there are no cycles, and the fields of a layout are those along its lineage.
Otherwise the first declaration at fault is reported. -/
theorem flattens (defs : List LayoutDef) :
    ((∃ flat, flatten defs = .ok flat) ↔ (defs.map (·.name)).Nodup ∧ ParentsFirst defs) ∧
      (∀ flat, flatten defs = .ok flat → flat.length = defs.length ∧
        (∀ k d, defs[k]? = some d → ∃ ds, Lineage defs k ds ∧
          flat[k]? = some { name := d.name, category := d.category, comment := d.comment,
                            fields := ds.flatMap (·.fields) }) ∧
        ∀ i, ¬Relation.TransGen (Extends defs) i i) ∧
      ∀ e, flatten defs = .error e ↔ FirstFault [] defs e := by
  refine ⟨exists_flatten_iff, ?_, fun e => flattenFrom_eq_error_iff⟩
  intro flat hflat
  obtain ⟨hnodup, hparents⟩ := exists_flatten_iff.mp ⟨flat, hflat⟩
  obtain ⟨-, hlength, -⟩ := exists_of_flattenFrom hflat
  refine ⟨by simpa using hlength, fun k d hd => exists_lineage_of_flatten hflat hd, ?_⟩
  intro i hcycle
  exact Nat.lt_irrefl i (lt_of_transGen_extends hnodup hparents hcycle)

/-- Cells that also have an owner: the grandchild of the counted layout. -/
def ownedDef : LayoutDef where
  name := "owned"
  parent := some "cells"
  category := "object"
  fields := [{ name := "owner", type := .refptr }]

/-- A layout that extends itself. -/
def loopDef : LayoutDef where
  name := "loop"
  parent := some "loop"
  category := "object"
  fields := []

/-- The grandchild has the fields of all three; a loop is reported before what is wrong behind
it. -/
theorem flattens_owned :
    (∃ flat, flatten [countedDef, cellsDef, ownedDef] = .ok flat ∧
      ∃ ds, Lineage [countedDef, cellsDef, ownedDef] 2 ds ∧
        flat[2]? = some { name := "owned", category := "object",
                          fields := ds.flatMap (·.fields) }) ∧
      FirstFault [] [countedDef, loopDef, ownedDef] (.unknownParent "loop" "loop") := by
  refine ⟨?_, ((flattens _).2.2 _).mp rfl⟩
  obtain ⟨flat, hflat⟩ : ∃ flat, flatten [countedDef, cellsDef, ownedDef] = .ok flat := ⟨_, rfl⟩
  exact ⟨flat, hflat, ((flattens _).2.1 flat hflat).2.1 2 ownedDef rfl⟩

end HeapLayout.Schema
