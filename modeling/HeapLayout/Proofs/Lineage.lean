import HeapLayout.Proofs.Resolution

/-!
# Lineages

The lineage of a declaration is the chain of declarations from the root down to it, each extended by
the next. Flattening makes a single pass and copies the list of the parent, which has been completed
before; what comes out is the fields along the lineage (`exists_lineage_of_flatten`). It succeeds
exactly if names are distinct and every parent is declared earlier (`exists_flatten_iff`), so no
declaration extends itself, not even around a cycle.
-/

namespace HeapLayout.Schema

/-- The declarations from the root of the chain down to the one at position `k`. -/
inductive Lineage (defs : List LayoutDef) : Nat → List LayoutDef → Prop where
  | root {k : Nat} {d : LayoutDef} (hd : defs[k]? = some d) (hroot : d.parent = none) :
      Lineage defs k [d]
  | child {j k : Nat} {d p : LayoutDef} {ds : List LayoutDef} (hd : defs[k]? = some d)
      (hp : defs[j]? = some p) (hjk : j < k) (hparent : d.parent = some p.name)
      (h : Lineage defs j ds) : Lineage defs k (ds ++ [d])

/-- Every parent is declared before its children. -/
def ParentsFirst (defs : List LayoutDef) : Prop :=
  ∀ k d, defs[k]? = some d → ∀ n, d.parent = some n → ∃ p ∈ defs.take k, p.name = n

theorem forall_getElem?_cons {α : Type} {x : α} {xs : List α} {p : Nat → α → Prop} :
    (∀ k y, (x :: xs)[k]? = some y → p k y) ↔ p 0 x ∧ ∀ k y, xs[k]? = some y → p (k + 1) y := by
  constructor
  · intro h
    exact ⟨h 0 x rfl, fun k y hk => h (k + 1) y hk⟩
  · rintro ⟨h0, hs⟩ k y hk
    cases k with
    | zero => cases hk; exact h0
    | succ k => exact hs k y hk

theorem nodup_map_iff {α β : Type} {f : α → β} {xs : List α} :
    (xs.map f).Nodup ↔ ∀ k x, xs[k]? = some x → f x ∉ (xs.take k).map f := by
  induction xs with
  | nil => simp
  | cons a xs ih =>
    rw [forall_getElem?_cons, List.map_cons, List.nodup_cons, ih]
    simp only [List.take_zero, List.map_nil, List.not_mem_nil, not_false_eq_true, true_and,
      List.take_succ_cons, List.map_cons, List.mem_cons, not_or]
    constructor
    · rintro ⟨ha, hxs⟩ k y hy
      refine ⟨?_, hxs k y hy⟩
      intro hya
      exact ha (hya ▸ List.mem_map_of_mem (List.mem_of_getElem? hy))
    · intro h
      refine ⟨?_, fun k y hy => (h k y hy).2⟩
      intro ha
      obtain ⟨y, hy, hya⟩ := List.mem_map.mp ha
      obtain ⟨k, hk⟩ := List.mem_iff_getElem?.mp hy
      exact (h k y hk).1 hya

/-! ## Lineages exist and are unique -/

section Lineage

variable {defs : List LayoutDef} {k : Nat} {ds ds' : List LayoutDef}

theorem Lineage.unique (hnodup : (defs.map (·.name)).Nodup) (h : Lineage defs k ds)
    (h' : Lineage defs k ds') : ds = ds' := by
  induction h generalizing ds' with
  | root hd hroot =>
    cases h' with
    | root hd' => cases hd.symm.trans hd'; rfl
    | child hd' _ _ hparent =>
      cases hd.symm.trans hd'
      cases hroot.symm.trans hparent
  | child hd hp _ hparent _ ih =>
    cases h' with
    | root hd' hroot =>
      cases hd.symm.trans hd'
      cases hroot.symm.trans hparent
    | child hd' hp' _ hparent' h' =>
      cases hd.symm.trans hd'
      have hname := Option.some.inj (hparent.symm.trans hparent')
      cases getElem?_eq_of_nodup hnodup hp hp' hname
      rw [ih h']

theorem Lineage.mem (h : Lineage defs k ds) : ∀ d ∈ ds, d ∈ defs := by
  induction h with
  | root hd _ => simpa using List.mem_of_getElem? hd
  | child hd _ _ _ _ ih =>
    intro e he
    rcases List.mem_append.mp he with he | he
    · exact ih e he
    · cases List.mem_singleton.mp he
      exact List.mem_of_getElem? hd

theorem Lineage.exists_getElem? (h : Lineage defs k ds) : ∃ d, defs[k]? = some d := by
  cases h with
  | root hd _ => exact ⟨_, hd⟩
  | child hd _ _ _ _ => exact ⟨_, hd⟩

end Lineage

/-! ## Flattening succeeds -/

theorem exists_inheritedFields_iff {done : List FlatLayout} {d : LayoutDef} :
    (∃ fs, inheritedFields done d = .ok fs) ↔
      ∀ n, d.parent = some n → n ∈ done.map (·.name) := by
  unfold inheritedFields
  cases d.parent with
  | none => simp
  | some n =>
    cases hfind : done.find? fun f => f.name == n with
    | none =>
      have hnone := List.find?_eq_none.mp hfind
      simpa [hfind] using hnone
    | some fl =>
      have hname : fl.name = n := by simpa using List.find?_some hfind
      have hmem : n ∈ done.map (·.name) :=
        hname ▸ List.mem_map_of_mem (List.mem_of_find?_eq_some hfind)
      simpa [hfind] using hmem

theorem flattenLayout_eq_ok_iff {done : List FlatLayout} {d : LayoutDef} {fl : FlatLayout} :
    flattenLayout done d = .ok fl ↔ d.name ∉ done.map (·.name) ∧
      ∃ fs, inheritedFields done d = .ok fs ∧
        { name := d.name, category := d.category, comment := d.comment,
          fields := fs ++ d.fields } = fl := by
  rw [flattenLayout, ite_throw_eq_ok, bind_eq_ok]
  simp only [pure_eq_ok]

theorem exists_flattenLayout_iff {done : List FlatLayout} {d : LayoutDef} :
    (∃ fl, flattenLayout done d = .ok fl) ↔
      d.name ∉ done.map (·.name) ∧ ∀ n, d.parent = some n → n ∈ done.map (·.name) := by
  rw [← exists_inheritedFields_iff]
  constructor
  · rintro ⟨fl, hfl⟩
    obtain ⟨hnew, fs, hfs, -⟩ := flattenLayout_eq_ok_iff.mp hfl
    exact ⟨hnew, fs, hfs⟩
  · rintro ⟨hnew, fs, hfs⟩
    exact ⟨_, flattenLayout_eq_ok_iff.mpr ⟨hnew, fs, hfs, rfl⟩⟩

/-- A declaration that follows those in `done` needs a new name and a parent among the earlier
ones. -/
theorem exists_flattenFrom_iff {done : List FlatLayout} {defs : List LayoutDef} :
    (∃ flat, flattenFrom done defs = .ok flat) ↔ ∀ k d, defs[k]? = some d →
      d.name ∉ done.map (·.name) ++ (defs.take k).map (·.name) ∧
        ∀ n, d.parent = some n → n ∈ done.map (·.name) ++ (defs.take k).map (·.name) := by
  induction defs generalizing done with
  | nil => simp [flattenFrom]
  | cons d defs ih =>
    -- The names before the other declarations do not depend on how `d` is flattened.
    have hstep {fl : FlatLayout} (hfl : fl.name = d.name) :
        (∃ flat, flattenFrom (done ++ [fl]) defs = .ok flat) ↔ ∀ k e, defs[k]? = some e →
          e.name ∉ done.map (·.name) ++ ((d :: defs).take (k + 1)).map (·.name) ∧
            ∀ n, e.parent = some n →
              n ∈ done.map (·.name) ++ ((d :: defs).take (k + 1)).map (·.name) := by
      simp only [ih, List.map_append, hfl, List.take_succ_cons, List.map_cons, List.map_nil,
        List.append_assoc, List.cons_append, List.nil_append]
    rw [forall_getElem?_cons, List.take_zero, List.map_nil, List.append_nil,
      ← exists_flattenLayout_iff]
    simp only [flattenFrom, bind_eq_ok]
    constructor
    · rintro ⟨flat, fl, hfl, h⟩
      exact ⟨⟨fl, hfl⟩, (hstep (flattenLayout_eq_ok hfl).2.1).mp ⟨flat, h⟩⟩
    · rintro ⟨⟨fl, hfl⟩, hdefs⟩
      obtain ⟨flat, h⟩ := (hstep (flattenLayout_eq_ok hfl).2.1).mpr hdefs
      exact ⟨flat, fl, hfl, h⟩

/-- Flattening succeeds if no name is declared twice and parents come first. -/
theorem exists_flatten_iff {defs : List LayoutDef} :
    (∃ flat, flatten defs = .ok flat) ↔ (defs.map (·.name)).Nodup ∧ ParentsFirst defs := by
  rw [flatten, exists_flattenFrom_iff, nodup_map_iff]
  simp only [ParentsFirst, List.map_nil, List.nil_append, List.mem_map]
  constructor
  · intro h
    exact ⟨fun k d hd => (h k d hd).1, fun k d hd => (h k d hd).2⟩
  · rintro ⟨hnew, hparent⟩ k d hd
    exact ⟨hnew k d hd, hparent k d hd⟩

/-! ## The fields along a lineage -/

/-- Flattening puts the fields of a lineage one after the other. -/
theorem exists_lineage_of_flatten {defs : List LayoutDef} {flat : List FlatLayout}
    (h : flatten defs = .ok flat) {k : Nat} {d : LayoutDef} (hd : defs[k]? = some d) :
    ∃ ds, Lineage defs k ds ∧
      flat[k]? = some { name := d.name, category := d.category, comment := d.comment,
                        fields := ds.flatMap (·.fields) } := by
  obtain ⟨-, hlength, hflat⟩ := exists_of_flattenFrom h
  rw [List.length_nil, Nat.zero_add] at hlength
  induction k using Nat.strongRecOn generalizing d with
  | ind k ih =>
    obtain ⟨fl, hfl, hflatten⟩ := hflat k d hd
    rw [List.length_nil, Nat.zero_add] at hfl hflatten
    obtain ⟨-, fs, hfs, rfl⟩ := flattenLayout_eq_ok_iff.mp hflatten
    rcases inheritedFields_eq_ok hfs with ⟨hroot, rfl⟩ | ⟨n, parent, hparent, hfind, rfl⟩
    · exact ⟨[d], .root hd hroot, by simpa using hfl⟩
    · obtain ⟨j, hj⟩ := List.mem_iff_getElem?.mp (List.mem_of_find?_eq_some hfind)
      rw [List.getElem?_take] at hj
      split at hj
      · next hjk =>
        obtain ⟨p, hp⟩ := exists_getElem?_of_length_eq hlength hj
        obtain ⟨ds, hds, hget⟩ := ih j hjk hp
        cases hj.symm.trans hget
        have hname : p.name = n := by simpa using List.find?_some hfind
        exact ⟨ds ++ [d], .child hd hp hjk (hname ▸ hparent) hds, by simpa using hfl⟩
      · cases hj

end HeapLayout.Schema
