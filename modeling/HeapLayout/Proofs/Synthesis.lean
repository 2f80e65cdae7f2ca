import HeapLayout.Code.Accessor
import HeapLayout.Proofs.Evaluation
import HeapLayout.Proofs.Placement

/-!
# The accessors of a layout

Synthesis succeeds on every well-formed layout, and each accessor is found under its own name: the
name of a function tells its kind (`FunctionKind.eq_of_name_eq`), and the fields of a layout have
distinct names. `Program.Implements` says that a program has the accessors of a layout, which is all
that the theorems about running them ask of it. Wherever synthesis succeeds, distinct names are
enough for it (`implements_of_layoutDecls`), and so a well-formed layout has it
(`exists_layoutDecls`).
-/

namespace HeapLayout.Code

/-! ## Names tell kinds -/

namespace FunctionKind

def name : FunctionKind → String
  | offset l f => Name.offset l f
  | get l f => Name.getter l f
  | set l f => Name.setter l f
  | compSize l => Name.compSize l
  | sizeof l => Name.sizeof l
  | alloc l => Name.alloc l
  | visitGc l => Name.visitGc l
  | dispatchSizeof => Name.dispatchSizeof
  | dispatchVisitGc => Name.dispatchVisitGc

/-- The layout that a function belongs to. -/
def layout? : FunctionKind → Option String
  | offset l _ | get l _ | set l _ | compSize l | sizeof l | alloc l | visitGc l => some l
  | dispatchSizeof | dispatchVisitGc => none

/-- Within one layout, functions of different kinds have different names. -/
theorem eq_of_name_eq {k k' : FunctionKind} {n : String} (h : k.layout? = some n)
    (h' : k'.layout? = some n) (hname : k.name = k'.name) : k = k' := by
  cases k <;> cases h <;> cases k' <;> cases h' <;>
    simp_all [name, Name.offset, Name.getter, Name.setter, Name.compSize, Name.sizeof, Name.alloc,
      Name.visitGc, ← String.toList_inj]

end FunctionKind

namespace Program

variable {p : Program} {f : Function}

/-- A function is found under its name if no other one has that name. -/
theorem function?_of_mem (hnodup : (p.functions.map (·.name)).Nodup) (hf : f ∈ p.functions) :
    p.function? f.name = some f := by
  unfold function?
  cases hg : p.functions.find? fun g => g.name == f.name with
  | none => exact absurd (List.find?_eq_none.mp hg f hf) (by simp)
  | some g =>
    have hname : g.name = f.name := by simpa using List.find?_some hg
    rw [List.inj_on_of_nodup_map hnodup (List.mem_of_find?_eq_some hg) hf hname]

end Program

namespace Accessor

open HeapLayout (Layout Field FieldId PointerWidth)
open Schema (bind_eq_ok pure_eq_ok)

variable {w : PointerWidth} {l : Layout} {f s : Field} {i k : Nat}

/-! ## Synthesis succeeds -/

theorem binding_of_getElem? {field : String} (h : l.fields[i]? = some s) :
    binding l field i = .ok s := by
  simp only [binding, Layout.field?, h]

theorem getElem?_of_binding {field : String} (h : binding l field i = .ok s) :
    l.fields[i]? = some s := by
  unfold binding at h
  split at h
  · next hs => cases h; exact hs
  · cases h

theorem exists_binding (h : l.WellFormed w) (hf : f ∈ l.fields) (hi : f.sizeField = some i)
    (field : String) : ∃ s, binding l field i = .ok s := by
  obtain ⟨s, hs, -⟩ := h.exists_of_mem_sizeFields (h.mem_sizeFields_iff.mpr ⟨f, hf, hi⟩)
  exact ⟨s, binding_of_getElem? hs⟩

/-- The size fields of a layout are the fields at the listed positions. -/
theorem forall₂_of_sizeFields {sizes : List Field} (hsizes : sizeFields l = .ok sizes) :
    List.Forall₂ (fun i s => l.fields[i]? = some s) l.sizeFields sizes := by
  unfold sizeFields at hsizes
  generalize l.sizeFields = is at hsizes
  induction is generalizing sizes with
  | nil =>
    cases hsizes
    exact .nil
  | cons i is ih =>
    rw [List.mapM_cons] at hsizes
    obtain ⟨s, hs, hsizes⟩ := bind_eq_ok.mp hsizes
    obtain ⟨rest, hrest, hsizes⟩ := bind_eq_ok.mp hsizes
    cases pure_eq_ok.mp hsizes
    exact .cons (getElem?_of_binding hs) (ih hrest)

theorem exists_sizeFields (h : l.WellFormed w) : ∃ sizes, sizeFields l = .ok sizes := by
  have hall : ∀ i ∈ l.sizeFields, ∃ s, l.fields[i]? = some s := by
    intro i hi
    obtain ⟨s, hs, -⟩ := h.exists_of_mem_sizeFields hi
    exact ⟨s, hs⟩
  unfold sizeFields
  generalize l.sizeFields = is at hall
  induction is with
  | nil => exact ⟨[], rfl⟩
  | cons i is ih =>
    obtain ⟨⟨s, hs⟩, his⟩ := List.forall_mem_cons.mp hall
    obtain ⟨ss, hss⟩ := ih his
    exact ⟨s :: ss, by rw [List.mapM_cons, binding_of_getElem? hs, hss]; rfl⟩

theorem exists_span (h : l.WellFormed w) (count : Field → Expr) (hf : f ∈ l.fields) :
    ∃ e, span l count f = .ok e := by
  unfold span
  split
  · exact ⟨_, rfl⟩
  · next i hi =>
    obtain ⟨s, hs⟩ := exists_binding h hf hi f.name
    exact ⟨_, bind_eq_ok.mpr ⟨s, hs, rfl⟩⟩

theorem exists_prefixSumFrom (h : l.WellFormed w) (count : Field → Expr) {fs : List Field}
    (hfs : ∀ f ∈ fs, f ∈ l.fields) (sum : Expr) :
    ∃ e, prefixSumFrom w l count sum fs = .ok e := by
  induction fs generalizing sum with
  | nil => exact ⟨sum, rfl⟩
  | cons f fs ih =>
    obtain ⟨hf, hfs⟩ := List.forall_mem_cons.mp hfs
    obtain ⟨bytes, hbytes⟩ := exists_span h count hf
    obtain ⟨e, he⟩ := ih hfs (.add (aligned w sum f) bytes)
    exact ⟨e, bind_eq_ok.mpr ⟨bytes, hbytes, he⟩⟩

theorem exists_offsetFunction (h : l.WellFormed w) {earlier : List Field}
    (hfs : ∀ f ∈ earlier, f ∈ l.fields) (f : Field) :
    ∃ g, offsetFunction w l earlier f = .ok g := by
  obtain ⟨sum, hsum⟩ := exists_prefixSumFrom h (storedCount l) hfs (.const 0)
  exact ⟨_, bind_eq_ok.mpr ⟨_, bind_eq_ok.mpr ⟨sum, hsum, rfl⟩, rfl⟩⟩

theorem exists_offsetFunctionsFrom (h : l.WellFormed w) {earlier fs : List Field}
    (hearlier : ∀ f ∈ earlier, f ∈ l.fields) (hfs : ∀ f ∈ fs, f ∈ l.fields) :
    ∃ gs, offsetFunctionsFrom w l earlier fs = .ok gs := by
  induction fs generalizing earlier with
  | nil => exact ⟨[], rfl⟩
  | cons f fs ih =>
    obtain ⟨hf, hfs⟩ := List.forall_mem_cons.mp hfs
    obtain ⟨g, hg⟩ := exists_offsetFunction h hearlier f
    have hearlier' : ∀ f' ∈ earlier ++ [f], f' ∈ l.fields :=
      List.forall_mem_append.mpr ⟨hearlier, List.forall_mem_singleton.mpr hf⟩
    obtain ⟨gs, hgs⟩ := ih hearlier' hfs
    exact ⟨g :: gs, bind_eq_ok.mpr ⟨g, hg, bind_eq_ok.mpr ⟨gs, hgs, rfl⟩⟩⟩

/-- The offset functions are those of the fields, each with the fields before it. -/
theorem exists_offsetFunction_of_getElem? {earlier fs : List Field} {gs : List Function}
    (h : offsetFunctionsFrom w l earlier fs = .ok gs) (hk : fs[k]? = some f) :
    ∃ g ∈ gs, offsetFunction w l (earlier ++ fs.take k) f = .ok g := by
  induction fs generalizing earlier gs k with
  | nil => cases hk
  | cons f' fs ih =>
    obtain ⟨g, hg, h⟩ := bind_eq_ok.mp h
    obtain ⟨rest, hrest, h⟩ := bind_eq_ok.mp h
    cases pure_eq_ok.mp h
    cases k with
    | zero =>
      cases hk
      exact ⟨g, List.mem_cons_self, by simpa using hg⟩
    | succ k =>
      obtain ⟨g', hg', hgf⟩ := ih hrest hk
      exact ⟨g', List.mem_cons_of_mem g hg', by simpa using hgf⟩

theorem exists_writeInits (h : l.WellFormed w) {fs : List Field} (hfs : ∀ f ∈ fs, f ∈ l.fields) :
    ∃ ss, writeInits l fs = .ok ss := by
  induction fs with
  | nil => exact ⟨[], rfl⟩
  | cons f fs ih =>
    obtain ⟨hf, hfs⟩ := List.forall_mem_cons.mp hfs
    obtain ⟨ss, hss⟩ := ih hfs
    rw [writeInits]
    split
    · exact ⟨ss, hss⟩
    · next c _ =>
      have hinit : ∃ st, writeInit l f (initExpr c) = .ok st := by
        unfold writeInit
        split
        · exact ⟨_, rfl⟩
        · next i hi =>
          obtain ⟨s, hs⟩ := exists_binding h hf hi f.name
          exact ⟨_, bind_eq_ok.mpr ⟨s, hs, rfl⟩⟩
      obtain ⟨st, hst⟩ := hinit
      exact ⟨st :: ss, bind_eq_ok.mpr ⟨st, hst, bind_eq_ok.mpr ⟨ss, hss, rfl⟩⟩⟩

theorem exists_forwardSlot (h : l.WellFormed w) (hf : f ∈ l.fields) :
    ∃ st, forwardSlot l f = .ok st := by
  have hargs : ∃ es, forwardArgs l f = .ok es := by
    unfold forwardArgs
    split
    · exact ⟨_, rfl⟩
    · next i hi =>
      obtain ⟨t, ht, -⟩ := h.typeField f hf i hi
      exact ⟨_, bind_eq_ok.mpr ⟨t, binding_of_getElem? ht, rfl⟩⟩
  obtain ⟨es, hes⟩ := hargs
  exact ⟨_, bind_eq_ok.mpr ⟨es, hes, rfl⟩⟩

theorem exists_visitFields (h : l.WellFormed w) {fs : List Field} (hfs : ∀ f ∈ fs, f ∈ l.fields)
    (read : List String) : ∃ ss, visitFields l read fs = .ok ss := by
  induction fs generalizing read with
  | nil => exact ⟨[], rfl⟩
  | cons f fs ih =>
    obtain ⟨hf, hfs⟩ := List.forall_mem_cons.mp hfs
    obtain ⟨forward, hforward⟩ := exists_forwardSlot h hf
    cases hi : f.sizeField with
    | none =>
      obtain ⟨ss, hss⟩ := ih hfs read
      exact ⟨forward :: ss, by simp only [visitFields, hforward, hi, hss]; rfl⟩
    | some i =>
      obtain ⟨s, hs⟩ := exists_binding h hf hi f.name
      by_cases hread : s.name ∈ read
      · obtain ⟨ss, hss⟩ := ih hfs read
        refine ⟨.loop Name.index (passedCount s) [forward] :: ss, ?_⟩
        simp only [visitFields, hforward, hi, hs, hss, bind, Except.bind, if_pos hread]
        rfl
      · obtain ⟨ss, hss⟩ := ih hfs (s.name :: read)
        refine ⟨.bind s.name offsetType (storedCount l s) ::
          .loop Name.index (passedCount s) [forward] :: ss, ?_⟩
        simp only [visitFields, hforward, hi, hs, hss, bind, Except.bind, if_neg hread]
        rfl

theorem exists_compSizeFunction (h : l.WellFormed w) : ∃ g, compSizeFunction w l = .ok g := by
  obtain ⟨sizes, hsizes⟩ := exists_sizeFields h
  obtain ⟨total, htotal⟩ := exists_prefixSumFrom h passedCount (fun _ hf => hf) (.const 0)
  exact ⟨_, bind_eq_ok.mpr ⟨sizes, hsizes, bind_eq_ok.mpr ⟨total, htotal, rfl⟩⟩⟩

theorem exists_sizeofFunction (h : l.WellFormed w) : ∃ g, sizeofFunction l = .ok g := by
  obtain ⟨sizes, hsizes⟩ := exists_sizeFields h
  exact ⟨_, bind_eq_ok.mpr ⟨sizes, hsizes, rfl⟩⟩

theorem exists_allocFunction (h : l.WellFormed w) : ∃ g, allocFunction l = .ok g := by
  obtain ⟨sizes, hsizes⟩ := exists_sizeFields h
  obtain ⟨inits, hinits⟩ := exists_writeInits h fun _ hf => hf
  exact ⟨_, bind_eq_ok.mpr ⟨sizes, hsizes, bind_eq_ok.mpr ⟨inits, hinits, rfl⟩⟩⟩

theorem exists_visitGcFunction (h : l.WellFormed w) : ∃ g, visitGcFunction l = .ok g := by
  obtain ⟨body, hbody⟩ := exists_visitFields h (fun _ hf => List.mem_of_mem_filter hf) []
  exact ⟨_, bind_eq_ok.mpr ⟨body, hbody, rfl⟩⟩

/-! ## All names are different -/

/-- The kinds of the accessors of a layout, in the order of their declarations. -/
def kinds (l : Layout) : List FunctionKind :=
  l.fields.map (fun f => .offset l.name f.name) ++ l.fields.map (fun f => .get l.name f.name) ++
    l.fields.map (fun f => .set l.name f.name) ++
    [.compSize l.name, .sizeof l.name, .alloc l.name, .visitGc l.name]

theorem nodup_kinds (hnames : (l.fields.map (·.name)).Nodup) : (kinds l).Nodup := by
  have hmap (k : String → FunctionKind) (hk : Function.Injective k) :
      (l.fields.map fun f => k f.name).Nodup := by
    have := hnames.map hk
    rwa [List.map_map] at this
  have hoffset := hmap (.offset l.name) fun _ _ h => by cases h; rfl
  have hget := hmap (.get l.name) fun _ _ h => by cases h; rfl
  have hset := hmap (.set l.name) fun _ _ h => by cases h; rfl
  simp only [kinds, List.nodup_append, hoffset, hget, hset]
  simp only [List.mem_append, List.mem_map, List.mem_cons, List.not_mem_nil, or_false]
  grind

theorem layout?_of_mem_kinds {k : FunctionKind} (hk : k ∈ kinds l) : k.layout? = some l.name := by
  simp only [kinds, List.mem_append, List.mem_map, List.mem_cons, List.not_mem_nil, or_false] at hk
  rcases hk with ((⟨f, -, rfl⟩ | ⟨f, -, rfl⟩) | ⟨f, -, rfl⟩) | rfl | rfl | rfl | rfl <;> rfl

theorem nodup_map_name_kinds (hnames : (l.fields.map (·.name)).Nodup) :
    ((kinds l).map FunctionKind.name).Nodup := by
  apply List.Nodup.map_on _ (nodup_kinds hnames)
  intro k hk k' hk' hname
  exact FunctionKind.eq_of_name_eq (layout?_of_mem_kinds hk) (layout?_of_mem_kinds hk') hname

end Accessor

/-! ## Programs with the accessors of a layout -/

section Implements

open HeapLayout (Layout Field PointerWidth)
open Accessor
open Schema (bind_eq_ok pure_eq_ok)

/-- The program has the accessors of a layout, each found under its name. -/
structure Program.Implements (p : Program) (w : PointerWidth) (l : Layout) : Prop where
  offset : ∀ {k : Nat} {f : Field}, l.fields[k]? = some f →
    ∃ g, offsetFunction w l (l.fields.take k) f = .ok g ∧
      p.function? (Name.offset l.name f.name) = some g
  getter : ∀ f ∈ l.fields, p.function? (Name.getter l.name f.name) = some (getterFunction l f)
  setter : ∀ f ∈ l.fields, p.function? (Name.setter l.name f.name) = some (setterFunction l f)
  compSize : ∃ g, compSizeFunction w l = .ok g ∧ p.function? (Name.compSize l.name) = some g
  sizeof : ∃ g, sizeofFunction l = .ok g ∧ p.function? (Name.sizeof l.name) = some g
  alloc : ∃ g, allocFunction l = .ok g ∧ p.function? (Name.alloc l.name) = some g
  visitGc : ∃ g, visitGcFunction l = .ok g ∧ p.function? (Name.visitGc l.name) = some g

theorem Program.functions_ofDecls {w : PointerWidth} {name : String} {v : Int}
    (fs : List Function) :
    (ofDecls w (.const name .uint32 v :: fs.map .function)).functions = fs := by
  have hfunction : Decl.function? ∘ Decl.function = some := rfl
  rw [functions, ofDecls, List.filterMap_cons_none rfl, List.filterMap_map, hfunction,
    List.filterMap_some]

theorem parts_of_layoutDecls {w : PointerWidth} {l : Layout} {decls : List Decl}
    (h : layoutDecls w l = .ok decls) :
    ∃ offsets compSize sizeof alloc visitGc, offsetFunctionsFrom w l [] l.fields = .ok offsets ∧
      compSizeFunction w l = .ok compSize ∧ sizeofFunction l = .ok sizeof ∧
      allocFunction l = .ok alloc ∧ visitGcFunction l = .ok visitGc ∧
      decls = .const l.tagConstant .uint32 l.id ::
        (offsets ++ l.fields.map (getterFunction l) ++ l.fields.map (setterFunction l) ++
          [compSize, sizeof, alloc, visitGc]).map .function := by
  obtain ⟨offsets, hoffsets, h⟩ := bind_eq_ok.mp h
  obtain ⟨compSize, hcompSize, h⟩ := bind_eq_ok.mp h
  obtain ⟨sizeof, hsizeof, h⟩ := bind_eq_ok.mp h
  obtain ⟨alloc, halloc, h⟩ := bind_eq_ok.mp h
  obtain ⟨visitGc, hvisitGc, h⟩ := bind_eq_ok.mp h
  exact ⟨offsets, compSize, sizeof, alloc, visitGc, hoffsets, hcompSize, hsizeof, halloc, hvisitGc,
    (pure_eq_ok.mp h).symm⟩

namespace Accessor

variable {w : PointerWidth} {l : Layout} {decls : List Decl} {f : Field} {g : Function}

/-! ## The functions of a layout -/

theorem map_name_eq_of_label {fs : List Function} (h : ∀ f ∈ fs, f.name = f.kind.name) :
    fs.map (·.name) = (fs.map (·.kind)).map FunctionKind.name := by
  rw [List.map_map]
  exact List.map_congr_left h

theorem label_of_offsetFunction {earlier : List Field} (h : offsetFunction w l earlier f = .ok g) :
    g.kind = .offset l.name f.name ∧ g.name = g.kind.name := by
  obtain ⟨e, -, h⟩ := bind_eq_ok.mp h
  cases pure_eq_ok.mp h
  exact ⟨rfl, rfl⟩

theorem label_of_offsetFunctionsFrom {earlier fs : List Field} {gs : List Function}
    (h : offsetFunctionsFrom w l earlier fs = .ok gs) :
    gs.map (·.kind) = fs.map (fun f => .offset l.name f.name) ∧ ∀ g ∈ gs, g.name = g.kind.name := by
  induction fs generalizing earlier gs with
  | nil =>
    cases h
    exact ⟨rfl, List.forall_mem_nil _⟩
  | cons f fs ih =>
    obtain ⟨g, hg, h⟩ := bind_eq_ok.mp h
    obtain ⟨rest, hrest, h⟩ := bind_eq_ok.mp h
    cases pure_eq_ok.mp h
    obtain ⟨hkind, hname⟩ := label_of_offsetFunction hg
    obtain ⟨hkinds, hnames⟩ := ih hrest
    exact ⟨by rw [List.map_cons, List.map_cons, hkind, hkinds],
      List.forall_mem_cons.mpr ⟨hname, hnames⟩⟩

theorem label_of_compSizeFunction (h : compSizeFunction w l = .ok g) :
    g.kind = .compSize l.name ∧ g.name = g.kind.name := by
  obtain ⟨_, -, h⟩ := bind_eq_ok.mp h
  obtain ⟨_, -, h⟩ := bind_eq_ok.mp h
  cases pure_eq_ok.mp h
  exact ⟨rfl, rfl⟩

theorem label_of_sizeofFunction (h : sizeofFunction l = .ok g) :
    g.kind = .sizeof l.name ∧ g.name = g.kind.name := by
  obtain ⟨_, -, h⟩ := bind_eq_ok.mp h
  cases pure_eq_ok.mp h
  exact ⟨rfl, rfl⟩

theorem label_of_allocFunction (h : allocFunction l = .ok g) :
    g.kind = .alloc l.name ∧ g.name = g.kind.name := by
  obtain ⟨_, -, h⟩ := bind_eq_ok.mp h
  obtain ⟨_, -, h⟩ := bind_eq_ok.mp h
  cases pure_eq_ok.mp h
  exact ⟨rfl, rfl⟩

theorem label_of_visitGcFunction (h : visitGcFunction l = .ok g) :
    g.kind = .visitGc l.name ∧ g.name = g.kind.name := by
  obtain ⟨_, -, h⟩ := bind_eq_ok.mp h
  cases pure_eq_ok.mp h
  exact ⟨rfl, rfl⟩

/-- The functions of a layout, one for each kind, and their names. -/
theorem label_of_layoutDecls (h : layoutDecls w l = .ok decls) :
    ∃ fs : List Function, decls = .const l.tagConstant .uint32 l.id :: fs.map .function ∧
      fs.map (·.kind) = kinds l ∧ ∀ f ∈ fs, f.name = f.kind.name := by
  obtain ⟨offsets, compSize, sizeof, alloc, visitGc, hoffsets, hcompSize, hsizeof, halloc, hvisitGc,
    rfl⟩ := parts_of_layoutDecls h
  obtain ⟨hkinds, hnames⟩ := label_of_offsetFunctionsFrom hoffsets
  obtain ⟨hcompSizeKind, hcompSizeName⟩ := label_of_compSizeFunction hcompSize
  obtain ⟨hsizeofKind, hsizeofName⟩ := label_of_sizeofFunction hsizeof
  obtain ⟨hallocKind, hallocName⟩ := label_of_allocFunction halloc
  obtain ⟨hvisitGcKind, hvisitGcName⟩ := label_of_visitGcFunction hvisitGc
  refine ⟨_, rfl, ?_, ?_⟩
  · simp only [kinds, List.map_append, List.map_map, List.map_cons, hkinds, hcompSizeKind,
      hsizeofKind, hallocKind, hvisitGcKind]
    rfl
  · simp only [List.mem_append, List.mem_map, List.mem_cons, List.not_mem_nil, or_false]
    rintro f (((hf | ⟨x, -, rfl⟩) | ⟨x, -, rfl⟩) | rfl | rfl | rfl | rfl)
    · exact hnames f hf
    · rfl
    · rfl
    all_goals assumption

theorem nodup_names_of_layoutDecls (hnames : (l.fields.map (·.name)).Nodup)
    (h : layoutDecls w l = .ok decls) :
    ((Program.ofDecls w decls).functions.map (·.name)).Nodup := by
  obtain ⟨fs, rfl, hkinds, hlabels⟩ := label_of_layoutDecls h
  rw [Program.functions_ofDecls, map_name_eq_of_label hlabels, hkinds]
  exact nodup_map_name_kinds hnames

end Accessor

/-- The declarations of a layout provide all of its accessors, if its fields have distinct names. -/
theorem implements_of_layoutDecls {w : PointerWidth} {l : Layout} {decls : List Decl}
    (hnames : (l.fields.map (·.name)).Nodup) (h : layoutDecls w l = .ok decls) :
    (Program.ofDecls w decls).Implements w l := by
  have hnodup := nodup_names_of_layoutDecls hnames h
  obtain ⟨offsets, compSize, sizeof, alloc, visitGc, hoffsets, hcompSize, hsizeof, halloc, hvisitGc,
    rfl⟩ := parts_of_layoutDecls h
  let functions := offsets ++ l.fields.map (getterFunction l) ++ l.fields.map (setterFunction l) ++
    [compSize, sizeof, alloc, visitGc]
  have hfind {g : Function} {k : FunctionKind} (hg : g ∈ functions)
      (hlabel : g.kind = k ∧ g.name = g.kind.name) :
      (Program.ofDecls w (.const l.tagConstant .uint32 l.id ::
        functions.map .function)).function? k.name = some g := by
    rw [← hlabel.1, ← hlabel.2]
    exact Program.function?_of_mem hnodup (by rwa [Program.functions_ofDecls])
  refine ⟨?offset, ?getter, ?setter,
    ⟨compSize, hcompSize, hfind (by simp [functions]) (label_of_compSizeFunction hcompSize)⟩,
    ⟨sizeof, hsizeof, hfind (by simp [functions]) (label_of_sizeofFunction hsizeof)⟩,
    ⟨alloc, halloc, hfind (by simp [functions]) (label_of_allocFunction halloc)⟩,
    ⟨visitGc, hvisitGc, hfind (by simp [functions]) (label_of_visitGcFunction hvisitGc)⟩⟩
  case offset =>
    intro k f hk
    obtain ⟨g, hg, hgf⟩ := exists_offsetFunction_of_getElem? hoffsets hk
    exact ⟨g, hgf, hfind (by simp [functions, hg]) (label_of_offsetFunction hgf)⟩
  case getter =>
    intro f hf
    have hmem : getterFunction l f ∈ functions := by
      simp only [functions, List.mem_append]
      exact .inl (.inl (.inr (List.mem_map_of_mem hf)))
    exact hfind (k := .get l.name f.name) hmem ⟨rfl, rfl⟩
  case setter =>
    intro f hf
    have hmem : setterFunction l f ∈ functions := by
      simp only [functions, List.mem_append]
      exact .inl (.inr (List.mem_map_of_mem hf))
    exact hfind (k := .set l.name f.name) hmem ⟨rfl, rfl⟩

/-- Synthesis succeeds on a well-formed layout, and provides all of its accessors. -/
theorem exists_layoutDecls {w : PointerWidth} {l : Layout} (h : l.WellFormed w) :
    ∃ decls, layoutDecls w l = .ok decls ∧ (Program.ofDecls w decls).Implements w l := by
  obtain ⟨offsets, hoffsets⟩ :=
    exists_offsetFunctionsFrom h (List.forall_mem_nil _) (fun _ hf => hf)
  obtain ⟨compSize, hcompSize⟩ := exists_compSizeFunction h
  obtain ⟨sizeof, hsizeof⟩ := exists_sizeofFunction h
  obtain ⟨alloc, halloc⟩ := exists_allocFunction h
  obtain ⟨visitGc, hvisitGc⟩ := exists_visitGcFunction h
  have hdecls : layoutDecls w l = .ok (.const l.tagConstant .uint32 l.id ::
      (offsets ++ l.fields.map (getterFunction l) ++ l.fields.map (setterFunction l) ++
        [compSize, sizeof, alloc, visitGc]).map .function) := by
    simp only [layoutDecls, hoffsets, hcompSize, hsizeof, halloc, hvisitGc]
    rfl
  exact ⟨_, hdecls, implements_of_layoutDecls h.names_nodup hdecls⟩

end Implements

end HeapLayout.Code
