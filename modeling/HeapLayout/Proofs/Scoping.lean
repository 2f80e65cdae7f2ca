import HeapLayout.Artifact.JS
import HeapLayout.Proofs.Naming
import HeapLayout.Proofs.Termwise

/-!
# Scopes

Generated code is closed: a variable is a parameter or a local in scope, a call names a declared
function and fits its parameters, and the heap context stands only where a callee takes it, in
functions that have it themselves. No name is bound while it is in scope already, which is what the
reserved names are for: parameters and locals named after fields stand beside the fixed ones.

The judgements are relative to a program. A layout's functions are well scoped in every program that
has functions with the signatures of that layout's (`Program.Provides`), hence in the layout's own
declarations as in those of a whole schema (`wellScoped_of_resolve`).
-/

namespace HeapLayout.Code

open HeapLayout (Layout Field FieldId PointerWidth LayoutDef)
open Accessor
open Schema (bind_eq_ok pure_eq_ok)

/-! ## Judgements -/

/-- As many arguments as parameters, and the heap context just where it is taken. -/
def Fits (args : List Expr) (params : List Param) : Prop :=
  List.Forall₂ (fun a q => a = .context ↔ q.type = .context) args params

def Program.HasSignature (p : Program) (name : String) (params : List Param) : Prop :=
  ∃ g ∈ p.functions, g.name = name ∧ g.params = params

/-- The expression refers to the names in `xs` and to the declarations of the program; `ctx` tells
whether there is a heap context. There is no rule for the heap context itself, as it is only an
argument. -/
inductive Expr.WellScoped (p : Program) (ctx : Bool) (xs : List String) : Expr → Prop
  | var {x : String} : x ∈ xs → WellScoped p ctx xs (.var x)
  | const {v : Int} : WellScoped p ctx xs (.const v)
  | layoutId {name : String} : p.constantNames.count name = 1 →
      WellScoped p ctx xs (.layoutId name)
  | undef {kind : UndefKind} : WellScoped p ctx xs (.undef kind)
  | bin {op : BinOp} {a b : Expr} : WellScoped p ctx xs a → WellScoped p ctx xs b →
      WellScoped p ctx xs (.bin op a b)
  | load {type : Prim} {base offset : Expr} : WellScoped p ctx xs base →
      WellScoped p ctx xs offset → WellScoped p ctx xs (.load type base offset)
  | invoke {name : String} {params : List Param} {args : List Expr} :
      p.HasSignature name params → Fits args params → (.context ∈ args → ctx = true) →
      (∀ a ∈ args, a ≠ .context → WellScoped p ctx xs a) →
      WellScoped p ctx xs (.call (.generated name) args)
  | gcForward {args : List Expr} : (.context ∈ args → ctx = true) →
      (∀ a ∈ args, a ≠ .context → WellScoped p ctx xs a) →
      WellScoped p ctx xs (.call .gcForward args)
  | alloc {size : Expr} {category : String} : ctx = true → WellScoped p ctx xs size →
      WellScoped p ctx xs (.alloc size category)

/-- The statements refer to names in scope, and bind names that are not. The first list are the
names in scope in front of the statements, the last list those behind. -/
inductive Stmt.Scopes (p : Program) (ctx : Bool) : List String → List Stmt → List String → Prop
  | nil {xs : List String} : Scopes p ctx xs [] xs
  | bind {xs ys : List String} {ss : List Stmt} {x : String} {type : Prim} {e : Expr} :
      e.WellScoped p ctx xs → x ∉ xs → Scopes p ctx (x :: xs) ss ys →
      Scopes p ctx xs (.bind x type e :: ss) ys
  | store {xs ys : List String} {ss : List Stmt} {type : Prim} {base offset e : Expr} :
      base.WellScoped p ctx xs → offset.WellScoped p ctx xs → e.WellScoped p ctx xs →
      Scopes p ctx xs ss ys → Scopes p ctx xs (.store type base offset e :: ss) ys
  | eval {xs ys : List String} {ss : List Stmt} {e : Expr} : e.WellScoped p ctx xs →
      Scopes p ctx xs ss ys → Scopes p ctx xs (.eval e :: ss) ys
  | ret {xs ys : List String} {ss : List Stmt} {e? : Option Expr} :
      (∀ e, e? = some e → e.WellScoped p ctx xs) → Scopes p ctx xs ss ys →
      Scopes p ctx xs (.ret e? :: ss) ys
  | cond {xs ys zs : List String} {ss body : List Stmt} {test : Expr} :
      test.WellScoped p ctx xs → Scopes p ctx xs body zs → Scopes p ctx xs ss ys →
      Scopes p ctx xs (.cond test body :: ss) ys
  | loop {xs ys zs : List String} {ss body : List Stmt} {counter : String} {bound : Expr} :
      bound.WellScoped p ctx xs → counter ∉ xs → Scopes p ctx (counter :: xs) body zs →
      Scopes p ctx xs ss ys → Scopes p ctx xs (.loop counter bound body :: ss) ys
  | unreachable {xs ys : List String} {ss : List Stmt} {message : String} :
      Scopes p ctx xs ss ys → Scopes p ctx xs (.unreachable message :: ss) ys

def Function.takesContext (f : Function) : Bool :=
  f.params.any fun q => q.type == .context

structure Function.WellScoped (f : Function) (p : Program) : Prop where
  params_nodup : (f.params.map (·.name)).Nodup
  body : ∃ ys, Stmt.Scopes p f.takesContext (f.params.map (·.name)) f.body ys

variable {p : Program} {ctx : Bool} {xs ys zs : List String} {w : PointerWidth} {l : Layout}
  {f s : Field} {i : FieldId}

/-! ## Arguments -/

/-- Without the heap context, there are as many arguments as parameters. -/
theorem Fits.length_passed {args : List Expr} {params : List Param} (h : Fits args params)
    (o : Artifact.JsOptions) :
    (Artifact.JS.passed o args).length = (Artifact.JS.params params).length := by
  induction h with
  | nil => rfl
  | @cons a q args params hq h ih =>
    by_cases ha : a = .context
    · subst ha
      have hq : q.type = .context := hq.mp rfl
      simpa [Artifact.JS.passed, Artifact.JS.params, hq] using ih
    · have hne : q.type ≠ .context := fun hq' => ha (hq.mpr hq')
      simpa [Artifact.JS.passed, Artifact.JS.params, ha, hne] using ih

namespace Expr.WellScoped

variable {a b : Expr} {args : List Expr} {params : List Param} {name : String}

theorem ne_context (h : a.WellScoped p ctx xs) : a ≠ .context := by
  rintro rfl
  cases h

theorem not_context_mem (h : ∀ a ∈ args, a.WellScoped p ctx xs) : .context ∉ args :=
  fun hmem => (h _ hmem).ne_context rfl

/-- A call that passes no heap context. -/
theorem invoke_of_forall (hsig : p.HasSignature name params) (hfits : Fits args params)
    (hargs : ∀ a ∈ args, a.WellScoped p ctx xs) : (Expr.invoke name args).WellScoped p ctx xs :=
  .invoke hsig hfits (fun hmem => absurd hmem (not_context_mem hargs)) fun a ha _ => hargs a ha

theorem termwise : Termwise (Expr.WellScoped p ctx xs) where
  const _ := .const
  bin _ _ _ := by
    constructor
    · rintro ⟨⟩
      exact ⟨‹_›, ‹_›⟩
    · exact fun h => .bin h.1 h.2

end Expr.WellScoped

namespace Stmt.Scopes

variable {ss ts : List Stmt}

theorem append (h : Scopes p ctx xs ss ys) (h' : Scopes p ctx ys ts zs) :
    Scopes p ctx xs (ss ++ ts) zs := by
  induction h with
  | nil => exact h'
  | bind he hx _ ih => exact .bind he hx (ih h')
  | store hbase hoffset he _ ih => exact .store hbase hoffset he (ih h')
  | eval he _ ih => exact .eval he (ih h')
  | ret he _ ih => exact .ret he (ih h')
  | cond htest hbody _ _ ih => exact .cond htest hbody (ih h')
  | loop hbound hcounter hbody _ _ ih => exact .loop hbound hcounter hbody (ih h')
  | unreachable _ ih => exact .unreachable (ih h')

/-- Statements that bind nothing can stand in any order. -/
theorem of_forall (h : ∀ s ∈ ss, Scopes p ctx xs [s] xs) : Scopes p ctx xs ss xs := by
  induction ss with
  | nil => exact .nil
  | cons s ss ih =>
    obtain ⟨hs, hss⟩ := List.forall_mem_cons.mp h
    exact hs.append (ih hss)

end Stmt.Scopes

/-! ## Signatures of a layout -/

/-- The parameters of a setter. -/
def setterParams (f : Field) : List Param :=
  slotParams f ++ [{ name := Name.value, type := .prim f.type }]

/-- The program has functions with the signatures of a layout's functions. -/
structure Program.Provides (p : Program) (l : Layout) : Prop where
  offset : ∀ f ∈ l.fields, p.HasSignature (Name.offset l.name f.name) (slotParams f)
  getter : ∀ f ∈ l.fields, p.HasSignature (Name.getter l.name f.name) (slotParams f)
  setter : ∀ f ∈ l.fields, p.HasSignature (Name.setter l.name f.name) (setterParams f)
  compSize : ∀ sizes, sizeFields l = .ok sizes →
    p.HasSignature (Name.compSize l.name) (sizes.map countParam)
  sizeof : p.HasSignature (Name.sizeof l.name) [objectParam]
  visitGc : p.HasSignature (Name.visitGc l.name) [contextParam, objectParam]

/-- A program that has all functions of a layout provides their signatures. -/
theorem Program.Implements.provides {q : Program} (h : q.Implements w l)
    (hsub : ∀ g ∈ q.functions, g ∈ p.functions) : p.Provides l := by
  have hsig {name : String} {g : Function} (hg : q.function? name = some g) :
      p.HasSignature name g.params :=
    ⟨g, hsub g (List.mem_of_find?_eq_some hg), by simpa using List.find?_some hg, rfl⟩
  refine ⟨?_, ?_, ?_, ?_, ?_, ?_⟩
  · intro f hf
    obtain ⟨k, hk⟩ := List.mem_iff_getElem?.mp hf
    obtain ⟨g, hg, hfind⟩ := h.offset hk
    obtain ⟨e, -, hg⟩ := bind_eq_ok.mp hg
    cases pure_eq_ok.mp hg
    exact hsig hfind
  · intro f hf
    exact hsig (h.getter f hf)
  · intro f hf
    exact hsig (h.setter f hf)
  · intro sizes hsizes
    obtain ⟨g, hg, hfind⟩ := h.compSize
    obtain ⟨sizes', hsizes', hg⟩ := bind_eq_ok.mp hg
    obtain ⟨total, -, hg⟩ := bind_eq_ok.mp hg
    cases pure_eq_ok.mp hg
    cases hsizes.symm.trans hsizes'
    exact hsig hfind
  · obtain ⟨g, hg, hfind⟩ := h.sizeof
    obtain ⟨sizes, -, hg⟩ := bind_eq_ok.mp hg
    cases pure_eq_ok.mp hg
    exact hsig hfind
  · obtain ⟨g, hg, hfind⟩ := h.visitGc
    obtain ⟨body, -, hg⟩ := bind_eq_ok.mp hg
    cases pure_eq_ok.mp hg
    exact hsig hfind

/-! ## Slots -/

/-- What selects a slot of the field is in scope. -/
structure SlotInScope (f : Field) (xs : List String) : Prop where
  object : Name.object ∈ xs
  index : f.isVariable = true → Name.index ∈ xs

theorem SlotInScope.congr (h : SlotInScope f xs) (hs : s.sizeField = f.sizeField) :
    SlotInScope s xs :=
  ⟨h.object, fun hf => h.index (by rwa [Field.isVariable, ← hs])⟩

theorem SlotInScope.of_none (hobject : Name.object ∈ xs) (hnone : f.sizeField = none) :
    SlotInScope f xs :=
  ⟨hobject, by simp [Field.isVariable, hnone]⟩

theorem slotInScope_params (f : Field) : SlotInScope f ((slotParams f).map (·.name)) := by
  unfold slotParams
  split
  · exact ⟨by decide, fun _ => by decide⟩
  · next hf => exact ⟨by decide, fun hf' => absurd hf' hf⟩

theorem nodup_slotParams (f : Field) : ((slotParams f).map (·.name)).Nodup := by
  unfold slotParams
  split <;> decide

theorem nodup_setterParams (f : Field) : ((setterParams f).map (·.name)).Nodup := by
  unfold setterParams slotParams
  split <;> simp [objectParam, indexParam, Name.object, Name.index, Name.value]

theorem fits_slotArgs (f : Field) : Fits (slotArgs f) (slotParams f) := by
  have hobject : object = .context ↔ objectParam.type = .context := by simp [object, objectParam]
  have hindex : index = .context ↔ indexParam.type = .context := by simp [index, indexParam]
  unfold slotArgs slotParams
  split
  · exact .cons hobject (.cons hindex .nil)
  · exact .cons hobject .nil

theorem scoped_object (h : Name.object ∈ xs) : object.WellScoped p ctx xs :=
  .var h

theorem scoped_slotArgs (h : SlotInScope f xs) : ∀ a ∈ slotArgs f, a.WellScoped p ctx xs := by
  unfold slotArgs
  split
  · next hf => simpa using ⟨scoped_object h.object, .var (h.index hf)⟩
  · simpa using scoped_object h.object

section Calls

variable (hprov : p.Provides l)
include hprov

theorem scoped_callOffset (hf : f ∈ l.fields) (h : SlotInScope f xs) :
    (callOffset l f).WellScoped p ctx xs :=
  .invoke_of_forall (hprov.offset f hf) (fits_slotArgs f) (scoped_slotArgs h)

theorem scoped_callGetter (hf : f ∈ l.fields) (h : SlotInScope f xs) :
    (callGetter l f.name (slotArgs f)).WellScoped p ctx xs :=
  .invoke_of_forall (hprov.getter f hf) (fits_slotArgs f) (scoped_slotArgs h)

theorem scoped_callSetter (hf : f ∈ l.fields) {e : Expr} (h : SlotInScope f xs)
    (he : e.WellScoped p ctx xs) :
    (callSetter l f.name (slotArgs f ++ [e])).WellScoped p ctx xs := by
  refine .invoke_of_forall (hprov.setter f hf) ?_ ?_
  · exact List.rel_append (fits_slotArgs f) (.cons (by simp [he.ne_context]) .nil)
  · intro a ha
    rcases List.mem_append.mp ha with ha | ha
    · exact scoped_slotArgs h a ha
    · exact List.mem_singleton.mp ha ▸ he

theorem scoped_callSetter_of_none (hf : f ∈ l.fields) (hnone : f.sizeField = none) {e : Expr}
    (h : Name.object ∈ xs) (he : e.WellScoped p ctx xs) :
    (callSetter l f.name [object, e]).WellScoped p ctx xs := by
  have hcall : (callSetter l f.name (slotArgs f ++ [e])).WellScoped p ctx xs :=
    scoped_callSetter hprov hf (.of_none h hnone) he
  rwa [slotArgs_of_none hnone] at hcall

/-- The count in a size field is read from the object. -/
theorem scoped_storedCount (hf : f ∈ l.fields) (hnone : f.sizeField = none)
    (h : Name.object ∈ xs) : (storedCount l f).WellScoped p ctx xs := by
  have hcall : (callGetter l f.name (slotArgs f)).WellScoped p ctx xs :=
    scoped_callGetter hprov hf (.of_none h hnone)
  rwa [slotArgs_of_none hnone] at hcall

/-- Counts are passed to the size function, one for each size field. -/
theorem scoped_callCompSize {sizes : List Field} (hsizes : sizeFields l = .ok sizes)
    {count : Field → Expr} (hcount : ∀ s ∈ sizes, (count s).WellScoped p ctx xs) :
    (Expr.invoke (Name.compSize l.name) (sizes.map count)).WellScoped p ctx xs := by
  refine .invoke_of_forall (hprov.compSize sizes hsizes) ?_ ?_
  · refine List.forall₂_map_left_iff.mpr (List.forall₂_map_right_iff.mpr ?_)
    refine List.forall₂_same.mpr ?_
    intro s hs
    simp [countParam, (hcount s hs).ne_context]
  · intro a ha
    obtain ⟨s, hs, rfl⟩ := List.mem_map.mp ha
    exact hcount s hs

end Calls

/-! ## Initial values -/

theorem scoped_initExpr (c : InitConst) : (initExpr c).WellScoped p ctx xs := by
  cases c with
  | int v => exact .const
  | null => exact .const
  | undefWord => exact .undef
  | undefType => exact .undef

theorem scopes_writeInit (hprov : p.Provides l) (hf : f ∈ l.fields) (hobject : Name.object ∈ xs)
    (hindex : Name.index ∉ xs)
    (hcounts : ∀ i s, f.sizeField = some i → l.fields[i]? = some s → s.name ∈ xs) {c : InitConst}
    {st : Stmt} (h : writeInit l f (initExpr c) = .ok st) : Stmt.Scopes p ctx xs [st] xs := by
  unfold writeInit at h
  split at h
  · next hnone =>
    cases pure_eq_ok.mp h
    exact .eval (scoped_callSetter_of_none hprov hf hnone hobject (scoped_initExpr c)) .nil
  · next i hi =>
    obtain ⟨s, hs, h⟩ := bind_eq_ok.mp h
    cases pure_eq_ok.mp h
    have hslot : SlotInScope f (Name.index :: xs) :=
      ⟨List.mem_cons_of_mem _ hobject, fun _ => List.mem_cons_self⟩
    have hcall : (callSetter l f.name (slotArgs f ++ [initExpr c])).WellScoped p ctx _ :=
      scoped_callSetter hprov hf hslot (scoped_initExpr c)
    rw [slotArgs_of_some hi] at hcall
    exact .loop (.var (hcounts i s hi (getElem?_of_binding hs))) hindex (.eval hcall .nil) .nil

theorem scopes_writeInits (hprov : p.Provides l) {fs : List Field} (hfs : ∀ f ∈ fs, f ∈ l.fields)
    (hobject : Name.object ∈ xs) (hindex : Name.index ∉ xs)
    (hcounts : ∀ f ∈ l.fields, ∀ i s, f.sizeField = some i → l.fields[i]? = some s → s.name ∈ xs)
    {ss : List Stmt} (h : writeInits l fs = .ok ss) : Stmt.Scopes p ctx xs ss xs := by
  induction fs generalizing ss with
  | nil =>
    cases h
    exact .nil
  | cons f fs ih =>
    obtain ⟨hf, hfs⟩ := List.forall_mem_cons.mp hfs
    rw [writeInits] at h
    split at h
    · exact ih hfs h
    · obtain ⟨st, hst, h⟩ := bind_eq_ok.mp h
      obtain ⟨rest, hrest, h⟩ := bind_eq_ok.mp h
      cases pure_eq_ok.mp h
      exact (scopes_writeInit hprov hf hobject hindex (hcounts f hf) hst).append (ih hfs hrest)

/-! ## Counts as parameters -/

theorem map_name_countParam (sizes : List Field) :
    (sizes.map countParam).map (·.name) = sizes.map (·.name) := by
  rw [List.map_map]
  rfl

theorem mem_iff_of_forall₂ {is : List FieldId} {sizes : List Field}
    (h : List.Forall₂ (fun i s => l.fields[i]? = some s) is sizes) :
    s ∈ sizes ↔ ∃ i ∈ is, l.fields[i]? = some s := by
  induction h with
  | nil => simp
  | @cons i t is sizes ht _ ih =>
    constructor
    · intro hs
      rcases List.mem_cons.mp hs with rfl | hs
      · exact ⟨i, List.mem_cons_self, ht⟩
      · obtain ⟨j, hj, hs⟩ := ih.mp hs
        exact ⟨j, List.mem_cons_of_mem i hj, hs⟩
    · rintro ⟨j, hj, hs⟩
      rcases List.mem_cons.mp hj with rfl | hj
      · exact List.mem_cons.mpr (.inl (Option.some.inj (hs.symm.trans ht)))
      · exact List.mem_cons_of_mem t (ih.mpr ⟨j, hj, hs⟩)

section Sizes

variable {sizes : List Field}

/-- The size fields of a layout are those that its list names. -/
theorem mem_sizes_iff (hsizes : sizeFields l = .ok sizes) :
    s ∈ sizes ↔ ∃ i ∈ l.sizeFields, l.fields[i]? = some s :=
  mem_iff_of_forall₂ (forall₂_of_sizeFields hsizes)

variable (hwf : l.WellFormed w) (hsizes : sizeFields l = .ok sizes)
include hwf hsizes

theorem mem_sizes_of_sizeField (hf : f ∈ l.fields) (hi : f.sizeField = some i)
    (hs : l.fields[i]? = some s) : s ∈ sizes :=
  (mem_sizes_iff hsizes).mpr ⟨i, hwf.mem_sizeFields_iff.mpr ⟨f, hf, hi⟩, hs⟩

theorem single_of_mem_sizes (hs : s ∈ sizes) : s ∈ l.fields ∧ s.sizeField = none := by
  obtain ⟨i, hi, hget⟩ := (mem_sizes_iff hsizes).mp hs
  exact ⟨List.mem_of_getElem? hget, hwf.sizeField_eq_none hi hget⟩

theorem not_mem_sizes {x : String} (hx : x ∈ Name.reserved) : x ∉ sizes.map (·.name) := by
  intro hmem
  obtain ⟨s, hs, rfl⟩ := List.mem_map.mp hmem
  exact hwf.not_reserved s (single_of_mem_sizes hwf hsizes hs).1 hx

theorem nodup_sizes : (sizes.map (·.name)).Nodup := by
  have hrel := forall₂_of_sizeFields hsizes
  have hnodup := hwf.nodup_sizeFields
  clear hsizes
  generalize l.sizeFields = is at hrel hnodup
  induction hrel with
  | nil => exact List.nodup_nil
  | @cons i s is sizes hs hrel ih =>
    obtain ⟨hi, hnodup⟩ := List.nodup_cons.mp hnodup
    refine List.nodup_cons.mpr ⟨?_, ih hnodup⟩
    intro hmem
    obtain ⟨t, ht, hname⟩ := List.mem_map.mp hmem
    obtain ⟨j, hj, ht⟩ := (mem_iff_of_forall₂ hrel).mp ht
    exact hi (hwf.eq_of_name_eq ht hs hname ▸ hj)

end Sizes

/-! ## The functions of a layout -/

section Functions

variable (hwf : l.WellFormed w) (hprov : p.Provides l) {g : Function}

include hwf hprov in
theorem scoped_offsetExpr {earlier : List Field} (hfs : ∀ f ∈ earlier, f ∈ l.fields) {e : Expr}
    (h : offsetExpr w l earlier f = .ok e) (hslot : SlotInScope f xs) :
    e.WellScoped p ctx xs := by
  obtain ⟨sizes, hsizes⟩ := exists_sizeFields hwf
  refine Expr.WellScoped.termwise.foldClosed.offsetExpr ?_ (fun hf => .var (hslot.index hf)) h
  intro g hg i s hi hs
  obtain ⟨hmem, hnone⟩ :=
    single_of_mem_sizes hwf hsizes (mem_sizes_of_sizeField hwf hsizes (hfs g hg) hi hs)
  exact scoped_storedCount hprov hmem hnone hslot.object

include hwf hprov in
theorem wellScoped_offsetFunction {earlier : List Field} (hfs : ∀ f ∈ earlier, f ∈ l.fields)
    (h : offsetFunction w l earlier f = .ok g) : g.WellScoped p := by
  obtain ⟨e, he, h⟩ := bind_eq_ok.mp h
  cases pure_eq_ok.mp h
  refine ⟨nodup_slotParams f, _, .ret ?_ .nil⟩
  rintro e' ⟨⟩
  exact scoped_offsetExpr hwf hprov hfs he (slotInScope_params f)

include hprov in
theorem wellScoped_getterFunction (hf : f ∈ l.fields) : (getterFunction l f).WellScoped p := by
  have hslot := slotInScope_params f
  refine ⟨nodup_slotParams f, _, .ret ?_ .nil⟩
  rintro e ⟨⟩
  exact .load (scoped_object hslot.object) (scoped_callOffset hprov hf hslot)

include hprov in
theorem wellScoped_setterFunction (hf : f ∈ l.fields) : (setterFunction l f).WellScoped p := by
  have hnames : (setterParams f).map (·.name) = (slotParams f).map (·.name) ++ [Name.value] := by
    rw [setterParams, List.map_append]
    rfl
  have hslot : SlotInScope f ((setterParams f).map (·.name)) := by
    have h := slotInScope_params f
    rw [hnames]
    exact ⟨List.mem_append_left _ h.object, fun hf => List.mem_append_left _ (h.index hf)⟩
  have hvalue : Name.value ∈ (setterParams f).map (·.name) := by
    rw [hnames]
    exact List.mem_append_right _ (List.mem_singleton_self _)
  exact ⟨nodup_setterParams f, _,
    .store (scoped_object hslot.object) (scoped_callOffset hprov hf hslot) (.var hvalue) .nil⟩

include hwf

theorem wellScoped_compSizeFunction (h : compSizeFunction w l = .ok g) : g.WellScoped p := by
  obtain ⟨sizes, hsizes, h⟩ := bind_eq_ok.mp h
  obtain ⟨total, htotal, h⟩ := bind_eq_ok.mp h
  cases pure_eq_ok.mp h
  refine ⟨?_, _, .ret ?_ .nil⟩
  · rw [map_name_countParam]
    exact nodup_sizes hwf hsizes
  · rintro e ⟨⟩
    rw [map_name_countParam]
    refine Expr.WellScoped.termwise.foldClosed.prefixSum ?_ htotal
    intro f hf i s hi hs
    exact .var (List.mem_map_of_mem (mem_sizes_of_sizeField hwf hsizes hf hi hs))

include hprov

theorem wellScoped_sizeofFunction (h : sizeofFunction l = .ok g) : g.WellScoped p := by
  obtain ⟨sizes, hsizes, h⟩ := bind_eq_ok.mp h
  cases pure_eq_ok.mp h
  refine ⟨List.nodup_singleton _, _, .ret ?_ .nil⟩
  rintro e ⟨⟩
  refine scoped_callCompSize hprov hsizes ?_
  intro s hs
  obtain ⟨hmem, hnone⟩ := single_of_mem_sizes hwf hsizes hs
  exact scoped_storedCount hprov hmem hnone List.mem_cons_self

theorem wellScoped_allocFunction (h : allocFunction l = .ok g) : g.WellScoped p := by
  obtain ⟨sizes, hsizes, h⟩ := bind_eq_ok.mp h
  obtain ⟨inits, hinits, h⟩ := bind_eq_ok.mp h
  cases pure_eq_ok.mp h
  have hnames : (contextParam :: sizes.map countParam).map (·.name) =
      Name.context :: sizes.map (·.name) := by
    rw [List.map_cons, map_name_countParam]
    rfl
  have hfresh {x : String} (hx : x ∈ Name.reserved) (hne : x ≠ Name.context) :
      x ∉ Name.context :: sizes.map (·.name) :=
    List.not_mem_cons_of_ne_of_not_mem hne (not_mem_sizes hwf hsizes hx)
  have hparam : ∀ s ∈ sizes, s.name ∈ Name.context :: sizes.map (·.name) := by
    intro s hs
    exact List.mem_cons_of_mem _ (List.mem_map_of_mem hs)
  refine ⟨?_, Name.object :: Name.context :: sizes.map (·.name), ?_⟩
  · rw [hnames]
    exact List.nodup_cons.mpr ⟨not_mem_sizes hwf hsizes (by decide), nodup_sizes hwf hsizes⟩
  rw [hnames]
  refine .bind (.alloc rfl ?_) (hfresh (by decide) (by decide)) ?_
  · exact scoped_callCompSize hprov hsizes fun s hs => .var (hparam s hs)
  refine .append (.append (.of_forall ?_) ?_) (.ret ?_ .nil)
  · intro st hst
    obtain ⟨s, hs, rfl⟩ := List.mem_map.mp hst
    obtain ⟨hmem, hnone⟩ := single_of_mem_sizes hwf hsizes hs
    have hcount := List.mem_cons_of_mem Name.object (hparam s hs)
    exact .eval (scoped_callSetter_of_none hprov hmem hnone List.mem_cons_self (.var hcount)) .nil
  · refine scopes_writeInits hprov (fun _ hf => hf) List.mem_cons_self ?_ ?_ hinits
    · exact List.not_mem_cons_of_ne_of_not_mem (by decide) (hfresh (by decide) (by decide))
    · intro f hf i s hi hs
      exact List.mem_cons_of_mem _ (hparam s (mem_sizes_of_sizeField hwf hsizes hf hi hs))
  · rintro e ⟨⟩
    exact scoped_object List.mem_cons_self

/-! ## Visiting -/

/-- The names in scope while fields are visited, those in `read` having been bound as counts. -/
def visitScope (read : List String) : List String :=
  read ++ [Name.context, Name.object]

omit hwf hprov

theorem object_mem_visitScope (read : List String) : Name.object ∈ visitScope read :=
  List.mem_append_right _ (by decide)

theorem not_mem_visitScope {read : List String} {x : String} (hread : x ∉ read)
    (hx : x ∉ Name.reserved) : x ∉ visitScope read := by
  intro hmem
  rcases List.mem_append.mp hmem with hmem | hmem
  · exact hread hmem
  · exact hx ((show [Name.context, Name.object] ⊆ Name.reserved by decide) hmem)

include hprov

/-- The collector is handed the heap context, the value and, if the field has one, its type tag. -/
theorem scoped_forwardArgs (hwf : l.WellFormed w) (hf : f ∈ l.fields) (hslot : SlotInScope f xs)
    {args : List Expr} (h : forwardArgs l f = .ok args) :
    (Expr.gcForward args).WellScoped p true xs := by
  have hvalue : (callGetter l f.name (slotArgs f)).WellScoped p true xs :=
    scoped_callGetter hprov hf hslot
  refine .gcForward (fun _ => rfl) ?_
  intro a ha hne
  unfold forwardArgs at h
  split at h
  · cases pure_eq_ok.mp h
    simp only [List.mem_cons, List.not_mem_nil, or_false] at ha
    rcases ha with rfl | rfl
    · exact absurd rfl hne
    · exact hvalue
  · next i hi =>
    obtain ⟨t, ht, h⟩ := bind_eq_ok.mp h
    cases pure_eq_ok.mp h
    obtain ⟨t', ht', hsize⟩ := hwf.typeField f hf i hi
    cases (getElem?_of_binding ht).symm.trans ht'
    have htype : (callGetter l t.name (slotArgs t)).WellScoped p true xs :=
      scoped_callGetter hprov (List.mem_of_getElem? ht') (hslot.congr hsize)
    simp only [List.mem_cons, List.not_mem_nil, or_false] at ha
    rcases ha with rfl | rfl | rfl
    · exact absurd rfl hne
    · exact hvalue
    · exact htype

include hwf

theorem scopes_forwardSlot (hf : f ∈ l.fields) (hslot : SlotInScope f xs) {st : Stmt}
    (h : forwardSlot l f = .ok st) : Stmt.Scopes p true xs [st] xs := by
  obtain ⟨args, hargs, h⟩ := bind_eq_ok.mp h
  cases pure_eq_ok.mp h
  exact .eval (scoped_callSetter hprov hf hslot (scoped_forwardArgs hprov hwf hf hslot hargs)) .nil

theorem scopes_visitLoop (hf : f ∈ l.fields) {read : List String}
    (hread : ∀ x ∈ read, x ∉ Name.reserved) (hcount : s.name ∈ read) {forward : Stmt}
    (hforward : forwardSlot l f = .ok forward) :
    Stmt.Scopes p true (visitScope read) [.loop Name.index (passedCount s) [forward]]
      (visitScope read) := by
  have hslot : SlotInScope f (Name.index :: visitScope read) :=
    ⟨List.mem_cons_of_mem _ (object_mem_visitScope read), fun _ => List.mem_cons_self⟩
  have hindex : Name.index ∉ visitScope read := by
    intro hi
    rcases List.mem_append.mp hi with hi | hi
    · exact hread _ hi (by decide)
    · exact absurd hi (by decide)
  exact .loop (.var (List.mem_append_left _ hcount)) hindex
    (scopes_forwardSlot hwf hprov hf hslot hforward) .nil

theorem scopes_visitFields {fs : List Field} (hfs : ∀ f ∈ fs, f ∈ l.fields) {read : List String}
    (hread : ∀ x ∈ read, x ∉ Name.reserved) {ss : List Stmt}
    (h : visitFields l read fs = .ok ss) :
    ∃ ys, Stmt.Scopes p true (visitScope read) ss ys := by
  induction fs generalizing read ss with
  | nil =>
    cases h
    exact ⟨_, .nil⟩
  | cons f fs ih =>
    obtain ⟨hf, hfs⟩ := List.forall_mem_cons.mp hfs
    have hobject := object_mem_visitScope read
    obtain ⟨forward, hforward, h⟩ := bind_eq_ok.mp h
    split at h
    · next hnone =>
      obtain ⟨rest, hrest, h⟩ := bind_eq_ok.mp h
      cases pure_eq_ok.mp h
      obtain ⟨ys, hys⟩ := ih hfs hread hrest
      exact ⟨ys, (scopes_forwardSlot hwf hprov hf (.of_none hobject hnone) hforward).append hys⟩
    · next i hi =>
      obtain ⟨s, hs, h⟩ := bind_eq_ok.mp h
      have hget := getElem?_of_binding hs
      have hmem := List.mem_of_getElem? hget
      split at h
      · next hold =>
        obtain ⟨rest, hrest, h⟩ := bind_eq_ok.mp h
        cases pure_eq_ok.mp h
        obtain ⟨ys, hys⟩ := ih hfs hread hrest
        exact ⟨ys, (scopes_visitLoop hwf hprov hf hread hold hforward).append hys⟩
      -- The count is bound in front of the loop, and stays in scope for all that follow.
      · next hnew =>
        obtain ⟨rest, hrest, h⟩ := bind_eq_ok.mp h
        cases pure_eq_ok.mp h
        have hreserved := hwf.not_reserved s hmem
        have hread' : ∀ x ∈ s.name :: read, x ∉ Name.reserved :=
          List.forall_mem_cons.mpr ⟨hreserved, hread⟩
        obtain ⟨ys, hys⟩ := ih hfs hread' hrest
        have hnone := hwf.sizeField_eq_none (hwf.mem_sizeFields_iff.mpr ⟨f, hf, hi⟩) hget
        have hloop := scopes_visitLoop hwf hprov hf hread' List.mem_cons_self hforward
        exact ⟨ys, .bind (scoped_storedCount hprov hmem hnone hobject)
          (not_mem_visitScope hnew hreserved) (hloop.append hys)⟩

theorem wellScoped_visitGcFunction (h : visitGcFunction l = .ok g) : g.WellScoped p := by
  obtain ⟨body, hbody, h⟩ := bind_eq_ok.mp h
  cases pure_eq_ok.mp h
  have hnames : ([contextParam, objectParam].map (·.name)).Nodup := by decide
  exact ⟨hnames, scopes_visitFields hwf hprov (fun _ hf => List.mem_of_mem_filter hf)
    (List.forall_mem_nil _) hbody⟩

end Functions

/-! ## Dispatchers -/

theorem scopes_body {name : String} {arm : Layout → List Stmt} {ls : List Layout}
    (hobject : Name.object ∈ xs) (htag : Name.tag ∉ xs)
    (harm : ∀ l ∈ ls, p.constantNames.count l.tagConstant = 1 ∧
      ∃ ys, Stmt.Scopes p ctx (Name.tag :: xs) (arm l) ys) :
    Stmt.Scopes p ctx xs (Dispatch.body w name arm ls) (Name.tag :: xs) := by
  refine .bind (.load (scoped_object hobject) .const) htag ?_
  refine .append (.of_forall ?_) (.unreachable .nil)
  intro st hst
  obtain ⟨l, hl, rfl⟩ := List.mem_map.mp hst
  obtain ⟨hcount, ys, hys⟩ := harm l hl
  exact .cond (.bin (.var List.mem_cons_self) (.layoutId hcount)) hys .nil

section Dispatch

variable {ls : List Layout} (hprov : ∀ l ∈ ls, p.Provides l)
  (hcount : ∀ l ∈ ls, p.constantNames.count l.tagConstant = 1)
include hprov hcount

theorem wellScoped_dispatchSizeof : (Dispatch.sizeofFunction w ls).WellScoped p := by
  have hnames : ([objectParam].map (·.name)).Nodup := by decide
  have hobject : Name.object ∈ [objectParam].map (·.name) := by decide
  have htag : Name.tag ∉ [objectParam].map (·.name) := by decide
  refine ⟨hnames, _, scopes_body hobject htag ?_⟩
  intro l hl
  refine ⟨hcount l hl, _, .ret ?_ .nil⟩
  rintro e ⟨⟩
  refine .invoke_of_forall (hprov l hl).sizeof (.cons ?_ .nil) ?_
  · simp [object, objectParam]
  · exact List.forall_mem_singleton.mpr (scoped_object (List.mem_cons_of_mem Name.tag hobject))

theorem wellScoped_dispatchVisitGc : (Dispatch.visitGcFunction w ls).WellScoped p := by
  have hnames : ([contextParam, objectParam].map (·.name)).Nodup := by decide
  have hobject : Name.object ∈ [contextParam, objectParam].map (·.name) := by decide
  have htag : Name.tag ∉ [contextParam, objectParam].map (·.name) := by decide
  refine ⟨hnames, _, scopes_body hobject htag ?_⟩
  intro l hl
  refine ⟨hcount l hl, _, .eval (.invoke (hprov l hl).visitGc ?_ (fun _ => rfl) ?_) (.ret ?_ .nil)⟩
  · exact .cons (by simp [contextParam]) (.cons (by simp [object, objectParam]) .nil)
  · intro a ha hne
    simp only [List.mem_cons, List.not_mem_nil, or_false] at ha
    rcases ha with rfl | rfl
    · exact absurd rfl hne
    · exact scoped_object (List.mem_cons_of_mem Name.tag hobject)
  · rintro e ⟨⟩

end Dispatch

/-! ## Whole programs -/

/-- Every offset function comes from a field and those in front of it. -/
theorem exists_of_mem_offsetFunctionsFrom {earlier fs : List Field} {gs : List Function}
    {g : Function} (h : offsetFunctionsFrom w l earlier fs = .ok gs) (hg : g ∈ gs) :
    ∃ k f, fs[k]? = some f ∧ offsetFunction w l (earlier ++ fs.take k) f = .ok g := by
  induction fs generalizing earlier gs with
  | nil =>
    cases h
    cases hg
  | cons f fs ih =>
    obtain ⟨g', hg', h⟩ := bind_eq_ok.mp h
    obtain ⟨rest, hrest, h⟩ := bind_eq_ok.mp h
    cases pure_eq_ok.mp h
    rcases List.mem_cons.mp hg with rfl | hg
    · exact ⟨0, f, rfl, by simpa using hg'⟩
    · obtain ⟨k, f', hk, hoffset⟩ := ih hrest hg
      exact ⟨k + 1, f', hk, by simpa using hoffset⟩

/-- A layout's functions are well scoped in every program that provides their signatures. -/
theorem wellScoped_of_layoutDecls (hwf : l.WellFormed w) (hprov : p.Provides l) {decls : List Decl}
    (h : layoutDecls w l = .ok decls) :
    ∀ g ∈ (Program.ofDecls w decls).functions, g.WellScoped p := by
  obtain ⟨offsets, compSize, sizeof, alloc, visitGc, hoffsets, hcompSize, hsizeof, halloc, hvisitGc,
    rfl⟩ := parts_of_layoutDecls h
  rw [Program.functions_ofDecls]
  simp only [List.mem_append, List.mem_map, List.mem_cons, List.not_mem_nil, or_false]
  rintro g (((hg | ⟨f, hf, rfl⟩) | ⟨f, hf, rfl⟩) | rfl | rfl | rfl | rfl)
  · obtain ⟨k, f, -, hoffset⟩ := exists_of_mem_offsetFunctionsFrom hoffsets hg
    exact wellScoped_offsetFunction hwf hprov (fun _ hf => List.mem_of_mem_take hf) hoffset
  · exact wellScoped_getterFunction hprov hf
  · exact wellScoped_setterFunction hprov hf
  · exact wellScoped_compSizeFunction hwf hcompSize
  · exact wellScoped_sizeofFunction hwf hprov hsizeof
  · exact wellScoped_allocFunction hwf hprov halloc
  · exact wellScoped_visitGcFunction hwf hprov hvisitGc

theorem mem_layoutsDecls_iff {ls : List Layout} {decls : List Decl}
    (h : layoutsDecls w ls = .ok decls) {d : Decl} :
    d ∈ decls ↔ ∃ l ∈ ls, ∃ own, layoutDecls w l = .ok own ∧ d ∈ own := by
  induction ls generalizing decls with
  | nil =>
    cases h
    simp
  | cons l ls ih =>
    obtain ⟨own, hown, h⟩ := bind_eq_ok.mp h
    obtain ⟨rest, hrest, h⟩ := bind_eq_ok.mp h
    cases pure_eq_ok.mp h
    rw [List.mem_append, ih hrest, List.exists_mem_cons_iff]
    simp [hown]

/-- The functions of a program are those of its layouts, and the dispatchers. -/
theorem mem_functions_ofLayouts_iff {ls : List Layout} (h : Program.ofLayouts w ls = .ok p)
    {g : Function} :
    g ∈ p.functions ↔
      (∃ l ∈ ls, ∃ own, layoutDecls w l = .ok own ∧ g ∈ (Program.ofDecls w own).functions) ∨
        g = Dispatch.sizeofFunction w ls ∨ g = Dispatch.visitGcFunction w ls := by
  obtain ⟨decls, hdecls, h⟩ := bind_eq_ok.mp h
  obtain ⟨dispatchers, hdispatchers, h⟩ := bind_eq_ok.mp h
  cases pure_eq_ok.mp h
  cases (Dispatch.functions_eq_ok w ls).symm.trans hdispatchers
  have hmem {ds : List Decl} : g ∈ (Program.ofDecls w ds).functions ↔ .function g ∈ ds := by
    rw [Program.functions, Program.ofDecls, List.mem_filterMap]
    constructor
    · rintro ⟨d, hd, hg⟩
      cases d with
      | const name type value => cases hg
      | function f =>
        cases hg
        exact hd
    · intro hd
      exact ⟨_, hd, rfl⟩
  rw [hmem, List.mem_append, mem_layoutsDecls_iff hdecls]
  simp only [hmem]
  simp

/-- For every accepted schema there is a program, and all of its functions are well scoped. What the
functions of a layout call is found among these already, where each has a name of its own. Arguments
that fit are as many as the parameters where the heap context is dropped from both, too. -/
theorem wellScoped_of_resolve {defs : List LayoutDef} {ls : List Layout}
    (h : Schema.resolve w defs = .ok ls) :
    ∃ p, Program.ofLayouts w ls = .ok p ∧ (∀ g ∈ p.functions, g.WellScoped p) ∧
      (∀ l ∈ ls, ∃ decls, layoutDecls w l = .ok decls ∧
        ((Program.ofDecls w decls).functions.map (·.name)).Nodup ∧
        ∀ g ∈ (Program.ofDecls w decls).functions,
          g ∈ p.functions ∧ g.WellScoped (Program.ofDecls w decls)) ∧
      ∀ args params, Fits args params → args.length = params.length ∧
        ∀ o, (Artifact.JS.passed o args).length = (Artifact.JS.params params).length := by
  obtain ⟨p, hp⟩ := exists_ofLayouts h
  have hwf : ∀ l ∈ ls, l.WellFormed w := fun _ hl => Schema.wellFormed_of_resolve h hl
  have hmem {l : Layout} (hl : l ∈ ls) {own : List Decl} (hown : layoutDecls w l = .ok own) :
      ∀ g ∈ (Program.ofDecls w own).functions, g ∈ p.functions :=
    fun g hg => (mem_functions_ofLayouts_iff hp).mpr (.inl ⟨l, hl, own, hown, hg⟩)
  have hprov : ∀ l ∈ ls, p.Provides l := by
    intro l hl
    obtain ⟨own, hown, himpl⟩ := exists_layoutDecls (hwf l hl)
    exact himpl.provides (hmem hl hown)
  have hcount : ∀ l ∈ ls, p.constantNames.count l.tagConstant = 1 := by
    intro l hl
    rw [(declares_of_ofLayouts hp).constants]
    exact List.count_eq_one_of_mem (Schema.nodup_tagConstants_of_resolve h)
      (List.mem_map_of_mem hl)
  refine ⟨p, hp, ?_, ?_, fun _ _ hfits => ⟨hfits.length_eq, hfits.length_passed⟩⟩
  · intro g hg
    rcases (mem_functions_ofLayouts_iff hp).mp hg with ⟨l, hl, own, hown, hg⟩ | rfl | rfl
    · exact wellScoped_of_layoutDecls (hwf l hl) (hprov l hl) hown g hg
    · exact wellScoped_dispatchSizeof hprov hcount
    · exact wellScoped_dispatchVisitGc hprov hcount
  · intro l hl
    obtain ⟨own, hown, himpl⟩ := exists_layoutDecls (hwf l hl)
    refine ⟨own, hown, ?_, ?_⟩
    · obtain ⟨fs, rfl, hkinds, hnames⟩ := label_of_layoutDecls hown
      rw [Program.functions_ofDecls, map_name_eq_of_label hnames, hkinds]
      exact nodup_map_name_kinds (hwf l hl).names_nodup
    · intro g hg
      exact ⟨hmem hl hown g hg, wellScoped_of_layoutDecls (hwf l hl)
        (himpl.provides fun _ hg => hg) hown g hg⟩

theorem wellScoped_hashed :
    Schema.resolve .eight [bufferDef none none, hashedDef] =
        .ok [bufferLayout none none, hashedLayout] ∧
      ∃ p, Program.ofLayouts .eight [bufferLayout none none, hashedLayout] = .ok p ∧
        (∀ g ∈ p.functions, g.WellScoped p) ∧
        ∃ decls, layoutDecls .eight hashedLayout = .ok decls ∧
          ∀ g ∈ (Program.ofDecls .eight decls).functions,
            g.WellScoped (Program.ofDecls .eight decls) := by
  have hresolve : Schema.resolve .eight [bufferDef none none, hashedDef] =
      .ok [bufferLayout none none, hashedLayout] := by decide
  obtain ⟨p, hp, hscoped, hown, -⟩ := wellScoped_of_resolve hresolve
  obtain ⟨decls, hdecls, -, hclosed⟩ :=
    hown hashedLayout (List.mem_cons_of_mem _ List.mem_cons_self)
  exact ⟨hresolve, p, hp, hscoped, decls, hdecls, fun g hg => (hclosed g hg).2⟩

end HeapLayout.Code
