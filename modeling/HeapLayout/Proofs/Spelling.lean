import HeapLayout.Artifact
import HeapLayout.Proofs.Scoping

/-!
# Spelling

Every name in generated code is an identifier. Validation says so of the names of layouts, fields
and categories; names of functions and tag constants are glued from these, and those of parameters
and locals are fixed. So no name looks like anything else in a text, and no text has a line break
but those between lines.

Offset arithmetic is plainer still: it has variables, constants, operations and calls of generated
functions only (`plain_of_mem_functions`).
-/

namespace HeapLayout

open Identifier (isRest)
open Schema (bind_eq_ok pure_eq_ok)

/-! ## Identifiers -/

section Identifiers

variable {a b layout field : String}

theorem isIdentifier_append (ha : isIdentifier a = true) (hb : b.toList.all isRest = true) :
    isIdentifier (a ++ b) = true := by
  obtain ⟨c, cs, hcs, hstart, hrest⟩ := Identifier.exists_toList ha
  rw [isIdentifier, String.toList_append, hcs, List.cons_append, Identifier.spells, hstart,
    Bool.true_and, List.all_append, List.all_eq_true.mpr hrest, hb, Bool.true_and]

theorem isIdentifier_glued {word : String} (hlayout : isIdentifier layout = true)
    (hword : word.toList.all isRest = true) (hfield : isIdentifier field = true) :
    isIdentifier (layout ++ word ++ field) = true :=
  isIdentifier_append (isIdentifier_append hlayout hword)
    (List.all_eq_true.mpr fun _ hc => Identifier.isRest_of_mem hfield hc)

/-- There are few characters to look at. -/
theorem isRest_toUpper {c : Char} (h : isRest c = true) : isRest c.toUpper = true := by
  have hall : ∀ n < 128, isRest (Char.ofNat n) = true → isRest (Char.ofNat n).toUpper = true := by
    decide
  have hc := hall c.toNat (Identifier.toNat_lt_of_isRest h)
  rw [Char.ofNat_toNat] at hc
  exact hc h

theorem isIdentifier_tagConstant (h : isIdentifier layout = true) :
    isIdentifier (Name.tagConstant layout) = true := by
  refine isIdentifier_append (by decide) (List.all_eq_true.mpr fun c hc => ?_)
  rw [Uppercase.toList_ofString] at hc
  obtain ⟨d, hd, hc⟩ := List.mem_flatMap.mp hc
  have hrest : isRest d = true := Identifier.isRest_of_mem h hd
  rw [Uppercase.ofChar, if_pos (Identifier.toNat_lt_of_isRest hrest), List.mem_singleton] at hc
  rw [hc]
  exact isRest_toUpper hrest

end Identifiers

/-- Whether a text has no line breaks. -/
def isUnbroken (s : String) : Bool :=
  s.toList.all fun c => c != '\n' && c != '\r'

@[simp] theorem isUnbroken_append (a b : String) :
    isUnbroken (a ++ b) = (isUnbroken a && isUnbroken b) := by
  simp [isUnbroken]

theorem ne_of_mem_isIdentifier {name : String} (h : isIdentifier name = true) {c d : Char}
    (hc : c ∈ name.toList) (hd : isRest d = false) : c ≠ d := by
  rintro rfl
  exact Bool.false_ne_true (hd.symm.trans (Identifier.isRest_of_mem h hc))

theorem isUnbroken_of_isIdentifier {name : String} (h : isIdentifier name = true) :
    isUnbroken name = true := by
  refine List.all_eq_true.mpr fun c hc => ?_
  have hne {d : Char} := ne_of_mem_isIdentifier (d := d) h hc
  simp [hne (d := '\n') (by decide), hne (d := '\r') (by decide)]

namespace Code

open Accessor

/-! ## Judgements -/

/-- Expressions of variables, constants, operations, loads, undefined values and calls of generated
functions, all names being identifiers. -/
inductive Expr.Plain : Expr → Prop
  | var {name : String} : isIdentifier name = true → Plain (.var name)
  | const {v : Int} : Plain (.const v)
  | undef {kind : UndefKind} : Plain (.undef kind)
  | bin {op : BinOp} {a b : Expr} : Plain a → Plain b → Plain (.bin op a b)
  | load {type : Prim} {base offset : Expr} : Plain base → Plain offset →
      Plain (.load type base offset)
  | invoke {name : String} {args : List Expr} : isIdentifier name = true →
      (∀ a ∈ args, Plain a) → Plain (.call (.generated name) args)

/-- All names in the expression are identifiers. -/
inductive Expr.Spelled : Expr → Prop
  | var {name : String} : isIdentifier name = true → Spelled (.var name)
  | const {v : Int} : Spelled (.const v)
  | layoutId {name : String} : isIdentifier name = true → Spelled (.layoutId name)
  | undef {kind : UndefKind} : Spelled (.undef kind)
  | bin {op : BinOp} {a b : Expr} : Spelled a → Spelled b → Spelled (.bin op a b)
  | load {type : Prim} {base offset : Expr} : Spelled base → Spelled offset →
      Spelled (.load type base offset)
  | call {callee : Callee} {args : List Expr} :
      (∀ name, callee = .generated name → isIdentifier name = true) → (∀ a ∈ args, Spelled a) →
      Spelled (.call callee args)
  | alloc {size : Expr} {category : String} : Spelled size → isIdentifier category = true →
      Spelled (.alloc size category)
  | context : Spelled .context

/-- All names in the statement are identifiers, and a message has no line breaks. -/
inductive Stmt.Spelled : Stmt → Prop
  | bind {name : String} {type : Prim} {e : Expr} : isIdentifier name = true → e.Spelled →
      Spelled (.bind name type e)
  | store {type : Prim} {base offset e : Expr} : base.Spelled → offset.Spelled → e.Spelled →
      Spelled (.store type base offset e)
  | eval {e : Expr} : e.Spelled → Spelled (.eval e)
  | ret {e? : Option Expr} : (∀ e, e? = some e → e.Spelled) → Spelled (.ret e?)
  | cond {test : Expr} {body : List Stmt} : test.Spelled → (∀ s ∈ body, Spelled s) →
      Spelled (.cond test body)
  | loop {counter : String} {bound : Expr} {body : List Stmt} : isIdentifier counter = true →
      bound.Spelled → (∀ s ∈ body, Spelled s) → Spelled (.loop counter bound body)
  | unreachable {message : String} : isUnbroken message = true → Spelled (.unreachable message)

structure Function.Spelled (f : Function) : Prop where
  name : isIdentifier f.name = true
  params : ∀ q ∈ f.params, isIdentifier q.name = true
  body : ∀ s ∈ f.body, s.Spelled

def Decl.Spelled : Decl → Prop
  | .const name _ _ => isIdentifier name = true
  | .function f => f.Spelled

end Code

structure Layout.Spelled (l : Layout) : Prop where
  name : isIdentifier l.name = true
  category : isIdentifier l.category = true
  fields : ∀ f ∈ l.fields, isIdentifier f.name = true

namespace Schema

variable {w : PointerWidth} {defs : List LayoutDef} {ls : List Layout}

theorem Stages.category_eq {flat : List FlatLayout} {k : Nat} {d : LayoutDef} {fl : FlatLayout}
    {t : TaggedLayout} {b : BoundLayout} (h : Stages flat k d fl t b) :
    b.category = d.category := by
  have hfl : fl.category = d.category := by
    have hflatten := h.flatten
    unfold flattenLayout at hflatten
    split at hflatten
    · cases hflatten
    · obtain ⟨_, -, hflatten⟩ := bind_eq_ok.mp hflatten
      cases pure_eq_ok.mp hflatten
      rfl
  have ht : t.category = fl.category := by
    have htag := h.tag
    simp only [tagLayout] at htag
    split at htag
    · cases htag
    · cases htag
      rfl
  obtain ⟨bs, -, hb⟩ := bind_eq_ok.mp h.bind
  cases pure_eq_ok.mp hb
  exact ht.trans hfl

/-- Validation speaks of the declared fields; those of the header have names of their own. -/
theorem spelled_of_resolve (h : resolve w defs = .ok ls) {l : Layout} (hl : l ∈ ls) :
    l.Spelled := by
  obtain ⟨hcheck, hlength, flat, hflat, hstages⟩ := exists_stages_of_resolve h
  obtain ⟨k, hk⟩ := List.mem_iff_getElem?.mp hl
  obtain ⟨d, hd⟩ := exists_getElem?_of_length_eq hlength hk
  obtain ⟨fl, t, b, hst, hplan⟩ := hstages k d hd
  cases hk.symm.trans hplan
  have hvalid := (check_eq_ok_iff.mp hcheck).1
  have hvalidDef := hvalid d (List.mem_of_getElem? hd)
  refine ⟨?_, ?_, ?_⟩
  · exact (congrArg isIdentifier hst.name_eq).trans hvalidDef.identifier
  · exact (congrArg isIdentifier hst.category_eq).trans hvalidDef.category
  · have hall := forall_fields_of_flattenFrom hflat (p := fun f => isIdentifier f.name = true)
      (by simp) fun d hd f hf => ((hvalid d hd).fields f hf).identifier
    have hdeclared : ∀ f ∈ t.fields, isIdentifier f.name = true := by
      rw [(tagLayout_eq_ok hst.tag).2.2.1]
      refine List.forall_mem_append.mpr ⟨?_, hall fl (List.mem_of_getElem? hst.getElem_flat)⟩
      exact List.forall_mem_cons.mpr ⟨show isIdentifier forwardField = true by decide,
        List.forall_mem_singleton.mpr (show isIdentifier tagField = true by decide)⟩
    have hnames := Layout.map_name_plan (w := w) hst.bind
    intro f hf
    obtain ⟨f', hf', hname⟩ := List.mem_map.mp (hnames ▸ List.mem_map_of_mem hf)
    exact hname ▸ hdeclared f' hf'

end Schema

namespace Code

open HeapLayout (Layout Field FieldId PointerWidth LayoutDef)
open Accessor

variable {w : PointerWidth} {l : Layout} {f s : Field} {e : Expr} {g : Function}

theorem Expr.Plain.spelled (h : e.Plain) : e.Spelled := by
  induction h with
  | var hname => exact .var hname
  | const => exact .const
  | undef => exact .undef
  | bin _ _ iha ihb => exact .bin iha ihb
  | load _ _ ihbase ihoffset => exact .load ihbase ihoffset
  | invoke hname _ ih => exact .call (fun _ h => by cases h; exact hname) ih

/-! ## Offset arithmetic -/

theorem Expr.Plain.termwise : Termwise Expr.Plain where
  const _ := .const
  bin _ _ _ := by
    constructor
    · rintro ⟨⟩
      exact ⟨‹_›, ‹_›⟩
    · exact fun h => .bin h.1 h.2

theorem plain_object : object.Plain :=
  .var (by decide)

theorem plain_index : index.Plain :=
  .var (by decide)

theorem plain_slotArgs (f : Field) : ∀ a ∈ slotArgs f, a.Plain := by
  unfold slotArgs
  split <;> simp [plain_object, plain_index]

section Layout

variable (hl : l.Spelled)
include hl

theorem plain_callGetter (hf : f ∈ l.fields) {args : List Expr} (hargs : ∀ a ∈ args, a.Plain) :
    (callGetter l f.name args).Plain :=
  .invoke (isIdentifier_glued hl.name (by decide) (hl.fields f hf)) hargs

theorem plain_storedCount (hf : f ∈ l.fields) : (storedCount l f).Plain :=
  plain_callGetter hl hf (List.forall_mem_singleton.mpr plain_object)

theorem plain_passedCount (hf : f ∈ l.fields) : (passedCount f).Plain :=
  .var (hl.fields f hf)

theorem plain_offsetExpr {earlier : List Field} (h : offsetExpr w l earlier f = .ok e) :
    e.Plain :=
  Expr.Plain.termwise.foldClosed.offsetExpr
    (fun _ _ _ _ _ hs => plain_storedCount hl (List.mem_of_getElem? hs)) (fun _ => plain_index) h

theorem plain_total (h : prefixSum w l passedCount l.fields = .ok e) : e.Plain :=
  Expr.Plain.termwise.foldClosed.prefixSum
    (fun _ _ _ _ _ hs => plain_passedCount hl (List.mem_of_getElem? hs)) h

/-! ## Functions of a layout -/

theorem plain_callOffset (hf : f ∈ l.fields) : (callOffset l f).Plain :=
  .invoke (isIdentifier_glued hl.name (by decide) (hl.fields f hf)) (plain_slotArgs f)

theorem spelled_callSetter (hf : f ∈ l.fields) {args : List Expr}
    (hargs : ∀ a ∈ args, a.Spelled) : (callSetter l f.name args).Spelled := by
  refine .call ?_ hargs
  rintro _ ⟨⟩
  exact isIdentifier_glued hl.name (by decide) (hl.fields f hf)

omit hl in
theorem spelled_slotArgs (f : Field) : ∀ a ∈ slotArgs f, a.Spelled :=
  fun a ha => (plain_slotArgs f a ha).spelled

omit hl in
theorem isIdentifier_slotParams (f : Field) : ∀ q ∈ slotParams f, isIdentifier q.name = true := by
  unfold slotParams
  split <;> decide

theorem spelled_offsetFunction (hf : f ∈ l.fields) {earlier : List Field}
    (h : offsetFunction w l earlier f = .ok g) : g.Spelled := by
  obtain ⟨e, he, h⟩ := bind_eq_ok.mp h
  cases pure_eq_ok.mp h
  refine ⟨isIdentifier_glued hl.name (by decide) (hl.fields f hf), isIdentifier_slotParams f, ?_⟩
  refine List.forall_mem_singleton.mpr (.ret ?_)
  rintro _ ⟨⟩
  exact (plain_offsetExpr hl he).spelled

theorem spelled_getterFunction (hf : f ∈ l.fields) : (getterFunction l f).Spelled := by
  refine ⟨isIdentifier_glued hl.name (by decide) (hl.fields f hf), isIdentifier_slotParams f, ?_⟩
  refine List.forall_mem_singleton.mpr (.ret ?_)
  rintro _ ⟨⟩
  exact .load plain_object.spelled (plain_callOffset hl hf).spelled

theorem spelled_setterFunction (hf : f ∈ l.fields) : (setterFunction l f).Spelled := by
  refine ⟨isIdentifier_glued hl.name (by decide) (hl.fields f hf), ?_, ?_⟩
  · exact List.forall_mem_append.mpr
      ⟨isIdentifier_slotParams f,
        List.forall_mem_singleton.mpr (show isIdentifier Name.value = true by decide)⟩
  · exact List.forall_mem_singleton.mpr
      (.store plain_object.spelled (plain_callOffset hl hf).spelled (.var (by decide)))

theorem spelled_writeInit (hf : f ∈ l.fields) {c : InitConst} {st : Stmt}
    (h : writeInit l f (initExpr c) = .ok st) : st.Spelled := by
  have hvalue : (initExpr c).Spelled := by
    cases c with
    | int v => exact .const
    | null => exact .const
    | undefWord => exact .undef
    | undefType => exact .undef
  unfold writeInit at h
  split at h
  · cases pure_eq_ok.mp h
    exact .eval (spelled_callSetter hl hf (by simp [plain_object.spelled, hvalue]))
  · obtain ⟨s, hs, h⟩ := bind_eq_ok.mp h
    cases pure_eq_ok.mp h
    refine .loop (by decide)
      (plain_passedCount hl (List.mem_of_getElem? (getElem?_of_binding hs))).spelled ?_
    exact List.forall_mem_singleton.mpr (.eval (spelled_callSetter hl hf
      (by simp [plain_object.spelled, plain_index.spelled, hvalue])))

theorem spelled_writeInits {fs : List Field} (hfs : ∀ f ∈ fs, f ∈ l.fields) {ss : List Stmt}
    (h : writeInits l fs = .ok ss) : ∀ st ∈ ss, st.Spelled := by
  induction fs generalizing ss with
  | nil =>
    cases h
    exact List.forall_mem_nil _
  | cons f fs ih =>
    obtain ⟨hf, hfs⟩ := List.forall_mem_cons.mp hfs
    rw [writeInits] at h
    split at h
    · exact ih hfs h
    · obtain ⟨st, hst, h⟩ := bind_eq_ok.mp h
      obtain ⟨rest, hrest, h⟩ := bind_eq_ok.mp h
      cases pure_eq_ok.mp h
      exact List.forall_mem_cons.mpr ⟨spelled_writeInit hl hf hst, ih hfs hrest⟩

theorem spelled_forwardSlot (hf : f ∈ l.fields) {st : Stmt} (h : forwardSlot l f = .ok st) :
    st.Spelled := by
  have hvalue {f : Field} (hf : f ∈ l.fields) : (callGetter l f.name (slotArgs f)).Spelled :=
    (plain_callGetter hl hf (plain_slotArgs f)).spelled
  obtain ⟨args, hargs, h⟩ := bind_eq_ok.mp h
  cases pure_eq_ok.mp h
  have hspelled : ∀ a ∈ args, a.Spelled := by
    unfold forwardArgs at hargs
    split at hargs
    · cases pure_eq_ok.mp hargs
      simp [Expr.Spelled.context, hvalue hf]
    · obtain ⟨t, ht, hargs⟩ := bind_eq_ok.mp hargs
      cases pure_eq_ok.mp hargs
      simp [Expr.Spelled.context, hvalue hf,
        hvalue (List.mem_of_getElem? (getElem?_of_binding ht))]
  refine .eval (spelled_callSetter hl hf (List.forall_mem_append.mpr ⟨spelled_slotArgs f, ?_⟩))
  exact List.forall_mem_singleton.mpr (.call nofun hspelled)

theorem spelled_visitFields {fs : List Field} (hfs : ∀ f ∈ fs, f ∈ l.fields) {read : List String}
    {ss : List Stmt} (h : visitFields l read fs = .ok ss) : ∀ st ∈ ss, st.Spelled := by
  induction fs generalizing read ss with
  | nil =>
    cases h
    exact List.forall_mem_nil _
  | cons f fs ih =>
    obtain ⟨hf, hfs⟩ := List.forall_mem_cons.mp hfs
    obtain ⟨forward, hforward, h⟩ := bind_eq_ok.mp h
    have hslot := spelled_forwardSlot hl hf hforward
    split at h
    · obtain ⟨rest, hrest, h⟩ := bind_eq_ok.mp h
      cases pure_eq_ok.mp h
      exact List.forall_mem_cons.mpr ⟨hslot, ih hfs hrest⟩
    · obtain ⟨s, hs, h⟩ := bind_eq_ok.mp h
      have hmem : s ∈ l.fields := List.mem_of_getElem? (getElem?_of_binding hs)
      have hloop : (Stmt.loop Name.index (passedCount s) [forward]).Spelled :=
        .loop (by decide) (plain_passedCount hl hmem).spelled
          (List.forall_mem_singleton.mpr hslot)
      split at h
      · obtain ⟨rest, hrest, h⟩ := bind_eq_ok.mp h
        cases pure_eq_ok.mp h
        exact List.forall_mem_cons.mpr ⟨hloop, ih hfs hrest⟩
      · obtain ⟨rest, hrest, h⟩ := bind_eq_ok.mp h
        cases pure_eq_ok.mp h
        exact List.forall_mem_cons.mpr
          ⟨.bind (hl.fields s hmem) (plain_storedCount hl hmem).spelled,
            List.forall_mem_cons.mpr ⟨hloop, ih hfs hrest⟩⟩

theorem spelled_visitGcFunction (h : visitGcFunction l = .ok g) : g.Spelled := by
  obtain ⟨body, hbody, h⟩ := bind_eq_ok.mp h
  cases pure_eq_ok.mp h
  exact ⟨isIdentifier_append hl.name (by decide),
    show ∀ q ∈ [contextParam, objectParam], isIdentifier q.name = true by decide,
    spelled_visitFields hl (fun _ hf => List.mem_of_mem_filter hf) hbody⟩

section Sizes

variable (hwf : l.WellFormed w)
include hwf

theorem spelled_callCompSize {sizes : List Field} (hsizes : sizeFields l = .ok sizes)
    {count : Field → Expr} (hcount : ∀ s ∈ l.fields, (count s).Plain) :
    (Expr.invoke (Name.compSize l.name) (sizes.map count)).Spelled := by
  refine .call ?_ (List.forall_mem_map.mpr fun s hs => ?_)
  · rintro _ ⟨⟩
    exact isIdentifier_append hl.name (by decide)
  · exact (hcount s (single_of_mem_sizes hwf hsizes hs).1).spelled

theorem isIdentifier_countParams {sizes : List Field} (hsizes : sizeFields l = .ok sizes) :
    ∀ q ∈ sizes.map countParam, isIdentifier q.name = true :=
  List.forall_mem_map.mpr fun s hs => hl.fields s (single_of_mem_sizes hwf hsizes hs).1

theorem spelled_compSizeFunction (h : compSizeFunction w l = .ok g) : g.Spelled := by
  obtain ⟨sizes, hsizes, h⟩ := bind_eq_ok.mp h
  obtain ⟨total, htotal, h⟩ := bind_eq_ok.mp h
  cases pure_eq_ok.mp h
  refine ⟨isIdentifier_append hl.name (by decide),
    isIdentifier_countParams hl hwf hsizes, List.forall_mem_singleton.mpr (.ret ?_)⟩
  rintro _ ⟨⟩
  exact (plain_total hl htotal).spelled

theorem spelled_sizeofFunction (h : sizeofFunction l = .ok g) : g.Spelled := by
  obtain ⟨sizes, hsizes, h⟩ := bind_eq_ok.mp h
  cases pure_eq_ok.mp h
  refine ⟨isIdentifier_append hl.name (by decide),
    show ∀ q ∈ [objectParam], isIdentifier q.name = true by decide,
    List.forall_mem_singleton.mpr (.ret ?_)⟩
  rintro _ ⟨⟩
  exact spelled_callCompSize hl hwf hsizes fun _ hs => plain_storedCount hl hs

theorem spelled_allocFunction (h : allocFunction l = .ok g) : g.Spelled := by
  obtain ⟨sizes, hsizes, h⟩ := bind_eq_ok.mp h
  obtain ⟨inits, hinits, h⟩ := bind_eq_ok.mp h
  cases pure_eq_ok.mp h
  refine ⟨isIdentifier_append hl.name (by decide),
    List.forall_mem_cons.mpr ⟨by decide, isIdentifier_countParams hl hwf hsizes⟩, ?_⟩
  have hsize : (Expr.alloc (.invoke (Name.compSize l.name) (sizes.map passedCount))
      l.category).Spelled :=
    .alloc (spelled_callCompSize hl hwf hsizes fun _ hs => plain_passedCount hl hs) hl.category
  have hcounts : ∀ st ∈ sizes.map (writeCount l), st.Spelled := by
    refine List.forall_mem_map.mpr fun s hs => .eval (spelled_callSetter hl ?_ ?_)
    · exact (single_of_mem_sizes hwf hsizes hs).1
    · have hcount := plain_passedCount hl (single_of_mem_sizes hwf hsizes hs).1
      simp [plain_object.spelled, hcount.spelled]
  refine List.forall_mem_append.mpr ⟨List.forall_mem_cons.mpr ⟨.bind (by decide) hsize,
    List.forall_mem_append.mpr ⟨hcounts, spelled_writeInits hl (fun _ hf => hf) hinits⟩⟩, ?_⟩
  refine List.forall_mem_singleton.mpr (.ret ?_)
  rintro _ ⟨⟩
  exact plain_object.spelled

end Sizes

theorem spelled_of_layoutDecls (hwf : l.WellFormed w) {decls : List Decl}
    (h : layoutDecls w l = .ok decls) : ∀ d ∈ decls, d.Spelled := by
  obtain ⟨offsets, compSize, sizeof, alloc, visitGc, hoffsets, hcompSize, hsizeof, halloc, hvisitGc,
    rfl⟩ := parts_of_layoutDecls h
  refine List.forall_mem_cons.mpr
    ⟨isIdentifier_tagConstant hl.name, List.forall_mem_map.mpr ?_⟩
  simp only [List.mem_append, List.mem_map, List.mem_cons, List.not_mem_nil, or_false]
  rintro g (((hg | ⟨f, hf, rfl⟩) | ⟨f, hf, rfl⟩) | rfl | rfl | rfl | rfl)
  · obtain ⟨k, f, hk, hoffset⟩ := exists_of_mem_offsetFunctionsFrom hoffsets hg
    exact spelled_offsetFunction hl (List.mem_of_getElem? hk) hoffset
  · exact spelled_getterFunction hl hf
  · exact spelled_setterFunction hl hf
  · exact spelled_compSizeFunction hl hwf hcompSize
  · exact spelled_sizeofFunction hl hwf hsizeof
  · exact spelled_allocFunction hl hwf halloc
  · exact spelled_visitGcFunction hl hvisitGc

end Layout

/-! ## Programs -/

section Dispatch

variable {ls : List Layout} (hls : ∀ l ∈ ls, l.Spelled)
include hls

theorem spelled_body {name : String} {arm : Layout → List Stmt} (hname : isIdentifier name = true)
    (harm : ∀ l ∈ ls, ∀ st ∈ arm l, st.Spelled) :
    ∀ st ∈ Dispatch.body w name arm ls, st.Spelled := by
  have hmessage : isUnbroken ("invalid layout in " ++ name) = true := by
    rw [isUnbroken_append, isUnbroken_of_isIdentifier hname]
    decide
  have htag : (Expr.var Name.tag).Spelled := .var (by decide)
  refine List.forall_mem_append.mpr ⟨List.forall_mem_cons.mpr ⟨?_, ?_⟩, ?_⟩
  · exact .bind (by decide) (.load plain_object.spelled .const)
  · exact List.forall_mem_map.mpr fun l hl =>
      .cond (.bin htag (.layoutId (isIdentifier_tagConstant (hls l hl).name))) (harm l hl)
  · exact List.forall_mem_singleton.mpr (.unreachable hmessage)

theorem spelled_dispatchSizeof : (Dispatch.sizeofFunction w ls).Spelled := by
  refine ⟨show isIdentifier Name.dispatchSizeof = true by decide,
    show ∀ q ∈ [objectParam], isIdentifier q.name = true by decide,
    spelled_body hls (by decide) fun l hl => List.forall_mem_singleton.mpr (.ret ?_)⟩
  rintro _ ⟨⟩
  refine .call ?_ (List.forall_mem_singleton.mpr plain_object.spelled)
  rintro _ ⟨⟩
  exact isIdentifier_append (hls l hl).name (by decide)

theorem spelled_dispatchVisitGc : (Dispatch.visitGcFunction w ls).Spelled := by
  refine ⟨show isIdentifier Name.dispatchVisitGc = true by decide,
    show ∀ q ∈ [contextParam, objectParam], isIdentifier q.name = true by decide,
    spelled_body hls (by decide) fun l hl => ?_⟩
  refine List.forall_mem_cons.mpr ⟨.eval (.call ?_ ?_),
    List.forall_mem_singleton.mpr (.ret nofun)⟩
  · rintro _ ⟨⟩
    exact isIdentifier_append (hls l hl).name (by decide)
  · exact List.forall_mem_cons.mpr
      ⟨.context, List.forall_mem_singleton.mpr plain_object.spelled⟩

end Dispatch

variable {defs : List LayoutDef} {ls : List Layout} {p : Program}

theorem spelled_of_ofLayouts (h : Schema.resolve w defs = .ok ls)
    (hp : Program.ofLayouts w ls = .ok p) : ∀ d ∈ p.decls, d.Spelled := by
  have hls : ∀ l ∈ ls, l.Spelled := fun _ hl => Schema.spelled_of_resolve h hl
  obtain ⟨decls, hdecls, hp⟩ := bind_eq_ok.mp hp
  obtain ⟨dispatchers, hdispatchers, hp⟩ := bind_eq_ok.mp hp
  cases pure_eq_ok.mp hp
  cases (Dispatch.functions_eq_ok w ls).symm.trans hdispatchers
  refine List.forall_mem_append.mpr ⟨?_, ?_⟩
  · intro d hd
    obtain ⟨l, hl, own, hown, hd⟩ := (mem_layoutsDecls_iff hdecls).mp hd
    exact spelled_of_layoutDecls (hls l hl) (Schema.wellFormed_of_resolve h hl) hown d hd
  · exact List.forall_mem_cons.mpr ⟨spelled_dispatchSizeof hls,
      List.forall_mem_singleton.mpr (spelled_dispatchVisitGc hls)⟩

/-- A function that computes an offset or a size from counts. -/
def FunctionKind.isOffsetArithmetic : FunctionKind → Bool
  | .offset _ _ | .compSize _ => true
  | _ => false

/-- Functions of offset arithmetic do nothing but return what they have computed. It has every
property that goes through folding, if the counts and the index have it. -/
theorem FoldClosed.of_mem_functions {Q : Expr → Prop} (hQ : FoldClosed Q)
    (hstored : ∀ l ∈ ls, ∀ s ∈ l.fields, Q (storedCount l s))
    (hpassed : ∀ l ∈ ls, ∀ s ∈ l.fields, Q (passedCount s)) (hindex : Q index)
    (hp : Program.ofLayouts w ls = .ok p) (hg : g ∈ p.functions)
    (hkind : g.kind.isOffsetArithmetic = true) : ∃ e, g.body = [.ret (some e)] ∧ Q e := by
  rcases (mem_functions_ofLayouts_iff hp).mp hg with ⟨l, hl, own, hown, hg⟩ | rfl | rfl
  · obtain ⟨offsets, compSize, sizeof, alloc, visitGc, hoffsets, hcompSize, hsizeof, halloc,
      hvisitGc, rfl⟩ := parts_of_layoutDecls hown
    rw [Program.functions_ofDecls] at hg
    simp only [List.mem_append, List.mem_map, List.mem_cons, List.not_mem_nil, or_false] at hg
    rcases hg with ((hg | ⟨f, -, rfl⟩) | ⟨f, -, rfl⟩) | rfl | rfl | rfl | rfl
    · obtain ⟨k, f, -, hoffset⟩ := exists_of_mem_offsetFunctionsFrom hoffsets hg
      obtain ⟨e, he, hoffset⟩ := bind_eq_ok.mp hoffset
      cases pure_eq_ok.mp hoffset
      refine ⟨e, rfl, hQ.offsetExpr ?_ (fun _ => hindex) he⟩
      exact fun _ _ _ s _ hs => hstored l hl s (List.mem_of_getElem? hs)
    · cases hkind
    · cases hkind
    · obtain ⟨sizes, -, hcompSize⟩ := bind_eq_ok.mp hcompSize
      obtain ⟨total, htotal, hcompSize⟩ := bind_eq_ok.mp hcompSize
      cases pure_eq_ok.mp hcompSize
      refine ⟨total, rfl, hQ.prefixSum ?_ htotal⟩
      exact fun _ _ _ s _ hs => hpassed l hl s (List.mem_of_getElem? hs)
    · cases (label_of_sizeofFunction hsizeof).1 ▸ hkind
    · cases (label_of_allocFunction halloc).1 ▸ hkind
    · cases (label_of_visitGcFunction hvisitGc).1 ▸ hkind
  · cases hkind
  · cases hkind

/-- Functions of offset arithmetic return a plain expression, and do nothing else. -/
theorem plain_of_mem_functions (h : Schema.resolve w defs = .ok ls)
    (hp : Program.ofLayouts w ls = .ok p) (hg : g ∈ p.functions)
    (hkind : g.kind.isOffsetArithmetic = true) : ∃ e, g.body = [.ret (some e)] ∧ e.Plain :=
  Expr.Plain.termwise.foldClosed.of_mem_functions
    (fun _ hl _ => plain_storedCount (Schema.spelled_of_resolve h hl))
    (fun _ hl _ => plain_passedCount (Schema.spelled_of_resolve h hl)) plain_index hp hg hkind

end Code

theorem Artifacts.eq_of_ofLayouts {w : PointerWidth} {ls : List Layout} {a : Artifacts}
    (h : Artifacts.ofLayouts w ls = .ok a) :
    Code.Program.ofLayouts w ls = .ok a.program ∧ a = ofProgram {} {} a.program := by
  unfold Artifacts.ofLayouts at h
  cases hp : Code.Program.ofLayouts w ls with
  | ok p =>
    rw [hp] at h
    cases h
    exact ⟨rfl, rfl⟩
  | error e =>
    rw [hp] at h
    cases h

end HeapLayout
