import HeapLayout.Proofs.Acceptance
import HeapLayout.Proofs.Naming

/-!
# References to missing fields

A hand-made layout may refer to positions that it does not have. Synthesis looks positions up here
and there: an offset function for the arrays in front of its field, allocation for the arrays that
it initialises, the visit for traced fields alone. `Checks` says which references a computation
looks up, and so on which it fails; there is a lemma for every function that is synthesised.
Together they look up every reference of the layout (`checks_layoutDecls`), and nothing else can go
wrong.
-/

namespace HeapLayout

/-- A position that a layout refers to, with the name under which it is reported missing. -/
abbrev Reference := String × FieldId

def Field.sizeRefs (f : Field) : List Reference :=
  f.sizeField.toList.map (f.name, ·)

def Field.typeRefs (f : Field) : List Reference :=
  f.typeField.toList.map (f.name, ·)

namespace Layout

def countRefs (l : Layout) : List Reference :=
  l.sizeFields.map (Name.compSize l.name, ·)

/-- All positions that a layout refers to. -/
def references (l : Layout) : List Reference :=
  l.countRefs ++ l.fields.flatMap fun f => f.sizeRefs ++ f.typeRefs

end Layout

namespace Code.Accessor

open Schema (bind_eq_ok bind_eq_error)

variable {w : PointerWidth} {l : Layout} {f : Field} {fs earlier : List Field} {A : Arithmetic}
  {rs rs' : List Reference} {α β : Type}

/-! ## Looking up references -/

/-- The computation looks up the references `rs`: it succeeds if there are fields at all of these
positions, and otherwise reports one where there is none. -/
structure Checks (l : Layout) (rs : List Reference) (x : Except BuildError α) : Prop where
  lt_of_ok : ∀ a, x = .ok a → ∀ r ∈ rs, r.2 < l.fields.length
  of_error : ∀ e, x = .error e →
    ∃ r ∈ rs, l.fields.length ≤ r.2 ∧ e = .unresolvedBinding l.name r.1 r.2

theorem Checks.congr {x : Except BuildError α} (h : Checks l rs x) (hrs : ∀ r, r ∈ rs ↔ r ∈ rs') :
    Checks l rs' x := by
  refine ⟨fun a ha r hr => h.lt_of_ok a ha r ((hrs r).mpr hr), ?_⟩
  intro e he
  obtain ⟨r, hr, hreported⟩ := h.of_error e he
  exact ⟨r, (hrs r).mp hr, hreported⟩

theorem checks_pure (a : α) : Checks l [] (pure a) :=
  ⟨fun _ _ _ hr => absurd hr List.not_mem_nil, fun _ h => by cases h⟩

theorem Checks.bind {x : Except BuildError α} {g : α → Except BuildError β} (hx : Checks l rs x)
    (hg : ∀ a, Checks l rs' (g a)) : Checks l (rs ++ rs') (x >>= g) := by
  constructor
  · intro b hb r hr
    obtain ⟨a, ha, hb⟩ := bind_eq_ok.mp hb
    rcases List.mem_append.mp hr with hr | hr
    · exact hx.lt_of_ok a ha r hr
    · exact (hg a).lt_of_ok b hb r hr
  · intro e he
    rcases bind_eq_error.mp he with he | ⟨a, -, he⟩
    · obtain ⟨r, hr, hreported⟩ := hx.of_error e he
      exact ⟨r, List.mem_append_left rs' hr, hreported⟩
    · obtain ⟨r, hr, hreported⟩ := (hg a).of_error e he
      exact ⟨r, List.mem_append_right rs hr, hreported⟩

/-- What is done with the result looks nothing up. -/
theorem Checks.map {x : Except BuildError α} (hx : Checks l rs x) (g : α → β) :
    Checks l rs (x >>= fun a => pure (g a)) := by
  simpa using hx.bind fun a => checks_pure (g a)

theorem checks_binding (field : String) (i : FieldId) :
    Checks l [(field, i)] (binding l field i) := by
  constructor
  · intro s hs r hr
    cases List.mem_singleton.mp hr
    exact (List.getElem?_eq_some_iff.mp (getElem?_of_binding hs)).1
  · intro e he
    unfold binding at he
    split at he
    · cases he
    · next hnone =>
      cases he
      exact ⟨_, List.mem_singleton_self _, List.getElem?_eq_none_iff.mp hnone, rfl⟩

/-! ## Offsets and sizes -/

theorem checks_span (count : Field → Expr) (f : Field) :
    Checks l f.sizeRefs (span l count f A) := by
  unfold span Field.sizeRefs
  cases f.sizeField with
  | none => exact checks_pure _
  | some i => exact (checks_binding f.name i).map _

theorem checks_prefixSumFrom (count : Field → Expr) (sum : Expr) (fs : List Field) :
    Checks l (fs.flatMap Field.sizeRefs) (prefixSumFrom w l count sum fs A) := by
  induction fs generalizing sum with
  | nil => exact checks_pure sum
  | cons f fs ih => exact (checks_span count f).bind fun _ => ih _

theorem checks_offsetFunction (earlier : List Field) (f : Field) :
    Checks l (earlier.flatMap Field.sizeRefs) (offsetFunction w l earlier f A) :=
  ((checks_prefixSumFrom (storedCount l) (.const 0) earlier).map _).map _

/-- Nothing follows the last field, so no offset function needs its length. -/
theorem checks_offsetFunctionsFrom (earlier : List Field) (f : Field) (fs : List Field) :
    Checks l ((earlier ++ (f :: fs).dropLast).flatMap Field.sizeRefs)
      (offsetFunctionsFrom w l earlier (f :: fs) A) := by
  induction fs generalizing earlier f with
  | nil =>
    refine ((checks_offsetFunction earlier f).map _).congr ?_
    simp
  | cons g gs ih =>
    refine ((checks_offsetFunction earlier f).bind fun _ => (ih (earlier ++ [f]) g).map _).congr ?_
    intro r
    simp only [List.dropLast_cons_cons, List.flatMap_append, List.flatMap_cons, List.flatMap_nil,
      List.append_nil, List.mem_append]
    tauto

theorem checks_offsetFunctions (w : PointerWidth) (l : Layout) (A : Arithmetic) :
    Checks l (l.fields.dropLast.flatMap Field.sizeRefs)
      (offsetFunctionsFrom w l [] l.fields A) := by
  cases l.fields with
  | nil => exact checks_pure []
  | cons f fs => exact checks_offsetFunctionsFrom [] f fs

theorem checks_sizeFields (l : Layout) : Checks l l.countRefs (sizeFields l) := by
  unfold sizeFields Layout.countRefs
  induction l.sizeFields with
  | nil => exact checks_pure []
  | cons i is ih =>
    rw [List.mapM_cons]
    exact (checks_binding _ i).bind fun _ => ih.map _

theorem checks_compSizeFunction (w : PointerWidth) (l : Layout) (A : Arithmetic) :
    Checks l (l.countRefs ++ l.fields.flatMap Field.sizeRefs) (compSizeFunction w l A) :=
  (checks_sizeFields l).bind fun _ => (checks_prefixSumFrom passedCount (.const 0) l.fields).map _

theorem checks_sizeofFunction (l : Layout) : Checks l l.countRefs (sizeofFunction l) :=
  (checks_sizeFields l).map _

/-! ## Allocation and visiting -/

theorem checks_writeInit (f : Field) (value : Expr) :
    Checks l f.sizeRefs (writeInit l f value) := by
  unfold writeInit Field.sizeRefs
  cases f.sizeField with
  | none => exact checks_pure _
  | some i => exact (checks_binding f.name i).map _

/-- Only fields with an initial value that is not zero are written. -/
theorem checks_writeInits (fs : List Field) :
    Checks l ((fs.filter fun f => (nonzeroInit? f).isSome).flatMap Field.sizeRefs)
      (writeInits l fs) := by
  induction fs with
  | nil => exact checks_pure []
  | cons f fs ih =>
    rw [writeInits]
    cases hinit : nonzeroInit? f with
    | none => simpa [List.filter_cons, hinit] using ih
    | some c =>
      rw [List.filter_cons, hinit]
      exact (checks_writeInit f (initExpr c)).bind fun _ => ih.map _

theorem checks_allocFunction (l : Layout) :
    Checks l
      (l.countRefs ++ (l.fields.filter fun f => (nonzeroInit? f).isSome).flatMap Field.sizeRefs)
      (allocFunction l) :=
  (checks_sizeFields l).bind fun _ => (checks_writeInits l.fields).map _

theorem checks_forwardSlot (f : Field) : Checks l f.typeRefs (forwardSlot l f) := by
  refine Checks.map ?_ _
  unfold forwardArgs Field.typeRefs
  cases f.typeField with
  | none => exact checks_pure _
  | some i => exact (checks_binding f.name i).map _

theorem checks_visitFields (read : List String) (fs : List Field) :
    Checks l (fs.flatMap fun f => f.typeRefs ++ f.sizeRefs) (visitFields l read fs) := by
  induction fs generalizing read with
  | nil => exact checks_pure []
  | cons f fs ih =>
    rw [visitFields, List.flatMap_cons, List.append_assoc]
    refine (checks_forwardSlot f).bind fun forward => ?_
    unfold Field.sizeRefs
    cases f.sizeField with
    | none => exact (ih read).map _
    | some i =>
      refine (checks_binding f.name i).bind fun size => ?_
      by_cases hread : size.name ∈ read
      · simp only [if_pos hread]
        exact (ih read).map _
      · simp only [if_neg hread]
        exact (ih (size.name :: read)).map _

theorem checks_visitGcFunction (l : Layout) :
    Checks l ((l.fields.filter (·.isTraced)).flatMap fun f => f.typeRefs ++ f.sizeRefs)
      (visitGcFunction l) :=
  (checks_visitFields [] _).map _

/-! ## All references of a layout -/

/-- A field with a type tag is traced, and the size function looks up the length of every array. -/
theorem checks_layoutDecls (w : PointerWidth) (l : Layout) (A : Arithmetic) :
    Checks l l.references (layoutDecls w l A) := by
  have hall := (checks_offsetFunctions w l A).bind fun offsets =>
    (checks_compSizeFunction w l A).bind fun compSize =>
      (checks_sizeofFunction l).bind fun sizeof => (checks_allocFunction l).bind fun alloc =>
        (checks_visitGcFunction l).map fun visitGc =>
          Decl.const l.tagConstant .uint32 l.id ::
            (offsets ++ l.fields.map (getterFunction l) ++ l.fields.map (setterFunction l) ++
              [compSize, sizeof, alloc, visitGc]).map .function
  refine hall.congr fun r => ?_
  simp only [Layout.references, List.mem_append, List.mem_flatMap, List.mem_filter]
  constructor
  · rintro (⟨f, hf, hr⟩ | (hr | ⟨f, hf, hr⟩) | hr | (hr | ⟨f, ⟨hf, -⟩, hr⟩) | ⟨f, ⟨hf, -⟩, hr⟩)
    · exact .inr ⟨f, List.mem_of_mem_dropLast hf, .inl hr⟩
    · exact .inl hr
    · exact .inr ⟨f, hf, .inl hr⟩
    · exact .inl hr
    · exact .inl hr
    · exact .inr ⟨f, hf, .inl hr⟩
    · exact .inr ⟨f, hf, hr.symm⟩
  · rintro (hr | ⟨f, hf, hr | hr⟩)
    · exact .inr (.inl (.inl hr))
    · exact .inr (.inl (.inr ⟨f, hf, hr⟩))
    · have htraced : f.isTraced = true := by
        cases htype : f.typeField with
        | none => simp [Field.typeRefs, htype] at hr
        | some i => simp [Field.isTraced, htype]
      exact .inr (.inr (.inr (.inr ⟨f, ⟨hf, htraced⟩, .inl hr⟩)))

end Code.Accessor

namespace Code

open Accessor
open Schema (bind_eq_error)

variable {w : PointerWidth} {l : Layout} {ls : List Layout} {e : BuildError} {A : Arithmetic}

theorem forall_mem_references {p : FieldId → Prop} :
    (∀ r ∈ l.references, p r.2) ↔ (∀ i ∈ l.sizeFields, p i) ∧
      ∀ f ∈ l.fields, (∀ i ∈ f.sizeField, p i) ∧ ∀ i ∈ f.typeField, p i := by
  simp only [Layout.references, Layout.countRefs, Field.sizeRefs, Field.typeRefs,
    List.forall_mem_append, List.forall_mem_map, List.forall_mem_flatMap, Option.mem_toList,
    Option.mem_def]

theorem exists_layoutDecls_iff :
    (∃ decls, layoutDecls w l A = .ok decls) ↔ ∀ r ∈ l.references, r.2 < l.fields.length := by
  have hchecks := checks_layoutDecls w l A
  constructor
  · rintro ⟨decls, hdecls⟩
    exact hchecks.lt_of_ok decls hdecls
  · intro hlt
    cases h : layoutDecls w l A with
    | ok decls => exact ⟨decls, rfl⟩
    | error e =>
      obtain ⟨r, hr, hle, -⟩ := hchecks.of_error e h
      exact absurd (hlt r hr) (Nat.not_lt.mpr hle)

/-! ## All layouts of a schema -/

/-- The dispatchers pass their checks whatever the layouts are. -/
theorem ofLayouts_eq (w : PointerWidth) (ls : List Layout) (A : Arithmetic) :
    Program.ofLayouts w ls A = layoutsDecls w ls A >>= fun decls => pure (.ofDecls w (decls ++
      [.function (Dispatch.sizeofFunction w ls), .function (Dispatch.visitGcFunction w ls)])) := by
  rw [Program.ofLayouts, Dispatch.functions_eq_ok]
  rfl

end Code

end HeapLayout
