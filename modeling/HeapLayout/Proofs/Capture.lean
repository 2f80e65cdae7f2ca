import HeapLayout.Artifact.D
import HeapLayout.Proofs.Lineage
import HeapLayout.Proofs.Scoping

/-!
# Captured calls

In D a call names its function bare, so a parameter or local of the same name would take the
function's place. Most functions have parameters and locals with fixed names only, and no function
is named like these (`FunctionKind.name_not_reserved`). Three take counts under the names of size
fields: the size function, which calls nothing, allocation, and the visit of the collector.

Validation keeps field names off the fixed names, but not off the names of functions. A program is
free of captures just if no count has the name of a function that is called while the count is in
scope (`NamesApart`, `uncaptured_iff_of_resolve`). A schema with a size field called like the
collector's entry point is accepted, and its visits cannot call the collector
(`not_uncaptured_capturing`).

Allocation has all counts in scope from the start. A visit reads a count in front of the first array
that it governs, so each traced field meets the counts read up to it (`VisitsUncaptured`).
-/

namespace HeapLayout.Code

open HeapLayout (Layout Field FieldId PointerWidth LayoutDef)
open Accessor
open Schema (bind_eq_ok pure_eq_ok)

/-! ## Calls and the names around them -/

mutual

/-- The names under which an expression calls functions. -/
def Expr.calls : Expr → List String
  | .var _ | .const _ | .layoutId _ | .undef _ | .context => []
  | .bin _ lhs rhs => lhs.calls ++ rhs.calls
  | .load _ base offset => base.calls ++ offset.calls
  | .call callee args => Artifact.D.callee callee :: Expr.listCalls args
  | .alloc size _ => size.calls

def Expr.listCalls : List Expr → List String
  | [] => []
  | e :: es => e.calls ++ Expr.listCalls es

end

/-- None of the names is one that the expression calls. -/
def Expr.Uncaptured (xs : List String) (e : Expr) : Prop :=
  ∀ n ∈ e.calls, n ∉ xs

/-- The name that a statement adds to the scope of those behind it. -/
def Stmt.bound? : Stmt → Option String
  | .bind name _ _ => some name
  | _ => none

mutual

/-- With the names in scope no call in the statement is captured. A local is in scope in its own
initial value already, and a counter in its own bound. -/
def Stmt.Uncaptured (xs : List String) : Stmt → Prop
  | .bind name _ value => value.Uncaptured (name :: xs)
  | .store _ base offset value => base.Uncaptured xs ∧ offset.Uncaptured xs ∧ value.Uncaptured xs
  | .eval e => e.Uncaptured xs
  | .ret value => ∀ e ∈ value, e.Uncaptured xs
  | .cond test body => test.Uncaptured xs ∧ Stmt.AllUncaptured xs body
  | .loop counter bound body =>
    bound.Uncaptured (counter :: xs) ∧ Stmt.AllUncaptured (counter :: xs) body
  | .unreachable _ => True

def Stmt.AllUncaptured (xs : List String) : List Stmt → Prop
  | [] => True
  | s :: ss => s.Uncaptured xs ∧ Stmt.AllUncaptured (s.bound?.toList ++ xs) ss

end

/-- In the body of the function, no parameter or local has the name of a function that is called
while it is in scope. -/
def Function.Uncaptured (f : Function) : Prop :=
  Stmt.AllUncaptured (f.params.map (·.name)) f.body

variable {w : PointerWidth} {l : Layout} {f s : Field} {xs ys : List String} {n x : String}

/-- Statements that bind nothing have one scope. -/
theorem Stmt.allUncaptured_iff_forall {ss : List Stmt} (h : ∀ s ∈ ss, s.bound? = none) :
    AllUncaptured xs ss ↔ ∀ s ∈ ss, s.Uncaptured xs := by
  induction ss with
  | nil => simp [AllUncaptured]
  | cons s ss ih =>
    obtain ⟨hs, hss⟩ := List.forall_mem_cons.mp h
    rw [AllUncaptured, hs, Option.toList_none, List.nil_append, ih hss, List.forall_mem_cons]

theorem Expr.Uncaptured.mono {e : Expr} (h : e.Uncaptured xs) (hsub : ys ⊆ xs) : e.Uncaptured ys :=
  fun n hn hmem => h n hn (hsub hmem)

theorem Expr.Uncaptured.termwise : Termwise (Expr.Uncaptured xs) where
  const v := by simp [Expr.Uncaptured, Expr.calls]
  bin op a b := by simp [Expr.Uncaptured, Expr.calls, or_imp, forall_and]

theorem Expr.uncaptured_var (x : String) : (Expr.var x).Uncaptured xs := by
  simp [Uncaptured, calls]

theorem uncaptured_object : object.Uncaptured xs :=
  Expr.uncaptured_var Name.object

theorem uncaptured_passedCount (s : Field) : (passedCount s).Uncaptured xs :=
  Expr.uncaptured_var s.name

/-! ## Fixed names capture nothing -/

/-- The underscore in front of an ending is in no reserved name. -/
theorem FunctionKind.name_not_reserved (k : FunctionKind) : k.name ∉ Name.reserved := by
  intro hk
  obtain ⟨c, cs, hcs, -⟩ := exists_toList_ending k
  have hmem : '_' ∈ k.name.toList := by simp [name_eq, hcs]
  exact absurd hmem ((show ∀ x ∈ Name.reserved, '_' ∉ x.toList by decide) _ hk)

theorem FunctionKind.prefix_name {k : FunctionKind} {owner : String} (h : k.layout? = some owner) :
    (owner ++ "_").toList <+: k.name.toList := by
  obtain ⟨c, cs, hcs, -⟩ := exists_toList_ending k
  exact ⟨c :: cs, by simp [name_eq, FunctionKind.owner, h, hcs]⟩

/-- The name is that of a function of the layout, or of the collector's entry point. -/
def IsCallee (l : Layout) (n : String) : Prop :=
  n = Artifact.D.callee .gcForward ∨ ∃ k : FunctionKind, k.layout? = some l.name ∧ k.name = n

theorem IsCallee.not_reserved (h : IsCallee l n) : n ∉ Name.reserved := by
  obtain rfl | ⟨k, -, rfl⟩ := h
  · decide
  · exact k.name_not_reserved

theorem mem_cons_reserved_iff (hx : x ∈ Name.reserved) (hn : n ∉ Name.reserved) :
    n ∈ x :: xs ↔ n ∈ xs :=
  List.mem_cons.trans (or_iff_right fun h => hn (h ▸ hx))

theorem listCalls_eq_flatMap (es : List Expr) : Expr.listCalls es = es.flatMap Expr.calls := by
  induction es with
  | nil => rfl
  | cons e es ih => rw [Expr.listCalls, ih, List.flatMap_cons]

theorem calls_slotArgs (f : Field) : Expr.listCalls (slotArgs f) = [] := by
  unfold slotArgs
  split <;> rfl

theorem calls_callGetter :
    (callGetter l f.name (slotArgs f)).calls = [Name.getter l.name f.name] := by
  simp [callGetter, Expr.invoke, Expr.calls, calls_slotArgs, Artifact.D.callee]

/-! ## Counts in scope -/

/-- The name of the field that holds a field's element count. -/
def countName? (l : Layout) (f : Field) : Option String :=
  (f.sizeField.bind l.field?).map (·.name)

def countNames (l : Layout) (fs : List Field) : List String :=
  fs.filterMap (countName? l)

theorem mem_countNames_iff {fs : List Field} :
    x ∈ countNames l fs ↔
      ∃ f ∈ fs, ∃ i s, f.sizeField = some i ∧ l.fields[i]? = some s ∧ s.name = x := by
  simp only [countNames, List.mem_filterMap, countName?, Option.map_eq_some_iff,
    Option.bind_eq_some_iff, Layout.field?]
  grind

/-! ## Allocation -/

/-- What allocation calls: the size function and the setters of everything that it writes. -/
def allocCalls (l : Layout) : List String :=
  Name.compSize l.name ::
    (countNames l l.fields ++ (l.fields.filter fun f => (nonzeroInit? f).isSome).map (·.name)).map
      (Name.setter l.name)

theorem isCallee_of_mem_allocCalls (hn : n ∈ allocCalls l) : IsCallee l n := by
  rcases List.mem_cons.mp hn with rfl | hn
  · exact .inr ⟨.compSize l.name, rfl, rfl⟩
  · obtain ⟨f, -, rfl⟩ := List.mem_map.mp hn
    exact .inr ⟨.set l.name f, rfl, rfl⟩

theorem calls_callSetter {args : List Expr} (h : Expr.listCalls args = []) :
    (callSetter l f.name args).calls = [Name.setter l.name f.name] := by
  simp [callSetter, Expr.invoke, Expr.calls, h, Artifact.D.callee]

theorem uncaptured_callSetter {args : List Expr} (h : Expr.listCalls args = []) :
    (callSetter l f.name args).Uncaptured xs ↔ Name.setter l.name f.name ∉ xs := by
  rw [Expr.Uncaptured, calls_callSetter h, List.forall_mem_singleton]

theorem uncaptured_writeInit {c : InitConst} {st : Stmt} (h : writeInit l f (initExpr c) = .ok st) :
    st.bound? = none ∧ (st.Uncaptured xs ↔ Name.setter l.name f.name ∉ xs) := by
  have hinit : (initExpr c).calls = [] := by
    cases c <;> rfl
  unfold writeInit at h
  split at h
  · cases pure_eq_ok.mp h
    exact ⟨rfl, uncaptured_callSetter (by simp [Expr.listCalls, object, Expr.calls, hinit])⟩
  · obtain ⟨s, -, h⟩ := bind_eq_ok.mp h
    cases pure_eq_ok.mp h
    have hset : Expr.listCalls [object, index, initExpr c] = [] := by
      simp [Expr.listCalls, object, index, Expr.calls, hinit]
    have hfixed := (FunctionKind.set l.name f.name).name_not_reserved
    refine ⟨rfl, ?_⟩
    simp only [Stmt.Uncaptured, Stmt.AllUncaptured, and_true]
    rw [and_iff_right (uncaptured_passedCount s), uncaptured_callSetter hset]
    exact not_congr (mem_cons_reserved_iff (by decide) hfixed)

theorem uncaptured_writeInits {fs : List Field} {ss : List Stmt} (h : writeInits l fs = .ok ss) :
    (∀ s ∈ ss, s.bound? = none) ∧ ((∀ s ∈ ss, s.Uncaptured xs) ↔
      ∀ f ∈ fs, (nonzeroInit? f).isSome → Name.setter l.name f.name ∉ xs) := by
  induction fs generalizing ss with
  | nil =>
    cases h
    simp
  | cons f fs ih =>
    rw [writeInits] at h
    split at h
    · next hzero => simpa [hzero] using ih h
    · next c hc =>
      obtain ⟨st, hst, h⟩ := bind_eq_ok.mp h
      obtain ⟨rest, hrest, h⟩ := bind_eq_ok.mp h
      cases pure_eq_ok.mp h
      obtain ⟨hbound, hiff⟩ := ih hrest
      have hstep : st.bound? = none ∧ (st.Uncaptured xs ↔ Name.setter l.name f.name ∉ xs) :=
        uncaptured_writeInit hst
      refine ⟨List.forall_mem_cons.mpr ⟨hstep.1, hbound⟩, ?_⟩
      rw [List.forall_mem_cons, hstep.2, hiff, List.forall_mem_cons]
      simp [hc]

theorem uncaptured_allocFunction (hwf : l.WellFormed w) {g : Function}
    (h : allocFunction l = .ok g) :
    g.Uncaptured ↔ ∀ n ∈ allocCalls l, n ∉ countNames l l.fields := by
  obtain ⟨sizes, hsizes, h⟩ := bind_eq_ok.mp h
  obtain ⟨inits, hinits, h⟩ := bind_eq_ok.mp h
  cases pure_eq_ok.mp h
  have hcounts : ∀ x, x ∈ sizes.map (·.name) ↔ x ∈ countNames l l.fields := by
    intro x
    rw [mem_countNames_iff, List.mem_map]
    simp only [mem_sizes_iff hsizes, hwf.mem_sizeFields_iff]
    grind
  let scope := Name.object :: (contextParam :: sizes.map countParam).map (·.name)
  have hscope {n : String} (hn : n ∉ Name.reserved) : n ∈ scope ↔ n ∈ countNames l l.fields := by
    rw [mem_cons_reserved_iff (by decide) hn, List.map_cons, map_name_countParam, ← hcounts]
    exact mem_cons_reserved_iff (by decide) hn
  have hsize : (Expr.alloc (.invoke (Name.compSize l.name) (sizes.map passedCount))
      l.category).calls = [Name.compSize l.name] := by
    simp [Expr.calls, Expr.invoke, listCalls_eq_flatMap, List.flatMap_eq_nil_iff, passedCount,
      Artifact.D.callee]
  have hwriteCounts : (∀ st ∈ sizes.map (writeCount l), st.Uncaptured scope) ↔
      ∀ x ∈ countNames l l.fields, Name.setter l.name x ∉ scope := by
    simp only [← hcounts, List.forall_mem_map, writeCount, Stmt.Uncaptured]
    exact forall₂_congr fun s _ => uncaptured_callSetter rfl
  obtain ⟨hbound, hwrites⟩ : (∀ st ∈ inits, st.bound? = none) ∧
      ((∀ st ∈ inits, st.Uncaptured scope) ↔
        ∀ f ∈ l.fields, (nonzeroInit? f).isSome → Name.setter l.name f.name ∉ scope) :=
    uncaptured_writeInits hinits
  have hunbound : ∀ st ∈ sizes.map (writeCount l) ++ inits ++ [.ret (some object)],
      st.bound? = none := by
    simp only [List.forall_mem_append, List.forall_mem_map, List.forall_mem_singleton]
    exact ⟨⟨fun _ _ => rfl, hbound⟩, rfl⟩
  show (Expr.alloc _ _).Uncaptured scope ∧
    Stmt.AllUncaptured scope (sizes.map (writeCount l) ++ inits ++ [.ret (some object)]) ↔ _
  rw [Stmt.allUncaptured_iff_forall hunbound, List.forall_mem_append, List.forall_mem_append,
    hwriteCounts, hwrites, Expr.Uncaptured, hsize, List.forall_mem_singleton,
    List.forall_mem_singleton]
  have hrhs : (∀ n ∈ allocCalls l, n ∉ countNames l l.fields) ↔ ∀ n ∈ allocCalls l, n ∉ scope :=
    forall₂_congr fun n hn => not_congr (hscope (isCallee_of_mem_allocCalls hn).not_reserved).symm
  have hret : (Stmt.ret (some object)).Uncaptured scope := by
    simpa [Stmt.Uncaptured] using uncaptured_object
  rw [hrhs, allocCalls, List.forall_mem_cons, List.forall_mem_map, List.forall_mem_append,
    List.forall_mem_map, and_iff_left hret]
  simp only [List.mem_filter, and_imp]

/-! ## Visiting -/

/-- What is called to forward a slot. -/
def forwardCalls (l : Layout) (f : Field) : List String :=
  [Name.setter l.name f.name, Artifact.D.callee .gcForward, Name.getter l.name f.name] ++
    (f.typeField.bind l.field?).toList.map fun t => Name.getter l.name t.name

/-- What is called to visit a field, `read` being the counts that are in locals already. -/
def visitCalls (l : Layout) (read : List String) (f : Field) : List String :=
  forwardCalls l f ++
    ((countName? l f).filter (· ∉ read)).toList.map (Name.getter l.name)

/-- What is called to visit a field has other names than the counts in locals by then: those in
`read`, those of the fields before, and its own. -/
def VisitsUncaptured (l : Layout) (read : List String) (fs : List Field) : Prop :=
  ∀ k f, fs[k]? = some f → ∀ n ∈ visitCalls l (read ++ countNames l (fs.take k)) f,
    n ∉ read ++ countNames l (fs.take (k + 1))

theorem isCallee_of_mem_forwardCalls (hn : n ∈ forwardCalls l f) : IsCallee l n := by
  simp only [forwardCalls, List.mem_append, List.mem_cons, List.not_mem_nil, or_false,
    List.mem_map] at hn
  rcases hn with (rfl | rfl | rfl) | ⟨t, -, rfl⟩
  · exact .inr ⟨.set l.name f.name, rfl, rfl⟩
  · exact .inl rfl
  · exact .inr ⟨.get l.name f.name, rfl, rfl⟩
  · exact .inr ⟨.get l.name t.name, rfl, rfl⟩

theorem isCallee_of_mem_visitCalls {read : List String} (hn : n ∈ visitCalls l read f) :
    IsCallee l n := by
  rcases List.mem_append.mp hn with hn | hn
  · exact isCallee_of_mem_forwardCalls hn
  · obtain ⟨x, -, rfl⟩ := List.mem_map.mp hn
    exact .inr ⟨.get l.name x, rfl, rfl⟩

/-- Counts in locals matter as a set. -/
theorem visitsUncaptured_congr {read read' : List String} {fs : List Field}
    (h : ∀ x, x ∈ read ↔ x ∈ read') :
    VisitsUncaptured l read fs ↔ VisitsUncaptured l read' fs := by
  simp only [VisitsUncaptured, visitCalls, List.mem_append, h]

theorem visitsUncaptured_cons {read : List String} {fs : List Field} :
    VisitsUncaptured l read (f :: fs) ↔
      (∀ n ∈ visitCalls l read f, n ∉ read ++ (countName? l f).toList) ∧
        VisitsUncaptured l (read ++ (countName? l f).toList) fs := by
  have hcons (fs : List Field) :
      countNames l (f :: fs) = (countName? l f).toList ++ countNames l fs := by
    rw [countNames, List.filterMap_cons]
    cases countName? l f <;> rfl
  have hnil : countNames l [] = [] := rfl
  unfold VisitsUncaptured
  rw [Schema.forall_getElem?_cons]
  simp only [List.take_succ_cons, hcons, List.take_zero, hnil, List.append_nil, List.append_assoc]

theorem visitCalls_of_mem {read : List String} (h : ∀ x ∈ countName? l f, x ∈ read) :
    visitCalls l read f = forwardCalls l f := by
  have hnone : (countName? l f).filter (· ∉ read) = none := by
    simpa [Option.filter_eq_none_iff] using h
  rw [visitCalls, hnone, Option.toList_none, List.map_nil, List.append_nil]

theorem visitCalls_of_not_mem {read : List String} (h : countName? l f = some x) (hx : x ∉ read) :
    visitCalls l read f = forwardCalls l f ++ [Name.getter l.name x] := by
  simp [visitCalls, h, hx]

theorem mem_visitScope_iff {read : List String} (hn : n ∉ Name.reserved) :
    n ∈ visitScope read ↔ n ∈ read := by
  constructor
  · intro h
    by_contra hread
    exact not_mem_visitScope hread hn h
  · exact List.mem_append_left _

theorem exists_eval_of_forwardSlot {st : Stmt} (h : forwardSlot l f = .ok st) :
    ∃ e, st = .eval e ∧ e.calls = forwardCalls l f := by
  obtain ⟨args, hargs, h⟩ := bind_eq_ok.mp h
  cases pure_eq_ok.mp h
  have hcalls : Expr.listCalls args = Name.getter l.name f.name ::
      (f.typeField.bind l.field?).toList.map fun t => Name.getter l.name t.name := by
    unfold forwardArgs at hargs
    split at hargs
    · next hnone =>
      cases pure_eq_ok.mp hargs
      simp [Expr.listCalls, Expr.calls, calls_callGetter, hnone]
    · next i hi =>
      obtain ⟨t, ht, hargs⟩ := bind_eq_ok.mp hargs
      cases pure_eq_ok.mp hargs
      simp [Expr.listCalls, Expr.calls, calls_callGetter, hi, Layout.field?,
        getElem?_of_binding ht]
  refine ⟨_, rfl, ?_⟩
  rw [callSetter, Expr.invoke, Expr.calls, listCalls_eq_flatMap, List.flatMap_append,
    ← listCalls_eq_flatMap, calls_slotArgs, List.flatMap_singleton, Expr.gcForward, Expr.calls,
    hcalls]
  rfl

/-- The loop over the elements adds its counter to the scope, which captures nothing. -/
theorem uncaptured_visitLoop {read : List String} {forward : Stmt}
    (h : forwardSlot l f = .ok forward) :
    (Stmt.loop Name.index (passedCount s) [forward]).Uncaptured (visitScope read) ↔
      ∀ n ∈ forwardCalls l f, n ∉ visitScope read := by
  obtain ⟨e, rfl, he⟩ := exists_eval_of_forwardSlot h
  simp only [Stmt.Uncaptured, Stmt.AllUncaptured, and_true]
  rw [and_iff_right (uncaptured_passedCount s), Expr.Uncaptured, he]
  refine forall₂_congr fun n hn => not_congr (mem_cons_reserved_iff (by decide) ?_)
  exact (isCallee_of_mem_forwardCalls hn).not_reserved

theorem uncaptured_readCount {read : List String} :
    (Stmt.bind s.name offsetType (storedCount l s)).Uncaptured (visitScope read) ↔
      Name.getter l.name s.name ∉ visitScope (s.name :: read) := by
  simp [Stmt.Uncaptured, Expr.Uncaptured, storedCount, callGetter, Expr.invoke, Expr.calls,
    Expr.listCalls, object, Artifact.D.callee, visitScope]

/-- The counts that the generator has seen as read are those of the fields visited so far. -/
theorem allUncaptured_visitFields {fs : List Field} {read : List String} {ss : List Stmt}
    (h : visitFields l read fs = .ok ss) :
    Stmt.AllUncaptured (visitScope read) ss ↔ VisitsUncaptured l read fs := by
  induction fs generalizing read ss with
  | nil =>
    cases h
    simp [Stmt.AllUncaptured, VisitsUncaptured]
  | cons f fs ih =>
    obtain ⟨forward, hforward, h⟩ := bind_eq_ok.mp h
    have hscope (read : List String) : (∀ n ∈ forwardCalls l f, n ∉ visitScope read) ↔
        ∀ n ∈ forwardCalls l f, n ∉ read :=
      forall₂_congr fun n hn =>
        not_congr (mem_visitScope_iff (isCallee_of_mem_forwardCalls hn).not_reserved)
    rw [visitsUncaptured_cons]
    split at h
    · next hnone =>
      obtain ⟨rest, hrest, h⟩ := bind_eq_ok.mp h
      cases pure_eq_ok.mp h
      have hcount : countName? l f = none := by simp [countName?, hnone]
      obtain ⟨e, rfl, he⟩ := exists_eval_of_forwardSlot hforward
      rw [hcount, visitCalls_of_mem (by simp [hcount]), Option.toList_none, List.append_nil,
        ← ih hrest, ← hscope, ← he]
      rfl
    · next i hi =>
      obtain ⟨s, hs, h⟩ := bind_eq_ok.mp h
      have hcount : countName? l f = some s.name := by
        simp [countName?, hi, Layout.field?, getElem?_of_binding hs]
      split at h
      · next hold =>
        obtain ⟨rest, hrest, h⟩ := bind_eq_ok.mp h
        cases pure_eq_ok.mp h
        have hsame : ∀ x, x ∈ read ++ (countName? l f).toList ↔ x ∈ read := by
          simpa [hcount] using hold
        rw [Stmt.AllUncaptured, uncaptured_visitLoop hforward, hscope,
          visitCalls_of_mem (by simpa [hcount] using hold), visitsUncaptured_congr hsame,
          ← ih hrest]
        simp only [hsame]
        rfl
      -- The count is in scope from its own reading on, as the first of those in locals.
      · next hnew =>
        obtain ⟨rest, hrest, h⟩ := bind_eq_ok.mp h
        cases pure_eq_ok.mp h
        have hsame : ∀ x, x ∈ read ++ (countName? l f).toList ↔ x ∈ s.name :: read := by
          simp [hcount, or_comm]
        have hget : Name.getter l.name s.name ∉ Name.reserved :=
          (FunctionKind.get l.name s.name).name_not_reserved
        rw [visitCalls_of_not_mem hcount hnew, visitsUncaptured_congr hsame, ← ih hrest,
          List.forall_mem_append, List.forall_mem_singleton]
        simp only [hsame]
        rw [← hscope, ← mem_visitScope_iff hget, ← uncaptured_visitLoop hforward,
          ← uncaptured_readCount]
        show _ ∧ _ ∧ _ ↔ (_ ∧ _) ∧ _
        rw [and_left_comm, and_assoc]
        rfl

theorem uncaptured_visitGcFunction {g : Function} (h : visitGcFunction l = .ok g) :
    g.Uncaptured ↔ VisitsUncaptured l [] (l.fields.filter (·.isTraced)) := by
  obtain ⟨body, hbody, h⟩ := bind_eq_ok.mp h
  cases pure_eq_ok.mp h
  exact allUncaptured_visitFields hbody

/-! ## Functions that bind fixed names only -/

section Fixed

variable {g : Function} {e : Expr} {args : List Expr}

theorem uncaptured_of_ret (hbody : g.body = [.ret (some e)])
    (hparams : g.params.map (·.name) ⊆ Name.reserved) (h : e.Uncaptured Name.reserved) :
    g.Uncaptured := by
  simpa [Function.Uncaptured, hbody, Stmt.AllUncaptured, Stmt.Uncaptured] using h.mono hparams

theorem slotParams_subset (f : Field) : (slotParams f).map (·.name) ⊆ Name.reserved := by
  unfold slotParams
  split <;> decide

theorem uncaptured_invoke (k : FunctionKind)
    (hargs : ∀ a ∈ args, a.Uncaptured Name.reserved) :
    (Expr.invoke k.name args).Uncaptured Name.reserved := by
  intro n hn
  rw [Expr.invoke, Expr.calls, listCalls_eq_flatMap] at hn
  rcases List.mem_cons.mp hn with rfl | hn
  · exact k.name_not_reserved
  · obtain ⟨a, ha, hn⟩ := List.mem_flatMap.mp hn
    exact hargs a ha n hn

theorem uncaptured_slotArgs : ∀ a ∈ slotArgs f, a.Uncaptured xs := by
  unfold slotArgs
  split
  · simpa using ⟨uncaptured_object, Expr.uncaptured_var Name.index⟩
  · simpa using uncaptured_object

theorem uncaptured_storedCount (s : Field) : (storedCount l s).Uncaptured Name.reserved :=
  uncaptured_invoke (.get l.name s.name) (List.forall_mem_singleton.mpr uncaptured_object)

theorem uncaptured_offsetFunction {earlier : List Field}
    (h : offsetFunction w l earlier f = .ok g) : g.Uncaptured := by
  obtain ⟨e, he, h⟩ := bind_eq_ok.mp h
  cases pure_eq_ok.mp h
  refine uncaptured_of_ret rfl (slotParams_subset f) ?_
  exact Expr.Uncaptured.termwise.foldClosed.offsetExpr
    (fun _ _ _ s _ _ => uncaptured_storedCount s) (fun _ => Expr.uncaptured_var Name.index) he

theorem uncaptured_callOffset : (callOffset l f).Uncaptured Name.reserved :=
  uncaptured_invoke (.offset l.name f.name) uncaptured_slotArgs

theorem uncaptured_getterFunction : (getterFunction l f).Uncaptured := by
  refine uncaptured_of_ret rfl (slotParams_subset f) ?_
  simpa [Expr.Uncaptured, Expr.calls, object] using uncaptured_callOffset

theorem uncaptured_setterFunction : (setterFunction l f).Uncaptured := by
  have hparams : (setterFunction l f).params.map (·.name) ⊆ Name.reserved := by
    simp only [setterFunction, List.map_append, List.append_subset]
    exact ⟨slotParams_subset f, show [Name.value] ⊆ Name.reserved by decide⟩
  have hoffset : (callOffset l f).Uncaptured ((setterFunction l f).params.map (·.name)) :=
    uncaptured_callOffset.mono hparams
  exact ⟨⟨uncaptured_object, hoffset, Expr.uncaptured_var Name.value⟩, trivial⟩

theorem uncaptured_compSizeFunction (h : compSizeFunction w l = .ok g) : g.Uncaptured := by
  obtain ⟨sizes, hsizes, h⟩ := bind_eq_ok.mp h
  obtain ⟨total, htotal, h⟩ := bind_eq_ok.mp h
  cases pure_eq_ok.mp h
  have huncaptured : total.Uncaptured ((sizes.map countParam).map (·.name)) :=
    Expr.Uncaptured.termwise.foldClosed.prefixSum
      (fun _ _ _ s _ _ => uncaptured_passedCount s) htotal
  simpa [Function.Uncaptured, Stmt.AllUncaptured, Stmt.Uncaptured] using huncaptured

theorem uncaptured_sizeofFunction (h : sizeofFunction l = .ok g) : g.Uncaptured := by
  obtain ⟨sizes, hsizes, h⟩ := bind_eq_ok.mp h
  cases pure_eq_ok.mp h
  refine uncaptured_of_ret rfl (show [Name.object] ⊆ Name.reserved by decide) ?_
  refine uncaptured_invoke (.compSize l.name) ?_
  exact List.forall_mem_map.mpr fun s _ => uncaptured_storedCount s

theorem allUncaptured_body {name : String} {arm : Layout → List Stmt} {ls : List Layout}
    (harm : ∀ l ∈ ls, Stmt.AllUncaptured (Name.tag :: xs) (arm l)) :
    Stmt.AllUncaptured xs (Dispatch.body w name arm ls) := by
  have hunbound : ∀ st ∈ ls.map (fun l => Stmt.cond (Dispatch.tagIs l) (arm l)) ++
      [.unreachable ("invalid layout in " ++ name)], st.bound? = none := by
    simp [or_imp, forall_and, Stmt.bound?]
  refine ⟨?_, (Stmt.allUncaptured_iff_forall hunbound).mpr ?_⟩
  · simp [Dispatch.readTag, Stmt.Uncaptured, Expr.Uncaptured, Expr.calls, object]
  · rw [List.forall_mem_append, List.forall_mem_map, List.forall_mem_singleton]
    have htest (l : Layout) : (Dispatch.tagIs l).Uncaptured (Name.tag :: xs) := by
      simp [Expr.Uncaptured, Dispatch.tagIs, Expr.eq, Expr.calls]
    exact ⟨fun l hl => ⟨htest l, harm l hl⟩, trivial⟩

theorem uncaptured_dispatchSizeof (ls : List Layout) :
    (Dispatch.sizeofFunction w ls).Uncaptured := by
  refine allUncaptured_body fun l _ => ⟨?_, trivial⟩
  rintro e ⟨⟩
  have hscope : [Name.tag, Name.object] ⊆ Name.reserved := by decide
  refine (uncaptured_invoke (.sizeof l.name) ?_).mono hscope
  exact List.forall_mem_singleton.mpr uncaptured_object

theorem uncaptured_dispatchVisitGc (ls : List Layout) :
    (Dispatch.visitGcFunction w ls).Uncaptured := by
  refine allUncaptured_body fun l _ => ⟨?_, ?_, trivial⟩
  · have hscope : [Name.tag, Name.context, Name.object] ⊆ Name.reserved := by decide
    have hcontext : Expr.context.Uncaptured Name.reserved := by simp [Expr.Uncaptured, Expr.calls]
    refine (uncaptured_invoke (.visitGc l.name) ?_).mono hscope
    simpa using ⟨hcontext, uncaptured_object⟩
  · rintro e ⟨⟩

end Fixed

/-! ## Whole programs -/

/-- No count has the name of a function that is called where it is in scope. -/
structure NamesApart (l : Layout) : Prop where
  alloc : ∀ n ∈ allocCalls l, n ∉ countNames l l.fields
  visit : VisitsUncaptured l [] (l.fields.filter (·.isTraced))

theorem countNames_subset {fs fs' : List Field} (h : fs ⊆ fs') :
    countNames l fs ⊆ countNames l fs' := by
  intro x hx
  obtain ⟨f, hf, hcount⟩ := List.mem_filterMap.mp hx
  exact List.mem_filterMap.mpr ⟨f, h hf, hcount⟩

/-- A count that begins otherwise than the layout's functions captures none of them. -/
theorem namesApart_of_forall (h : ∀ x ∈ countNames l l.fields,
    x ≠ Artifact.D.callee .gcForward ∧ ¬ (l.name ++ "_").toList <+: x.toList) : NamesApart l := by
  have happart {n : String} (hn : IsCallee l n) : n ∉ countNames l l.fields := by
    intro hmem
    obtain rfl | ⟨k, hk, rfl⟩ := hn
    · exact (h _ hmem).1 rfl
    · exact (h _ hmem).2 (FunctionKind.prefix_name hk)
  refine ⟨fun n hn => happart (isCallee_of_mem_allocCalls hn), ?_⟩
  intro k f _ n hn hmem
  rw [List.nil_append] at hmem
  refine happart (isCallee_of_mem_visitCalls hn) (countNames_subset ?_ hmem)
  exact fun f hf => List.mem_of_mem_filter (List.mem_of_mem_take hf)

theorem uncaptured_iff_of_layoutDecls (hwf : l.WellFormed w) {decls : List Decl}
    (h : layoutDecls w l = .ok decls) :
    (∀ g ∈ (Program.ofDecls w decls).functions, g.Uncaptured) ↔ NamesApart l := by
  obtain ⟨offsets, compSize, sizeof, alloc, visitGc, hoffsets, hcompSize, hsizeof, halloc, hvisitGc,
    rfl⟩ := parts_of_layoutDecls h
  rw [Program.functions_ofDecls]
  constructor
  · intro h
    exact ⟨(uncaptured_allocFunction hwf halloc).mp (h alloc (by simp)),
      (uncaptured_visitGcFunction hvisitGc).mp (h visitGc (by simp))⟩
  · intro hapart
    simp only [List.mem_append, List.mem_map, List.mem_cons, List.not_mem_nil, or_false]
    rintro g (((hg | ⟨f, hf, rfl⟩) | ⟨f, hf, rfl⟩) | rfl | rfl | rfl | rfl)
    · obtain ⟨k, f, -, hoffset⟩ := exists_of_mem_offsetFunctionsFrom hoffsets hg
      exact uncaptured_offsetFunction hoffset
    · exact uncaptured_getterFunction
    · exact uncaptured_setterFunction
    · exact uncaptured_compSizeFunction hcompSize
    · exact uncaptured_sizeofFunction hsizeof
    · exact (uncaptured_allocFunction hwf halloc).mpr hapart.alloc
    · exact (uncaptured_visitGcFunction hvisitGc).mpr hapart.visit

/-- **The functions of an accepted schema call no name that a parameter or local has taken, if and
only if the counts of each layout have other names than what is called beside them.** -/
theorem uncaptured_iff_of_resolve {defs : List LayoutDef} {ls : List Layout}
    (h : Schema.resolve w defs = .ok ls) :
    ∃ p, Program.ofLayouts w ls = .ok p ∧
      ((∀ g ∈ p.functions, g.Uncaptured) ↔ ∀ l ∈ ls, NamesApart l) := by
  obtain ⟨p, hp⟩ := exists_ofLayouts h
  refine ⟨p, hp, ?_⟩
  constructor
  · intro hall l hl
    have hwf := Schema.wellFormed_of_resolve h hl
    obtain ⟨own, hown, -⟩ := exists_layoutDecls hwf
    refine (uncaptured_iff_of_layoutDecls hwf hown).mp ?_
    intro g hg
    exact hall g ((mem_functions_ofLayouts_iff hp).mpr (.inl ⟨l, hl, own, hown, hg⟩))
  · intro hapart g hg
    rcases (mem_functions_ofLayouts_iff hp).mp hg with ⟨l, hl, own, hown, hg⟩ | rfl | rfl
    · exact (uncaptured_iff_of_layoutDecls (Schema.wellFormed_of_resolve h hl) hown).mpr
        (hapart l hl) g hg
    · exact uncaptured_dispatchSizeof ls
    · exact uncaptured_dispatchVisitGc ls

/-- The count of a buffer is called like no function. -/
theorem uncaptured_hashed :
    Schema.resolve .eight [bufferDef none none, hashedDef] =
        .ok [bufferLayout none none, hashedLayout] ∧
      ∃ p, Program.ofLayouts .eight [bufferLayout none none, hashedLayout] = .ok p ∧
        ∀ g ∈ p.functions, g.Uncaptured := by
  have hresolve : Schema.resolve .eight [bufferDef none none, hashedDef] =
      .ok [bufferLayout none none, hashedLayout] := by decide
  have hcounts : ∀ l ∈ [bufferLayout none none, hashedLayout], ∀ x ∈ countNames l l.fields,
      x ≠ Artifact.D.callee .gcForward ∧ ¬ (l.name ++ "_").toList <+: x.toList := by decide
  obtain ⟨p, hp, hiff⟩ := uncaptured_iff_of_resolve hresolve
  exact ⟨hresolve, p, hp, hiff.mpr fun l hl => namesApart_of_forall (hcounts l hl)⟩

/-- References whose count has the name of the collector's entry point. -/
def capturingDef : LayoutDef where
  name := "a"
  category := "plain"
  fields := [{ name := "gcForward", type := .uint32 },
    { name := "xs", type := .refptr, sizeField := some "gcForward" }]

/-- While the references are visited, the collector cannot be called. -/
theorem not_uncaptured_capturing :
    ∃ ls p, Schema.resolve .eight [capturingDef] = .ok ls ∧ Program.ofLayouts .eight ls = .ok p ∧
      ∃ g ∈ p.functions, g.kind = .visitGc "a" ∧ ¬ g.Uncaptured := by
  refine ⟨_, _, rfl, rfl, _, List.mem_of_getElem? (i := 15) rfl, rfl, ?_⟩
  intro h
  obtain ⟨-, -, ⟨-, hforward, -⟩, -⟩ := h
  exact hforward "gcForward" (by decide) (by decide)

end HeapLayout.Code
