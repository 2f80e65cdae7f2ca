import HeapLayout.Proofs.Depth
import HeapLayout.Proofs.Scoping
import Mathlib.Logic.Relation
import Mathlib.Order.WellFounded

/-!
# The call graph of a layout

Offset functions read counts through getters, and getters ask offset functions where to read. What
keeps this from going round in circles is an order that resolution has put into the layout: the
length of an array stands before the array. `Edge` lists all calls between functions of a layout
(`edge_of_invokes`); along each of them the rank of the function falls (`Edge.rank_lt`).
-/

namespace HeapLayout.Code

open HeapLayout (Layout Field FieldId PointerWidth LayoutDef)
open Accessor
open Schema (bind_eq_ok pure_eq_ok)

namespace Accessor

variable {w : PointerWidth} {l : Layout} {f s : Field} {i j k : Nat}

/-! ## Calls between kinds -/

/-- Which functions of a layout call which others. -/
inductive Edge (l : Layout) : FunctionKind → FunctionKind → Prop where
  /-- An offset depends on counts in front of the field. -/
  | offset {i j : Nat} {f s : Field} (hf : l.fields[j]? = some f) (hs : l.fields[i]? = some s)
      (h : i < j) : Edge l (.offset l.name f.name) (.get l.name s.name)
  | get {f : Field} (hf : f ∈ l.fields) : Edge l (.get l.name f.name) (.offset l.name f.name)
  | set {f : Field} (hf : f ∈ l.fields) : Edge l (.set l.name f.name) (.offset l.name f.name)
  | sizeof : Edge l (.sizeof l.name) (.compSize l.name)
  | readCount {f : Field} (hf : f ∈ l.fields) : Edge l (.sizeof l.name) (.get l.name f.name)
  | alloc : Edge l (.alloc l.name) (.compSize l.name)
  | write {f : Field} (hf : f ∈ l.fields) : Edge l (.alloc l.name) (.set l.name f.name)
  | visit {f : Field} (hf : f ∈ l.fields) : Edge l (.visitGc l.name) (.get l.name f.name)
  | writeBack {f : Field} (hf : f ∈ l.fields) : Edge l (.visitGc l.name) (.set l.name f.name)

/-- The names are those of functions of the given kinds. -/
def NamedBy (K : FunctionKind → Prop) (names : List String) : Prop :=
  ∀ n ∈ names, ∃ k, K k ∧ k.name = n

variable {K : FunctionKind → Prop} {e : Expr} {es : List Expr} {ss : List Stmt}

theorem namedBy_append {xs ys : List String} :
    NamedBy K (xs ++ ys) ↔ NamedBy K xs ∧ NamedBy K ys :=
  List.forall_mem_append

theorem namedBy_nil : NamedBy K [] :=
  List.forall_mem_nil _

theorem namedBy_listCallees : NamedBy K (Expr.listCallees es) ↔ ∀ e ∈ es, NamedBy K e.callees := by
  induction es with
  | nil => simp [Expr.listCallees, namedBy_nil]
  | cons e es ih => rw [Expr.listCallees, namedBy_append, ih, List.forall_mem_cons]

theorem namedBy_stmts : NamedBy K (Stmt.listCallees ss) ↔ ∀ s ∈ ss, NamedBy K s.callees := by
  induction ss with
  | nil => simp [Stmt.listCallees, namedBy_nil]
  | cons s ss ih => rw [Stmt.listCallees, namedBy_append, ih, List.forall_mem_cons]

theorem namedBy_termwise : Termwise fun e => NamedBy K e.callees where
  const _ := namedBy_nil
  bin _ _ _ := namedBy_append

theorem namedBy_invoke {k : FunctionKind} (hk : K k) (hes : ∀ e ∈ es, NamedBy K e.callees) :
    NamedBy K (Expr.invoke k.name es).callees :=
  List.forall_mem_cons.mpr ⟨⟨k, hk, rfl⟩, namedBy_listCallees.mpr hes⟩

theorem namedBy_object : NamedBy K object.callees :=
  namedBy_nil

theorem namedBy_slotArgs (f : Field) : ∀ e ∈ slotArgs f, NamedBy K e.callees := by
  unfold slotArgs
  split <;> simp [namedBy_object, index, Expr.callees, namedBy_nil]

theorem namedBy_callOffset (h : K (.offset l.name f.name)) : NamedBy K (callOffset l f).callees :=
  namedBy_invoke h (namedBy_slotArgs f)

theorem namedBy_callGetter (h : K (.get l.name f.name)) (hes : ∀ e ∈ es, NamedBy K e.callees) :
    NamedBy K (callGetter l f.name es).callees :=
  namedBy_invoke h hes

theorem namedBy_callSetter (h : K (.set l.name f.name)) (hes : ∀ e ∈ es, NamedBy K e.callees) :
    NamedBy K (callSetter l f.name es).callees :=
  namedBy_invoke h hes

/-! ## The functions of a layout -/

/-- Whatever the function calls, there is an edge to it. -/
def FollowsEdges (l : Layout) (g : Function) : Prop :=
  NamedBy (Edge l g.kind) g.callees

section Functions

variable {g : Function}

theorem namedBy_of_ret (hbody : g.body = [.ret (some e)]) (h : NamedBy K e.callees) :
    NamedBy K g.callees := by
  rw [Function.callees, hbody, namedBy_stmts]
  simpa [Stmt.callees] using h

theorem followsEdges_getterFunction (hf : f ∈ l.fields) : FollowsEdges l (getterFunction l f) :=
  namedBy_of_ret rfl (namedBy_append.mpr ⟨namedBy_object, namedBy_callOffset (.get hf)⟩)

theorem followsEdges_setterFunction (hf : f ∈ l.fields) : FollowsEdges l (setterFunction l f) := by
  refine namedBy_stmts.mpr (List.forall_mem_singleton.mpr ?_)
  exact namedBy_append.mpr
    ⟨namedBy_append.mpr ⟨namedBy_object, namedBy_callOffset (.set hf)⟩, namedBy_nil⟩

theorem followsEdges_compSizeFunction (h : compSizeFunction w l = .ok g) : FollowsEdges l g := by
  obtain ⟨sizes, -, h⟩ := bind_eq_ok.mp h
  obtain ⟨total, htotal, h⟩ := bind_eq_ok.mp h
  cases pure_eq_ok.mp h
  exact namedBy_of_ret rfl
    (namedBy_termwise.foldClosed.prefixSum (fun _ _ _ _ _ _ => namedBy_nil) htotal)

/-- Values that are held in parameters or locals, or are constant. -/
theorem namedBy_passedCount (s : Field) : NamedBy K (passedCount s).callees :=
  namedBy_nil

theorem namedBy_initExpr (c : InitConst) : NamedBy K (initExpr c).callees := by
  cases c <;> exact namedBy_nil

theorem namedBy_forwardSlot {st : Stmt} (hget : ∀ f ∈ l.fields, K (.get l.name f.name))
    (hset : K (.set l.name f.name)) (hf : f ∈ l.fields) (h : forwardSlot l f = .ok st) :
    NamedBy K st.callees := by
  obtain ⟨args, hargs, h⟩ := bind_eq_ok.mp h
  cases pure_eq_ok.mp h
  have hvalue := namedBy_callGetter (hget f hf) (namedBy_slotArgs f)
  have hall : ∀ e ∈ args, NamedBy K e.callees := by
    unfold forwardArgs at hargs
    split at hargs
    · cases pure_eq_ok.mp hargs
      simpa [Expr.callees, namedBy_nil] using hvalue
    · obtain ⟨t, ht, hargs⟩ := bind_eq_ok.mp hargs
      cases pure_eq_ok.mp hargs
      have hmem := List.mem_of_getElem? (getElem?_of_binding ht)
      have htype := namedBy_callGetter (hget t hmem) (namedBy_slotArgs t)
      simpa [Expr.callees, namedBy_nil] using ⟨hvalue, htype⟩
  refine namedBy_callSetter hset (List.forall_mem_append.mpr ⟨namedBy_slotArgs f, ?_⟩)
  exact List.forall_mem_singleton.mpr (namedBy_listCallees.mpr hall)

theorem namedBy_writeInits (hset : ∀ f ∈ l.fields, K (.set l.name f.name)) {fs : List Field}
    (hfs : ∀ f ∈ fs, f ∈ l.fields) (h : writeInits l fs = .ok ss) :
    NamedBy K (Stmt.listCallees ss) := by
  induction fs generalizing ss with
  | nil =>
    cases h
    exact namedBy_nil
  | cons f fs ih =>
    obtain ⟨hf, hfs⟩ := List.forall_mem_cons.mp hfs
    rw [writeInits] at h
    split at h
    · exact ih hfs h
    · next c _ =>
      obtain ⟨st, hst, h⟩ := bind_eq_ok.mp h
      obtain ⟨rest, hrest, h⟩ := bind_eq_ok.mp h
      cases pure_eq_ok.mp h
      refine namedBy_append.mpr ⟨?_, ih hfs hrest⟩
      unfold writeInit at hst
      split at hst
      · cases pure_eq_ok.mp hst
        refine namedBy_callSetter (hset f hf) ?_
        simpa [namedBy_object] using namedBy_initExpr c
      · obtain ⟨s, -, hst⟩ := bind_eq_ok.mp hst
        cases pure_eq_ok.mp hst
        refine namedBy_append.mpr ⟨namedBy_passedCount s, namedBy_append.mpr ⟨?_, namedBy_nil⟩⟩
        refine namedBy_callSetter (hset f hf) ?_
        simpa [namedBy_object, index, Expr.callees, namedBy_nil] using namedBy_initExpr c

theorem namedBy_visitFields (hget : ∀ f ∈ l.fields, K (.get l.name f.name))
    (hset : ∀ f ∈ l.fields, K (.set l.name f.name)) {fs : List Field}
    (hfs : ∀ f ∈ fs, f ∈ l.fields) {read : List String} (h : visitFields l read fs = .ok ss) :
    NamedBy K (Stmt.listCallees ss) := by
  induction fs generalizing read ss with
  | nil =>
    cases h
    exact namedBy_nil
  | cons f fs ih =>
    obtain ⟨hf, hfs⟩ := List.forall_mem_cons.mp hfs
    obtain ⟨forward, hforward, h⟩ := bind_eq_ok.mp h
    have hslot := namedBy_forwardSlot hget (hset f hf) hf hforward
    split at h
    · obtain ⟨rest, hrest, h⟩ := bind_eq_ok.mp h
      cases pure_eq_ok.mp h
      exact namedBy_append.mpr ⟨hslot, ih hfs hrest⟩
    · obtain ⟨s, hs, h⟩ := bind_eq_ok.mp h
      have hloop : NamedBy K (Stmt.loop Name.index (passedCount s) [forward]).callees :=
        namedBy_append.mpr ⟨namedBy_passedCount s, namedBy_append.mpr ⟨hslot, namedBy_nil⟩⟩
      have hcount : NamedBy K (storedCount l s).callees :=
        namedBy_callGetter (hget s (List.mem_of_getElem? (getElem?_of_binding hs)))
          (List.forall_mem_singleton.mpr namedBy_object)
      split at h
      · obtain ⟨rest, hrest, h⟩ := bind_eq_ok.mp h
        cases pure_eq_ok.mp h
        exact namedBy_append.mpr ⟨hloop, ih hfs hrest⟩
      · obtain ⟨rest, hrest, h⟩ := bind_eq_ok.mp h
        cases pure_eq_ok.mp h
        exact namedBy_append.mpr ⟨hcount, namedBy_append.mpr ⟨hloop, ih hfs hrest⟩⟩

theorem followsEdges_visitGcFunction (h : visitGcFunction l = .ok g) : FollowsEdges l g := by
  obtain ⟨body, hbody, h⟩ := bind_eq_ok.mp h
  cases pure_eq_ok.mp h
  exact namedBy_visitFields (fun _ hf => .visit hf) (fun _ hf => .writeBack hf)
    (fun _ hf => List.mem_of_mem_filter hf) hbody

section WellFormed

variable (hwf : l.WellFormed w)
include hwf

theorem followsEdges_offsetFunction (hk : l.fields[k]? = some f)
    (h : offsetFunction w l (l.fields.take k) f = .ok g) : FollowsEdges l g := by
  obtain ⟨offset, hoffset, h⟩ := bind_eq_ok.mp h
  cases pure_eq_ok.mp h
  refine namedBy_of_ret rfl
    (namedBy_termwise.foldClosed.offsetExpr ?_ (fun _ => namedBy_nil) hoffset)
  intro c hc i s hi hs
  exact namedBy_callGetter (.offset hk hs (hwf.lt_of_mem_take hc hi))
    (List.forall_mem_singleton.mpr namedBy_object)

theorem followsEdges_sizeofFunction (h : sizeofFunction l = .ok g) : FollowsEdges l g := by
  obtain ⟨sizes, hsizes, h⟩ := bind_eq_ok.mp h
  cases pure_eq_ok.mp h
  refine namedBy_of_ret rfl (namedBy_invoke (k := .compSize l.name) .sizeof ?_)
  rw [List.forall_mem_map]
  intro s hs
  exact namedBy_callGetter (.readCount (single_of_mem_sizes hwf hsizes hs).1)
    (List.forall_mem_singleton.mpr namedBy_object)

theorem followsEdges_allocFunction (h : allocFunction l = .ok g) : FollowsEdges l g := by
  obtain ⟨sizes, hsizes, h⟩ := bind_eq_ok.mp h
  obtain ⟨inits, hinits, h⟩ := bind_eq_ok.mp h
  cases pure_eq_ok.mp h
  have hsize : NamedBy (Edge l (.alloc l.name))
      (Expr.invoke (Name.compSize l.name) (sizes.map passedCount)).callees :=
    namedBy_invoke (k := .compSize l.name) .alloc
      (List.forall_mem_map.mpr fun s _ => namedBy_passedCount s)
  have hcounts : ∀ st ∈ sizes.map (writeCount l), NamedBy (Edge l (.alloc l.name)) st.callees := by
    rw [List.forall_mem_map]
    intro s hs
    refine namedBy_callSetter (.write (single_of_mem_sizes hwf hsizes hs).1) ?_
    simpa [namedBy_object] using namedBy_passedCount s
  have hwrites := namedBy_stmts.mp (namedBy_writeInits (K := Edge l (.alloc l.name))
    (fun _ hf => .write hf) (fun _ hf => hf) hinits)
  have hrest : ∀ st ∈ sizes.map (writeCount l) ++ inits ++ [.ret (some object)],
      NamedBy (Edge l (.alloc l.name)) st.callees := by
    simp only [List.forall_mem_append, List.forall_mem_singleton]
    exact ⟨⟨hcounts, hwrites⟩, namedBy_object⟩
  exact namedBy_append.mpr ⟨hsize, namedBy_stmts.mpr hrest⟩

theorem followsEdges_of_mem {decls : List Decl} (h : layoutDecls w l = .ok decls) :
    ∀ g ∈ (Program.ofDecls w decls).functions, FollowsEdges l g := by
  obtain ⟨offsets, compSize, sizeof, alloc, visitGc, hoffsets, hcompSize, hsizeof, halloc, hvisitGc,
    rfl⟩ := parts_of_layoutDecls h
  rw [Program.functions_ofDecls]
  simp only [List.mem_append, List.mem_map, List.mem_cons, List.not_mem_nil, or_false]
  rintro g (((hg | ⟨f, hf, rfl⟩) | ⟨f, hf, rfl⟩) | rfl | rfl | rfl | rfl)
  · obtain ⟨k, f, hk, hoffset⟩ := exists_of_mem_offsetFunctionsFrom hoffsets hg
    exact followsEdges_offsetFunction hwf hk hoffset
  · exact followsEdges_getterFunction hf
  · exact followsEdges_setterFunction hf
  · exact followsEdges_compSizeFunction hcompSize
  · exact followsEdges_sizeofFunction hwf hsizeof
  · exact followsEdges_allocFunction hwf halloc
  · exact followsEdges_visitGcFunction hvisitGc

end WellFormed

end Functions

/-! ## Ranks -/

/-- The position of the first field of a given name. -/
def position (l : Layout) (name : String) : Nat :=
  (l.fields.map (·.name)).idxOf name

/-- Functions of fields follow those of the fields before them, and functions of the whole layout
follow all others. Only the size of an object is computed without a call. -/
def rank (l : Layout) : FunctionKind → Nat
  | .offset _ f => 2 * position l f
  | .get _ f | .set _ f => 2 * position l f + 1
  | .compSize _ => 0
  | _ => 2 * l.fields.length + 1

theorem position_le (name : String) : position l name ≤ l.fields.length := by
  simpa [position] using List.idxOf_le_length (a := name) (l := l.fields.map (·.name))

theorem position_eq (hwf : l.WellFormed w) (hk : l.fields[k]? = some f) :
    position l f.name = k := by
  obtain ⟨hlt, rfl⟩ := List.getElem?_eq_some_iff.mp hk
  simpa [position] using List.get_idxOf hwf.names_nodup ⟨k, by simpa using hlt⟩

theorem position_lt (hwf : l.WellFormed w) (hf : f ∈ l.fields) :
    position l f.name < l.fields.length := by
  obtain ⟨k, hk⟩ := List.mem_iff_getElem?.mp hf
  rw [position_eq hwf hk]
  exact (List.getElem?_eq_some_iff.mp hk).1

theorem rank_le (k : FunctionKind) : rank l k ≤ 2 * l.fields.length + 1 := by
  have hle (name : String) : position l name ≤ l.fields.length := position_le name
  cases k with
  | offset _ f | get _ f | set _ f =>
    have := hle f
    simp only [rank]
    omega
  | _ => simp [rank]

theorem Edge.rank_lt (hwf : l.WellFormed w) {a b : FunctionKind} (h : Edge l a b) :
    rank l b < rank l a := by
  cases h with
  | offset hf hs h =>
    simp only [rank, position_eq hwf hf, position_eq hwf hs]
    omega
  | get hf | set hf => simp [rank]
  | sizeof | alloc => simp [rank]
  | readCount hf | write hf | visit hf | writeBack hf =>
    have := position_lt hwf hf
    simp only [rank]
    omega

theorem Edge.layout?_eq {a b : FunctionKind} (h : Edge l a b) : b.layout? = some l.name := by
  cases h <;> rfl

/-! ## What offset functions reach -/

theorem Edge.of_offset {x y : String} {b : FunctionKind} (h : Edge l (.offset x y) b) :
    ∃ (i j : Nat) (f s : Field), l.fields[j]? = some f ∧ f.name = y ∧ l.fields[i]? = some s ∧
      i < j ∧ b = .get l.name s.name := by
  cases h with
  | offset hf hs h => exact ⟨_, _, _, _, hf, rfl, hs, h, rfl⟩

theorem Edge.of_get {x y : String} {b : FunctionKind} (h : Edge l (.get x y) b) :
    b = .offset x y := by
  cases h with
  | get hf => rfl

/-- The function is the getter or the offset function of a field in front of position `j`. -/
def ReadsBefore (l : Layout) (j : Nat) (k : FunctionKind) : Prop :=
  ∃ (i : Nat) (s : Field), i < j ∧ l.fields[i]? = some s ∧
    (k = .offset l.name s.name ∨ k = .get l.name s.name)

/-- From an offset function, calls only lead further to the front. -/
theorem readsBefore_of_transGen (hwf : l.WellFormed w) {a : FunctionKind}
    (hk : l.fields[k]? = some f) (h : Relation.TransGen (Edge l) (.offset l.name f.name) a) :
    ReadsBefore l k a := by
  have hstep {j : Nat} {t : Field} {b : FunctionKind} (hj : l.fields[j]? = some t)
      (h : Edge l (.offset l.name t.name) b) : ReadsBefore l j b := by
    obtain ⟨i, j', f', s, hf', hname, hs, hij, rfl⟩ := h.of_offset
    cases hwf.eq_of_name_eq hf' hj hname
    exact ⟨i, s, hij, hs, .inr rfl⟩
  induction h with
  | single h => exact hstep hk h
  | tail _ h ih =>
    obtain ⟨i, s, hik, hs, rfl | rfl⟩ := ih
    · obtain ⟨i', s', hi, hs', hreached⟩ := hstep hs h
      exact ⟨i', s', hi.trans hik, hs', hreached⟩
    · exact ⟨i, s, hik, hs, .inl h.of_get⟩

end Accessor

/-! ## Calls end -/

/-- No call of a function of the layout goes on forever. -/
structure Program.CallsEnd (p : Program) (l : Layout) : Prop where
  wellFounded : WellFounded fun h g => p.Invokes g h
  /-- Whatever an offset function calls, directly or not, belongs to a field in front of its own. -/
  readsBefore : ∀ (k : Nat) (f : Field) g h, l.fields[k]? = some f →
    g.kind = .offset l.name f.name →
      Relation.TransGen p.Invokes g h → ReadsBefore l k h.kind
  /-- Calls are not nested more deeply than the number of fields allows, whatever the arguments, the
  machine and the platform are. -/
  ends : ∀ g ∈ p.functions, ∀ (P : Platform) (n : Nat) (args : List Value),
    2 * l.fields.length + 3 ≤ n → (p.call P n g.name args).Ends

variable {w : PointerWidth} {l : Layout} {decls : List Decl}

/-- Every call of one function of a layout by another is an edge. -/
theorem edge_of_invokes (hwf : l.WellFormed w) (hdecls : layoutDecls w l = .ok decls)
    {g h : Function} (hcalls : (Program.ofDecls w decls).Invokes g h) : Edge l g.kind h.kind := by
  obtain ⟨k, hedge, hname⟩ := followsEdges_of_mem hwf hdecls g hcalls.caller h.name hcalls.mem
  obtain ⟨fs, rfl, hkinds, hnames⟩ := label_of_layoutDecls hdecls
  have hmem : h ∈ fs := by simpa [Program.functions_ofDecls] using hcalls.callee
  have hkind : h.kind ∈ kinds l := hkinds ▸ List.mem_map_of_mem hmem
  cases FunctionKind.eq_of_name_eq hedge.layout?_eq (layout?_of_mem_kinds hkind)
    (hname.trans (hnames h hmem))
  exact hedge

theorem callsEnd_of_layoutDecls (hwf : l.WellFormed w) (hdecls : layoutDecls w l = .ok decls) :
    (Program.ofDecls w decls).CallsEnd l := by
  have hrank : ∀ g h, (Program.ofDecls w decls).Invokes g h → rank l h.kind < rank l g.kind :=
    fun g h hcalls => (edge_of_invokes hwf hdecls hcalls).rank_lt hwf
  refine ⟨?wellFounded, ?readsBefore, ?ends⟩
  case wellFounded =>
    exact Subrelation.wf (hrank _ _) (measure fun g : Function => rank l g.kind).wf
  case readsBefore =>
    intro k f g h hk hg hcalls
    refine readsBefore_of_transGen hwf hk ?_
    rw [← hg]
    exact hcalls.lift Function.kind fun _ _ => edge_of_invokes hwf hdecls
  case ends =>
    intro g hg P n args hn
    have hfind : (Program.ofDecls w decls).function? g.name = some g :=
      Program.function?_of_mem (nodup_names_of_layoutDecls hwf.names_nodup hdecls) hg
    have hle : rank l g.kind ≤ 2 * l.fields.length + 1 := rank_le g.kind
    exact Program.ends_call_of_rank hrank hfind (by omega) args

/-- On every layout of an accepted schema, calls end. -/
theorem callsEnd_of_resolve {defs : List LayoutDef} {ls : List Layout}
    (h : Schema.resolve w defs = .ok ls) (hl : l ∈ ls) :
    ∃ decls, layoutDecls w l = .ok decls ∧ (Program.ofDecls w decls).CallsEnd l := by
  have hwf := Schema.wellFormed_of_resolve h hl
  obtain ⟨decls, hdecls, -⟩ := exists_layoutDecls hwf
  exact ⟨decls, hdecls, callsEnd_of_layoutDecls hwf hdecls⟩

/-- The hash stands behind the bytes, so its offset depends on the length in front of them. -/
theorem callsEnd_hashed :
    Schema.resolve .eight [bufferDef none none, hashedDef] =
        .ok [bufferLayout none none, hashedLayout] ∧
      ∃ decls, layoutDecls .eight hashedLayout = .ok decls ∧
        (Program.ofDecls .eight decls).CallsEnd hashedLayout ∧
        ∃ g h, (Program.ofDecls .eight decls).Invokes g h ∧ g.kind = .offset "hashed" "hash" ∧
          h.kind = .get "hashed" "n" := by
  have hresolve : Schema.resolve .eight [bufferDef none none, hashedDef] =
      .ok [bufferLayout none none, hashedLayout] := by decide
  obtain ⟨decls, hdecls, hend⟩ :=
    callsEnd_of_resolve hresolve (List.mem_cons_of_mem _ List.mem_cons_self)
  refine ⟨hresolve, decls, hdecls, hend, ?_⟩
  cases hdecls
  exact ⟨_, _, ⟨List.mem_of_getElem? (i := 4) rfl, List.mem_of_getElem? (i := 7) rfl, by decide⟩,
    rfl, rfl⟩

/-- An array in front of its length, which no schema gives. -/
def lateLayout : Layout where
  id := 0
  name := "late"
  category := "plain"
  fields := [
    { name := "xs", type := .uint8, elemSize := 1, sizeField := some 1, align := .static 0 },
    { name := "n", type := .uint32, elemSize := 4, align := .dynamic }]
  sizeFields := [1]

/-- The offset of the length asks for the length, and the other way round. -/
theorem not_callsEnd_late :
    ∃ decls, layoutDecls .eight lateLayout = .ok decls ∧
      ¬(Program.ofDecls .eight decls).CallsEnd lateLayout := by
  obtain ⟨decls, hdecls⟩ : ∃ decls, layoutDecls .eight lateLayout = .ok decls := ⟨_, rfl⟩
  refine ⟨decls, hdecls, fun hend => ?_⟩
  obtain ⟨g, h, hcalls, hback⟩ : ∃ g h, (Program.ofDecls .eight decls).Invokes g h ∧
      (Program.ofDecls .eight decls).Invokes h g := by
    cases hdecls
    exact ⟨_, _, ⟨List.mem_of_getElem? (i := 1) rfl, List.mem_of_getElem? (i := 3) rfl, by decide⟩,
      ⟨List.mem_of_getElem? (i := 3) rfl, List.mem_of_getElem? (i := 1) rfl, by decide⟩⟩
  exact hend.wellFounded.asymmetric _ _ hcalls hback

end HeapLayout.Code
