import HeapLayout.Code.Dispatch
import HeapLayout.Proofs.SharedAccess

/-!
# Dispatch

A dispatcher reads the tag word of an object and does what the function of the layout at that
position does; a word that is no position leads to the unreachable marker
(`dispatches_of_resolve`). How calls of generated functions are answered is left open. As a
dispatcher agrees with a single call whatever calls do to the machine, it makes this call and no
other.

The word is read at a fixed offset, where the getter of every layout finds it, since the header
comes first and is placed alike on all targets (`exists_tag_of_resolve`). It is compared with
constants that are looked up by name; validation has kept their names apart (`constant?_layoutsDecls`).
-/

namespace HeapLayout

open Schema (bind_eq_ok pure_eq_ok)

/-! ## The header -/

/-- A single pointer in front of a tag leaves no gap. -/
theorem Layout.offset_tag {w : PointerWidth} {l : Layout} {next tag : BoundField}
    {own : List BoundField} (hfields : l.fields = planFrom w {} (next :: tag :: own))
    (hnext : next.type = .refptr) (hsingle : next.sizeField = none)
    (htag : tag.type = Schema.tagType) {f : Field} (hf : l.fields[1]? = some f) (κ : Counts) :
    l.offset w κ 1 f 0 = w.bytes := by
  have hsize : next.type.size w = w.bytes := by
    rw [hnext]
    rfl
  have hstop : (planField w {} next).stop w κ 0 = w.bytes := by
    simp [Field.stop, Field.start, Field.length, planField, Cursor.place, Cursor.followsSmaller,
      padTo, hsize, hsingle]
  have hpad : padTo (tag.type.size w) w.bytes = 0 := by
    rw [htag]
    cases w <;> rfl
  have hstart (e : Nat) : f.start w e = e := by
    rw [hfields] at hf
    cases hf
    simpa [Field.start, planField, Cursor.place, Cursor.advance, Cursor.followsSmaller,
      Field.isVariable, padTo, hsingle, hsize] using hpad
  rw [offset, hfields, hstart, Nat.mul_zero, Nat.add_zero]
  exact hstop

namespace Schema

section Header

variable {w : PointerWidth} {defs : List LayoutDef} {ls : List Layout}

/-- The tag stands behind the forwarding pointer, without a pad. -/
theorem exists_tag_of_resolve (h : resolve w defs = .ok ls) {l : Layout} (hl : l ∈ ls) :
    ∃ next tag own, l.fields = next :: tag :: own ∧ next.sizeField = none ∧
      tag.name = tagField ∧ tag.type = tagType ∧ tag.sizeField = none ∧
      ∀ κ, l.offset w κ 1 tag 0 = w.bytes := by
  obtain ⟨t, b, hb, rfl, ⟨own, hfields⟩, -⟩ := exists_plan_of_resolve h hl
  have hbound := fields_of_bind hb List.prefix_rfl
  rw [hfields, headerFields, List.cons_append, List.cons_append, List.nil_append, List.map_cons,
    List.map_cons] at hbound
  have hplan := congrArg (Layout.planFrom w {}) hbound
  have htag := congrArg (·[1]?) hplan
  exact ⟨_, _, _, hplan, rfl, rfl, rfl, rfl, Layout.offset_tag hplan rfl rfl rfl htag⟩

end Header

/-! ## Tag constants -/

section Resolve

variable {w : PointerWidth} {defs : List LayoutDef} {ls : List Layout}

theorem getElem?_of_resolve (h : resolve w defs = .ok ls) {k : Nat} {d : LayoutDef}
    (hd : defs[k]? = some d) : ∃ l, ls[k]? = some l ∧ l.id = k ∧ l.name = d.name := by
  obtain ⟨-, -, flat, -, hstages⟩ := exists_stages_of_resolve h
  obtain ⟨fl, t, b, hst, hplan⟩ := hstages k d hd
  exact ⟨_, hplan, hst.id_eq, hst.name_eq⟩

theorem map_id_of_resolve (h : resolve w defs = .ok ls) :
    ls.map (·.id) = List.range defs.length := by
  obtain ⟨-, hlength, -⟩ := exists_stages_of_resolve h
  refine List.ext_getElem (by simp [hlength]) ?_
  intro k hk hk'
  rw [List.length_range] at hk'
  obtain ⟨l, hl, hid, -⟩ := getElem?_of_resolve h (List.getElem?_eq_getElem hk')
  obtain ⟨_, hl⟩ := List.getElem?_eq_some_iff.mp hl
  rw [List.getElem_map, List.getElem_range, hl, hid]

theorem nodup_tagConstants_of_resolve (h : resolve w defs = .ok ls) :
    (ls.map (·.tagConstant)).Nodup := by
  obtain ⟨hcheck, hlength, -⟩ := exists_stages_of_resolve h
  have hnames : ls.map (·.tagConstant) = (defs.map (·.name)).map Name.tagConstant := by
    refine List.ext_getElem (by simp [hlength]) ?_
    intro k hk hk'
    rw [List.length_map, List.length_map] at hk'
    obtain ⟨l, hl, -, hname⟩ := getElem?_of_resolve h (List.getElem?_eq_getElem hk')
    obtain ⟨_, hl⟩ := List.getElem?_eq_some_iff.mp hl
    rw [List.getElem_map, List.getElem_map, List.getElem_map, hl, Layout.tagConstant, hname]
  have hupper := List.pairwise_map.mp (check_eq_ok_iff.mp hcheck).2
  rw [hnames, List.map_map]
  refine List.pairwise_map.mpr (hupper.imp ?_)
  intro a b hne heq
  exact hne (tagConstant_inj.mp heq)

end Resolve

end Schema

namespace Code

open HeapLayout (Layout PointerWidth LayoutDef)
open Accessor

variable {w : PointerWidth} {ls : List Layout} {l : Layout} {o : Int} {S : Scope} {env : Env}
  {m : Machine} {P : Platform}

/-! ## The program of a schema -/

theorem layoutDecls_eq_ok {decls : List Decl} (h : layoutDecls w l = .ok decls) :
    ∃ fs : List Function, decls = .const l.tagConstant .uint32 l.id :: fs.map .function := by
  obtain ⟨_, _, _, _, _, -, -, -, -, -, rfl⟩ := parts_of_layoutDecls h
  exact ⟨_, rfl⟩

theorem exists_layoutsDecls_iff {A : Arithmetic} : (∃ decls, layoutsDecls w ls A = .ok decls) ↔
    ∀ l ∈ ls, ∃ decls, layoutDecls w l A = .ok decls := by
  induction ls with
  | nil => simp [layoutsDecls]
  | cons l ls ih =>
    rw [List.forall_mem_cons, ← ih]
    constructor
    · rintro ⟨_, h⟩
      obtain ⟨decls, hdecls, h⟩ := bind_eq_ok.mp h
      obtain ⟨rest, hrest, -⟩ := bind_eq_ok.mp h
      exact ⟨⟨decls, hdecls⟩, rest, hrest⟩
    · rintro ⟨⟨decls, hdecls⟩, rest, hrest⟩
      exact ⟨_, bind_eq_ok.mpr ⟨decls, hdecls, bind_eq_ok.mpr ⟨rest, hrest, rfl⟩⟩⟩

theorem exists_layoutsDecls (h : ∀ l ∈ ls, l.WellFormed w) :
    ∃ decls, layoutsDecls w ls = .ok decls := by
  refine exists_layoutsDecls_iff.mpr fun l hl => ?_
  obtain ⟨decls, hdecls, -⟩ := exists_layoutDecls (h l hl)
  exact ⟨decls, hdecls⟩

theorem constant?_cons_const (name x : String) (p : Prim) (v : Int) (decls : List Decl) :
    (Program.ofDecls w (.const x p v :: decls)).constant? name =
      if x = name then some v else (Program.ofDecls w decls).constant? name := by
  by_cases h : x = name <;> simp [Program.constant?, Program.ofDecls, h]

theorem constant?_functions_append (name : String) (fs : List Function) (decls : List Decl) :
    (Program.ofDecls w (fs.map .function ++ decls)).constant? name =
      (Program.ofDecls w decls).constant? name := by
  induction fs with
  | nil => rfl
  | cons f fs ih => exact ih

/-- A tag constant is found under its name if no other layout's has that name. -/
theorem constant?_layoutsDecls {decls : List Decl} (h : layoutsDecls w ls = .ok decls)
    (hnodup : (ls.map (·.tagConstant)).Nodup) (hl : l ∈ ls) (more : List Decl) :
    (Program.ofDecls w (decls ++ more)).constant? l.tagConstant = some (l.id : Int) := by
  induction ls generalizing decls with
  | nil => cases hl
  | cons head ls ih =>
    obtain ⟨hnew, hnodup⟩ := List.nodup_cons.mp hnodup
    obtain ⟨own, hown, h⟩ := bind_eq_ok.mp h
    obtain ⟨rest, hrest, h⟩ := bind_eq_ok.mp h
    cases pure_eq_ok.mp h
    obtain ⟨fs, rfl⟩ := layoutDecls_eq_ok hown
    rw [List.cons_append, List.cons_append, List.append_assoc, constant?_cons_const,
      constant?_functions_append]
    rcases List.mem_cons.mp hl with rfl | hl
    · rw [if_pos rfl]
    · have hne : head.tagConstant ≠ l.tagConstant := by
        intro heq
        exact hnew (List.mem_map.mpr ⟨l, hl, heq.symm⟩)
      rw [if_neg hne]
      exact ih hrest hnodup hl

namespace Dispatch

variable {f : Function} {name : String} {arm : Layout → List Stmt}

/-- Every dispatcher passes its own check. -/
theorem check_of_body (h : f.body = body w name arm ls) : check f ls = .ok () := by
  have harms : arms f = ls.map (·.tagConstant) := by
    have harm : arm? ∘ (fun l => Stmt.cond (tagIs l) (arm l)) = some ∘ fun l => l.tagConstant := rfl
    rw [arms, h, body, List.cons_append, List.filterMap_cons_none rfl, List.filterMap_append,
      List.filterMap_map, harm, List.filterMap_eq_map, List.filterMap_cons_none rfl,
      List.filterMap_nil, List.append_nil]
  have hlast : f.body.getLast? = some (.unreachable ("invalid layout in " ++ name)) := by
    rw [h, body, List.getLast?_concat]
  simp [check, harms, hlast, isUnreachable]

theorem functions_eq_ok (w : PointerWidth) (ls : List Layout) :
    functions w ls = .ok [sizeofFunction w ls, visitGcFunction w ls] := by
  have hsizeof : check (sizeofFunction w ls) ls = .ok () := check_of_body rfl
  have hvisitGc : check (visitGcFunction w ls) ls = .ok () := check_of_body rfl
  rw [functions, hsizeof, hvisitGc]
  rfl

/-! ## Running a dispatcher -/

/-- The tag word of the object at `o`. -/
def tagWord (P : Platform) (o : Int) (m : Machine) : Int :=
  m.bytes.load P.width Schema.tagType (o + P.width.bytes)

section Arms

variable {ss : List Stmt} {t : Int} {x : Run (Option Int)}
  (hconst : ∀ l ∈ ls, S.constant l.tagConstant = some (l.id : Int))

theorem eval_tagIs (htag : env Name.tag = some t)
    (hconst : S.constant l.tagConstant = some (l.id : Int)) :
    (tagIs l).eval S env m = .ok (if t = l.id then 1 else 0, m) :=
  Expr.eval_bin .eq (Expr.eval_var htag) (Expr.eval_layoutId hconst)

include hconst

/-- The arms of other layouts are passed by. -/
theorem execAll_arms_of_ne (htag : env Name.tag = some t) (hne : ∀ l ∈ ls, t ≠ l.id) :
    Stmt.execAll S (ls.map (fun l => .cond (tagIs l) (arm l)) ++ ss) env m =
      Stmt.execAll S ss env m := by
  induction ls with
  | nil => rfl
  | cons l ls ih =>
    obtain ⟨hl, hls⟩ := List.forall_mem_cons.mp hconst
    obtain ⟨hnel, hnels⟩ := List.forall_mem_cons.mp hne
    have htest := eval_tagIs (m := m) htag hl
    rw [if_neg hnel] at htest
    exact (Stmt.execAll_cons (Stmt.exec_cond_of_zero htest)).trans (ih hls hnels)

/-- The arm of the layout with the tag is run, and no other. -/
theorem execAll_arms_of_mem (htag : env Name.tag = some (l.id : Int))
    (hids : (ls.map (·.id)).Nodup) (hl : l ∈ ls)
    (harm : Stmt.execAll S (arm l) env m = (x >>= fun r => pure (.returned r)) m) :
    Stmt.execAll S (ls.map (fun l => .cond (tagIs l) (arm l)) ++ ss) env m =
      (x >>= fun r => pure (.returned r)) m := by
  induction ls with
  | nil => cases hl
  | cons head ls ih =>
    obtain ⟨hhead, hconst⟩ := List.forall_mem_cons.mp hconst
    obtain ⟨hnew, hids⟩ := List.nodup_cons.mp hids
    have htest := eval_tagIs (m := m) htag hhead
    rcases List.mem_cons.mp hl with rfl | hl
    · rw [if_pos rfl] at htest
      exact Stmt.execAll_cond_of_returned htest one_ne_zero harm
    · have hne : (l.id : Int) ≠ head.id := by
        intro heq
        exact hnew (List.mem_map.mpr ⟨l, hl, Int.ofNat_inj.mp heq⟩)
      rw [if_neg hne] at htest
      exact (Stmt.execAll_cons (Stmt.exec_cond_of_zero htest)).trans (ih hconst hids hl)

end Arms

section Run

variable {args : List Value} {x : Run (Option Int)}
  (hbody : f.body = body S.platform.width name arm ls)
  (hbind : bindParams (fun _ => none) f.params args = some env)
  (hobject : env Name.object = some o)
  (hconst : ∀ l ∈ ls, S.constant l.tagConstant = some (l.id : Int))

include hobject in
theorem exec_readTag :
    (readTag S.platform.width).exec S env m =
      .ok (.next (env.set Name.tag (tagWord S.platform o m)), m) :=
  Stmt.exec_bind (Expr.eval_load Schema.tagType (Expr.eval_var hobject) (Expr.eval_const _))

include hbody hbind hobject hconst

theorem run_of_tag (hids : (ls.map (·.id)).Nodup) (hl : l ∈ ls)
    (htag : tagWord S.platform o m = l.id)
    (harm : Stmt.execAll S (arm l) (env.set Name.tag l.id) m =
      (x >>= fun r => pure (.returned r)) m) : f.run S args m = x m := by
  refine Function.run_of_eq hbind ?_
  rw [hbody, body, List.cons_append, Stmt.execAll_cons (exec_readTag hobject), htag]
  exact execAll_arms_of_mem hconst (Env.set_self _ _ _) hids hl harm

theorem run_of_no_tag (hne : ∀ l ∈ ls, tagWord S.platform o m ≠ l.id) :
    f.run S args m = .error (.unreachable ("invalid layout in " ++ name)) := by
  refine Function.run_of_error hbind ?_
  rw [hbody, body, List.cons_append, Stmt.execAll_cons (exec_readTag hobject),
    execAll_arms_of_ne hconst (Env.set_self _ _ _) hne]
  exact Stmt.execAll_unreachable _

end Run

/-! ## The arms -/

theorem execAll_sizeofArm (hobject : env Name.object = some o) :
    Stmt.execAll S (sizeofArm l) env m = ((S.calls (Name.sizeof l.name) [.int o] >>= fun r =>
      pure (some (r.getD 0))) >>= fun r => pure (.returned r)) m := by
  rw [sizeofArm, Stmt.execAll, Stmt.exec, bind_assoc,
    Run.bind_congr_of_eq (Expr.eval_invoke_of_args (evalArgs_object hobject))]
  simp only [bind_assoc, pure_bind, Flow.andThen]

theorem execAll_visitGcArm (hobject : env Name.object = some o) :
    Stmt.execAll S (visitGcArm l) env m = ((S.calls (Name.visitGc l.name) [.context, .int o] >>=
      fun _ => pure none) >>= fun r => pure (.returned r)) m := by
  have hargs : Expr.evalArgs S env [.context, object] m = .ok ([.context, .int o], m) :=
    Expr.evalArgs_context (evalArgs_object hobject)
  rw [visitGcArm, Stmt.execAll, Stmt.exec, bind_assoc,
    Run.bind_congr_of_eq (Expr.eval_invoke_of_args hargs)]
  simp only [bind_assoc, pure_bind, Flow.andThen, Stmt.execAll, Stmt.exec]

end Dispatch

/-! ## Dispatchers of a schema -/

/-- The getter of the tag answers with the tag word, whatever the object is. -/
theorem returns_getTag {defs : List LayoutDef} (h : Schema.resolve P.width defs = .ok ls)
    (hl : l ∈ ls) {p : Program} (hp : p.Implements P.width l) (o : Int) (m : Machine) :
    p.Returns P (Name.getter l.name Schema.tagField) [.int o] m
      (some (Dispatch.tagWord P o m)) m := by
  obtain ⟨next, tag, own, hfields, hnext, hname, htype, hsingle, hoffset⟩ :=
    Schema.exists_tag_of_resolve h hl
  have hk : l.fields[1]? = some tag := by rw [hfields]; rfl
  have hstored : Stored P.width l (fun _ => 0) m.bytes o 1 := by
    intro f hf i s hi
    rw [hfields] at hf
    cases List.mem_singleton.mp hf
    cases hnext.symm.trans hi
  have hget := call_getter (Schema.wellFormed_of_resolve h hl) hp hstored hk (fun _ => rfl) le_rfl
  rw [slotValues_of_none hsingle, hname, htype, hoffset] at hget
  exact ⟨_, hget⟩

/-- What the dispatchers do with the object at `o`, if calls of generated functions are answered by
`calls`: they go by the tag word and do what the function of the layout of that number does. -/
structure Program.Dispatches (p : Program) (P : Platform) (defs : List LayoutDef)
    (ls : List Layout) (calls : Calls) (o : Int) (m : Machine) : Prop where
  sizeof : ∀ (k : Nat) d, defs[k]? = some d → Dispatch.tagWord P o m = k →
    (Dispatch.sizeofFunction P.width ls).run ⟨P, p.constant?, calls⟩ [.int o] m =
      (calls (Name.sizeof d.name) [.int o] >>= fun r => pure (some (r.getD 0))) m
  visitGc : ∀ (k : Nat) d, defs[k]? = some d → Dispatch.tagWord P o m = k →
    (Dispatch.visitGcFunction P.width ls).run ⟨P, p.constant?, calls⟩ [.context, .int o] m =
      (calls (Name.visitGc d.name) [.context, .int o] >>= fun _ => pure none) m
  /-- A word that is no tag gets to the unreachable marker, before any call. -/
  unreachable : (∀ k : Nat, k < defs.length → Dispatch.tagWord P o m ≠ k) →
    (Dispatch.sizeofFunction P.width ls).run ⟨P, p.constant?, calls⟩ [.int o] m =
        .error (.unreachable ("invalid layout in " ++ Name.dispatchSizeof)) ∧
      (Dispatch.visitGcFunction P.width ls).run ⟨P, p.constant?, calls⟩ [.context, .int o] m =
        .error (.unreachable ("invalid layout in " ++ Name.dispatchVisitGc))

theorem dispatches_of_constants {defs : List LayoutDef} (h : Schema.resolve P.width defs = .ok ls)
    {p : Program} (hconst : ∀ l ∈ ls, p.constant? l.tagConstant = some (l.id : Int))
    (calls : Calls) (o : Int) (m : Machine) : p.Dispatches P defs ls calls o m := by
  have hmap := Schema.map_id_of_resolve h
  have hids : (ls.map (·.id)).Nodup := hmap ▸ List.nodup_range
  have hobject : (Env.set (fun _ => none) Name.object o) Name.object = some o := Env.set_self _ _ _
  have harm (t : Int) : ((Env.set (fun _ => none) Name.object o).set Name.tag t) Name.object =
      some o := (Env.set_of_ne (by decide) t).trans hobject
  refine ⟨?sizeof, ?visitGc, ?unreachable⟩
  case sizeof =>
    intro k d hd htag
    obtain ⟨l, hl, rfl, hname⟩ := Schema.getElem?_of_resolve h hd
    rw [← hname]
    exact Dispatch.run_of_tag rfl rfl hobject hconst hids (List.mem_of_getElem? hl) htag
      (Dispatch.execAll_sizeofArm (harm _))
  case visitGc =>
    intro k d hd htag
    obtain ⟨l, hl, rfl, hname⟩ := Schema.getElem?_of_resolve h hd
    rw [← hname]
    exact Dispatch.run_of_tag rfl rfl hobject hconst hids (List.mem_of_getElem? hl) htag
      (Dispatch.execAll_visitGcArm (harm _))
  case unreachable =>
    intro hnot
    have hne : ∀ l ∈ ls, Dispatch.tagWord P o m ≠ l.id := by
      intro l hl
      have hmem : l.id ∈ List.range defs.length := hmap ▸ List.mem_map_of_mem hl
      exact hnot l.id (List.mem_range.mp hmem)
    exact ⟨Dispatch.run_of_no_tag rfl rfl hobject hconst hne,
      Dispatch.run_of_no_tag rfl rfl hobject hconst hne⟩

/-- An accepted schema has its dispatchers, and the getter of the tag of every layout answers with
the word that they read. -/
theorem dispatches_of_resolve {defs : List LayoutDef} (h : Schema.resolve P.width defs = .ok ls) :
    Dispatch.functions P.width ls =
        .ok [Dispatch.sizeofFunction P.width ls, Dispatch.visitGcFunction P.width ls] ∧
      (∀ l ∈ ls, ∃ decls, layoutDecls P.width l = .ok decls ∧ ∀ o m,
        (Program.ofDecls P.width decls).Returns P (Name.getter l.name Schema.tagField) [.int o] m
          (some (Dispatch.tagWord P o m)) m) ∧
      ∃ p, Program.ofLayouts P.width ls = .ok p ∧
        ∀ calls o m, p.Dispatches P defs ls calls o m := by
  have hwf : ∀ l ∈ ls, l.WellFormed P.width := fun _ hl => Schema.wellFormed_of_resolve h hl
  have hfunctions := Dispatch.functions_eq_ok P.width ls
  refine ⟨hfunctions, ?_, ?_⟩
  · intro l hl
    obtain ⟨decls, hdecls, hp⟩ := exists_layoutDecls (hwf l hl)
    exact ⟨decls, hdecls, returns_getTag h hl hp⟩
  · obtain ⟨decls, hdecls⟩ := exists_layoutsDecls hwf
    refine ⟨_, bind_eq_ok.mpr ⟨decls, hdecls, bind_eq_ok.mpr ⟨_, hfunctions, rfl⟩⟩, ?_⟩
    intro calls o m
    refine dispatches_of_constants h ?_ calls o m
    intro l hl
    exact constant?_layoutsDecls hdecls (Schema.nodup_tagConstants_of_resolve h) hl _

theorem dispatches_hashed :
    Schema.resolve .eight [bufferDef none none, hashedDef] =
        .ok [bufferLayout none none, hashedLayout] ∧
      ∃ p, Program.ofLayouts .eight [bufferLayout none none, hashedLayout] = .ok p ∧ ∀ calls,
        (Dispatch.sizeofFunction .eight [bufferLayout none none, hashedLayout]).run
            ⟨examplePlatform, p.constant?, calls⟩ [.int 0]
            { bytes := fun a => if a = 8 then 1 else 0 } =
          (calls "hashed_sizeof" [.int 0] >>= fun r => pure (some (r.getD 0)))
            { bytes := fun a => if a = 8 then 1 else 0 } := by
  have hresolve : Schema.resolve examplePlatform.width [bufferDef none none, hashedDef] =
      .ok [bufferLayout none none, hashedLayout] := by decide
  obtain ⟨-, -, p, hp, hdispatches⟩ := dispatches_of_resolve hresolve
  exact ⟨hresolve, p, hp, fun calls => (hdispatches calls 0 _).sizeof 1 hashedDef rfl rfl⟩

end Code

end HeapLayout
