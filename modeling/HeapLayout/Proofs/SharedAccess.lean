import HeapLayout.Proofs.Inheritance
import HeapLayout.Proofs.SlotOrder

/-!
# Access to inherited fields

The accessors of an inherited field are generated once for the parent and once more for each child,
under different names, and they call one another by these names. Still they do the same on every
object (`inherits_of_resolve`), so code for the parent works on objects of a child.

Both offset functions add up the same spans (`sameValue_prefixSumFrom`), provided that the getters
of the size fields in front agree. These ask for offsets further to the front, so the recursion ends
in both programs at once (`exists_call_offset`). What memory holds does not matter: a count may
as well be negative.
-/

namespace HeapLayout.Code

open HeapLayout (Layout Field FieldId PointerWidth LayoutDef)
open Accessor
open Schema (bind_eq_ok pure_eq_ok)

variable {w : PointerWidth} {l l' : Layout} {f : Field} {id i k n : Nat} {o : Int} {S S' : Scope}
  {env : Env} {m : Machine} {p q : Program} {P : Platform}

/-! ## Two scopes -/

/-- The expressions have the same value, each in its own scope, and leave no trace. -/
def SameValue (S S' : Scope) (env : Env) (m : Machine) (e e' : Expr) : Prop :=
  ∃ v, e.eval S env m = .ok (v, m) ∧ e'.eval S' env m = .ok (v, m)

namespace SameValue

variable {a a' b b' : Expr}

theorem const (v : Int) : SameValue S S' env m (.const v) (.const v) :=
  ⟨v, rfl, rfl⟩

theorem var {x : String} {v : Int} (h : env x = some v) :
    SameValue S S' env m (.var x) (.var x) :=
  ⟨v, Expr.eval_var h, Expr.eval_var h⟩

theorem add (ha : SameValue S S' env m a a') (hb : SameValue S S' env m b b') :
    SameValue S S' env m (a.add b) (a'.add b') := by
  obtain ⟨x, hx, hx'⟩ := ha
  obtain ⟨y, hy, hy'⟩ := hb
  exact ⟨x + y, Expr.eval_add_of_ok hx hy, Expr.eval_add_of_ok hx' hy'⟩

theorem mul (ha : SameValue S S' env m a a') (hb : SameValue S S' env m b b') :
    SameValue S S' env m (a.mul b) (a'.mul b') := by
  obtain ⟨x, hx, hx'⟩ := ha
  obtain ⟨y, hy, hy'⟩ := hb
  exact ⟨x * y, Expr.eval_mul_of_ok hx hy, Expr.eval_mul_of_ok hx' hy'⟩

theorem alignUp (ha : SameValue S S' env m a a') (unit : Nat) :
    SameValue S S' env m (a.alignUp unit) (a'.alignUp unit) := by
  obtain ⟨x, hx, hx'⟩ := ha.add (const (signed64 unit - 1))
  refine ⟨bitAnd x (-signed64 unit), ?_, ?_⟩
  · rw [Expr.alignUp, Expr.eval_and]
    exact Expr.eval_bin .and hx (Expr.eval_const _)
  · rw [Expr.alignUp, Expr.eval_and]
    exact Expr.eval_bin .and hx' (Expr.eval_const _)

end SameValue

/-! ## Sums of inherited spans -/

section Sums

variable {sum sum' e e' : Expr} {fs : List Field}

theorem sameValue_aligned (hsum : SameValue S S' env m sum sum') :
    SameValue S S' env m (aligned w sum f) (aligned w sum' (f.withTag id)) := by
  show SameValue S S' env m (aligned w sum f) (aligned w sum' f)
  unfold aligned
  cases f.align with
  | dynamic => exact hsum.alignUp w.bytes
  | static pad => exact hsum.add (.const _)

/-- The expressions for the counts of the given fields have the same values. -/
def SameCounts (S S' : Scope) (env : Env) (m : Machine) (l l' : Layout) (fs : List Field) : Prop :=
  ∀ f ∈ fs, ∀ i s, f.sizeField = some i → l.fields[i]? = some s →
    SameValue S S' env m (storedCount l s) (storedCount l' s)

variable (hpre : l.fields.map (Field.withTag id) <+: l'.fields)

include hpre

theorem getElem?_withTag (hk : l.fields[k]? = some f) : l'.fields[k]? = some (f.withTag id) := by
  have hlt : k < (l.fields.map (Field.withTag id)).length := by
    rw [List.length_map]
    exact (List.getElem?_eq_some_iff.mp hk).1
  obtain ⟨rest, hrest⟩ := hpre
  rw [← hrest, List.getElem?_append_left hlt, List.getElem?_map, hk, Option.map_some]

theorem take_withTag (hk : k ≤ l.fields.length) :
    l'.fields.take k = (l.fields.take k).map (Field.withTag id) := by
  obtain ⟨rest, hrest⟩ := hpre
  rw [← hrest, List.take_append_of_le_length (by rwa [List.length_map]), List.map_take]

theorem sameValue_span (he : span l (storedCount l) f = .ok e)
    (he' : span l' (storedCount l') (f.withTag id) = .ok e')
    (hcount : SameCounts S S' env m l l' [f]) : SameValue S S' env m e e' := by
  unfold span at he he'
  have hsame : (f.withTag id).sizeField = f.sizeField := rfl
  cases hs : f.sizeField with
  | none =>
    simp only [hsame, hs] at he he'
    cases he
    cases he'
    exact .const _
  | some i =>
    simp only [hsame, hs] at he he'
    obtain ⟨s, hbinding, he⟩ := bind_eq_ok.mp he
    obtain ⟨s', hbinding', he'⟩ := bind_eq_ok.mp he'
    cases pure_eq_ok.mp he
    cases pure_eq_ok.mp he'
    have hget := getElem?_of_binding hbinding
    cases (getElem?_of_binding hbinding').symm.trans (getElem?_withTag hpre hget)
    exact (SameValue.const _).mul (hcount f (List.mem_singleton_self f) i s hs hget)

theorem sameValue_prefixSumFrom (he : prefixSumFrom w l (storedCount l) sum fs = .ok e)
    (he' : prefixSumFrom w l' (storedCount l') sum' (fs.map (Field.withTag id)) = .ok e')
    (hsum : SameValue S S' env m sum sum') (hcount : SameCounts S S' env m l l' fs) :
    SameValue S S' env m e e' := by
  induction fs generalizing sum sum' with
  | nil =>
    cases he
    cases he'
    exact hsum
  | cons f fs ih =>
    obtain ⟨bytes, hbytes, he⟩ := bind_eq_ok.mp he
    obtain ⟨bytes', hbytes', he'⟩ := bind_eq_ok.mp he'
    obtain ⟨hcf, hcfs⟩ := List.forall_mem_cons.mp hcount
    have hspan := sameValue_span hpre hbytes hbytes' (List.forall_mem_singleton.mpr hcf)
    exact ih he he' ((sameValue_aligned hsum).add hspan) hcfs

theorem sameValue_offsetExpr (hk : l.fields[k]? = some f)
    (he : offsetExpr w l (l.fields.take k) f = .ok e)
    (he' : offsetExpr w l' (l'.fields.take k) (f.withTag id) = .ok e')
    (henv : SelectsSlot env f o i) (hcount : SameCounts S S' env m l l' (l.fields.take k)) :
    SameValue S S' env m e e' := by
  rw [take_withTag hpre (List.getElem?_eq_some_iff.mp hk).1.le] at he'
  obtain ⟨sum, hsum, he⟩ := bind_eq_ok.mp he
  obtain ⟨sum', hsum', he'⟩ := bind_eq_ok.mp he'
  have hstart : SameValue S S' env m (aligned w sum f) (aligned w sum' (f.withTag id)) :=
    sameValue_aligned (sameValue_prefixSumFrom hpre hsum hsum' (.const 0) hcount)
  cases pure_eq_ok.mp he
  cases pure_eq_ok.mp he'
  show SameValue S S' env m (if f.isVariable then _ else _) (if f.isVariable then _ else _)
  split
  · next hvar => exact hstart.add ((SameValue.const _).mul (.var (henv.index hvar)))
  · exact hstart

end Sums

/-! ## Shared accessors -/

section Calls

variable (hp : p.Implements P.width l) (hq : q.Implements P.width l')
  (hpre : l.fields.map (Field.withTag id) <+: l'.fields)

include hq hpre

/-- The child's accessors of an inherited field have the same names and kinds as the parent's. -/
theorem call_getter_of_inherited (hk : l.fields[k]? = some f) {a : Int}
    (h : q.call P n (Name.offset l'.name f.name) (slotValues f o i) m = .ok (some a, m)) :
    q.call P (n + 1) (Name.getter l'.name f.name) (slotValues f o i) m =
      .ok (some (m.bytes.load P.width f.type (o + a)), m) :=
  call_getter_of_offset (f := f.withTag id) hq (List.mem_of_getElem? (getElem?_withTag hpre hk)) h

theorem call_setter_of_inherited (hk : l.fields[k]? = some f) {a : Int}
    (h : q.call P n (Name.offset l'.name f.name) (slotValues f o i) m = .ok (some a, m)) (v : Int) :
    q.call P (n + 1) (Name.setter l'.name f.name) (slotValues f o i ++ [.int v]) m =
      .ok (none, { m with bytes := m.bytes.store P.width f.type (o + a) v }) :=
  call_setter_of_offset (f := f.withTag id) hq (List.mem_of_getElem? (getElem?_withTag hpre hk)) h v

include hp

theorem exists_call_offset_of_sameCounts (hk : l.fields[k]? = some f)
    (hcount : ∀ env, env Name.object = some o →
      SameCounts (p.scope P n) (q.scope P n) env m l l' (l.fields.take k)) :
    ∃ a, p.call P (n + 1) (Name.offset l.name f.name) (slotValues f o i) m = .ok (some a, m) ∧
      q.call P (n + 1) (Name.offset l'.name f.name) (slotValues f o i) m = .ok (some a, m) := by
  obtain ⟨g, hg, hfind⟩ := hp.offset hk
  obtain ⟨g', hg', hfind'⟩ := hq.offset (getElem?_withTag hpre hk)
  obtain ⟨e, he, hg⟩ := bind_eq_ok.mp hg
  obtain ⟨e', he', hg'⟩ := bind_eq_ok.mp hg'
  cases pure_eq_ok.mp hg
  cases pure_eq_ok.mp hg'
  obtain ⟨env, hbind, henv⟩ := exists_bindParams_slot f o i
  obtain ⟨a, ha, ha'⟩ := sameValue_offsetExpr hpre hk he he' henv (hcount env henv.object)
  refine ⟨a, ?_, ?_⟩
  · rw [Program.call_succ hfind]
    exact Function.run_of_returned hbind (Stmt.execAll_ret ha)
  · refine (Program.call_succ hfind' (slotValues f o i) ▸ ?_)
    exact Function.run_of_returned hbind (Stmt.execAll_ret ha')

/-- The depth of calls is bounded by the position of the field, in either program. -/
theorem exists_call_offset (hwf : l.WellFormed P.width) (hk : l.fields[k]? = some f)
    (hn : 2 * k + 1 ≤ n) :
    ∃ a, p.call P n (Name.offset l.name f.name) (slotValues f o i) m = .ok (some a, m) ∧
      q.call P n (Name.offset l'.name f.name) (slotValues f o i) m = .ok (some a, m) := by
  induction k using Nat.strong_induction_on generalizing f i n with
  | _ k ih =>
    obtain ⟨n, rfl⟩ : ∃ n', n = n' + 1 := ⟨n - 1, by omega⟩
    apply exists_call_offset_of_sameCounts hp hq hpre hk
    intro env ho g hg (j : Nat) s hj hs
    have hjk := hwf.lt_of_mem_take hg hj
    have hnone := hwf.sizeField_eq_none (hwf.mem_sizeFields_of_mem_take hg hj) hs
    obtain ⟨n, rfl⟩ : ∃ n', n = n' + 1 := ⟨n - 1, by omega⟩
    have hdepth : 2 * j + 1 ≤ n := by omega
    obtain ⟨a, ha, ha'⟩ := ih j hjk hs hdepth (i := 0)
    have hget := call_getter_of_offset hp (List.mem_of_getElem? hs) ha
    have hget' := call_getter_of_inherited hq hpre hs ha'
    rw [slotValues_of_none hnone] at hget hget'
    exact ⟨_, eval_storedCount ho hget, eval_storedCount ho hget'⟩

end Calls

/-- The accessors of the field do the same in both programs, on every object, whatever memory
holds: `p` has those of the layout `l`, and `q` those of `l'`. -/
structure SharesAccess (p q : Program) (P : Platform) (l l' : Layout) (f : Field) : Prop where
  offset : ∀ o i m, ∃ a, p.Returns P (Name.offset l.name f.name) (slotValues f o i) m (some a) m ∧
    q.Returns P (Name.offset l'.name f.name) (slotValues f o i) m (some a) m
  getter : ∀ o i m, ∃ x, p.Returns P (Name.getter l.name f.name) (slotValues f o i) m (some x) m ∧
    q.Returns P (Name.getter l'.name f.name) (slotValues f o i) m (some x) m
  setter : ∀ o i v m, ∃ m',
    p.Returns P (Name.setter l.name f.name) (slotValues f o i ++ [.int v]) m none m' ∧
      q.Returns P (Name.setter l'.name f.name) (slotValues f o i ++ [.int v]) m none m'

theorem sharesAccess_of_prefix (hwf : l.WellFormed P.width) (hp : p.Implements P.width l)
    (hq : q.Implements P.width l') (hpre : l.fields.map (Field.withTag id) <+: l'.fields)
    (hf : f ∈ l.fields) : SharesAccess p q P l l' f := by
  obtain ⟨k, hk⟩ := List.mem_iff_getElem?.mp hf
  have hcall (o : Int) (i : Nat) (m : Machine) := exists_call_offset (i := i) (o := o) (m := m)
    hp hq hpre hwf hk le_rfl
  refine ⟨?offset, ?getter, ?setter⟩
  case offset =>
    intro o i m
    obtain ⟨a, ha, ha'⟩ := hcall o i m
    exact ⟨a, ⟨_, ha⟩, ⟨_, ha'⟩⟩
  case getter =>
    intro o i m
    obtain ⟨a, ha, ha'⟩ := hcall o i m
    exact ⟨_, ⟨_, call_getter_of_offset hp hf ha⟩, ⟨_, call_getter_of_inherited hq hpre hk ha'⟩⟩
  case setter =>
    intro o i v m
    obtain ⟨a, ha, ha'⟩ := hcall o i m
    exact ⟨_, ⟨_, call_setter_of_offset hp hf ha v⟩,
      ⟨_, call_setter_of_inherited hq hpre hk ha' v⟩⟩

/-- In an accepted schema every layout starts with the fields of each layout up the chain, and
wherever both have their accessors, in one program or in two, those of inherited fields are
interchangeable. -/
theorem inherits_of_resolve {defs : List LayoutDef} {ls : List Layout}
    (h : Schema.resolve P.width defs = .ok ls) {i j : Nat}
    (hchain : Relation.TransGen (Schema.Extends defs) i j) {child parent : Layout}
    (hchild : ls[i]? = some child) (hparent : ls[j]? = some parent) :
    child.StartsWith parent ∧
      (∀ l ∈ [parent, child], ∃ decls, layoutDecls P.width l = .ok decls ∧
        (Program.ofDecls P.width decls).Implements P.width l) ∧
      ∀ p q : Program, p.Implements P.width parent → q.Implements P.width child →
        ∀ f ∈ parent.fields, SharesAccess p q P parent child f := by
  have hwf {k : Nat} {l : Layout} (hk : ls[k]? = some l) : l.WellFormed P.width :=
    Schema.wellFormed_of_resolve h (List.mem_of_getElem? hk)
  have hstarts := Schema.startsWith_of_resolve h hchain hchild hparent
  refine ⟨hstarts, ?_, ?_⟩
  · exact List.forall_mem_cons.mpr ⟨exists_layoutDecls (hwf hparent),
      List.forall_mem_singleton.mpr (exists_layoutDecls (hwf hchild))⟩
  · intro p q hp hq f hf
    exact sharesAccess_of_prefix (hwf hparent) hp hq hstarts.fields hf

/-! ### A buffer with a hash -/

/-- A buffer whose hash stands behind the bytes, where it is rounded up at run time. -/
def hashedDef : LayoutDef where
  name := "hashed"
  parent := some "buf"
  category := "plain"
  fields := [{ name := "hash", type := .uint32 }]

def hashedLayout : Layout where
  id := 1
  name := "hashed"
  category := "plain"
  fields := (bufferLayout none none).fields.map (Field.withTag 1) ++
    [{ name := "hash", type := .uint32, elemSize := 4, align := .dynamic }]
  sizeFields := [2]

theorem inherits_hashed :
    Schema.resolve .eight [bufferDef none none, hashedDef] =
        .ok [bufferLayout none none, hashedLayout] ∧
      hashedLayout.StartsWith (bufferLayout none none) ∧
      ∃ decls decls' f, layoutDecls .eight (bufferLayout none none) = .ok decls ∧
        layoutDecls .eight hashedLayout = .ok decls' ∧
        (bufferLayout none none).fields[3]? = some f ∧
        SharesAccess (Program.ofDecls .eight decls) (Program.ofDecls .eight decls')
          examplePlatform (bufferLayout none none) hashedLayout f := by
  have hresolve : Schema.resolve examplePlatform.width [bufferDef none none, hashedDef] =
      .ok [bufferLayout none none, hashedLayout] := by decide
  have hextends : Schema.Extends [bufferDef none none, hashedDef] 1 0 :=
    ⟨_, _, rfl, rfl, rfl⟩
  obtain ⟨hstarts, hdecls, hshares⟩ := inherits_of_resolve hresolve (.single hextends) rfl rfl
  obtain ⟨decls, hbuf, hp⟩ := hdecls _ (List.mem_cons_self)
  obtain ⟨decls', hhashed, hq⟩ := hdecls _ (List.mem_cons_of_mem _ (List.mem_singleton_self _))
  exact ⟨hresolve, hstarts, decls, decls', _, hbuf, hhashed, rfl,
    hshares _ _ hp hq _ (List.mem_of_getElem? (i := 3) rfl)⟩

end HeapLayout.Code
