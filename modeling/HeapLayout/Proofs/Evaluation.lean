import HeapLayout.Code.Program
import HeapLayout.Proofs.Memory
import Mathlib.Logic.Function.Basic

/-!
# Running generated code

Generated code runs on a machine: a byte memory, the regions that were allocated in it, and what
was handed to the collector. What the runtime adds is a `Platform`: the pointer width, the undefined
value, where a new region is placed and what the collector answers. None of these is fixed here.

Integers are exact. Only loads and stores cut a value, to the kind that they name.

Expressions and statements are evaluated under a `Scope`, which says how calls are answered, by
recursion on the code. A program ties the knot: `Program.call n` answers a call by running the
function of that name, at most `n` calls deep. A call that is answered at some depth is answered
alike at every larger one (`Program.call_mono`), so `Returns`, a call that is answered at some
depth, has at most one result (`Returns.unique`).
-/

namespace HeapLayout.Code

/-! ## Machines -/

/-- An allocated range of addresses. -/
structure Region where
  base : Int
  size : Int
  category : String
  deriving DecidableEq, Repr

structure Machine where
  bytes : Bytes
  /-- The allocated regions, the latest last. -/
  regions : List Region := []
  /-- The arguments of every call of the collector, the latest last. -/
  forwarded : List (List Int) := []

/-- What generated code needs from its runtime. -/
structure Platform where
  width : PointerWidth
  /-- The two halves of the undefined value. -/
  undef : UndefKind → Int
  /-- Where a region of a given size is placed. -/
  place : Machine → Int → Int
  /-- What the collector answers. -/
  forward : Machine → List Int → Int

/-- Why generated code stops without a result. -/
inductive Fault where
  /-- No rule applies: a missing name, a wrong argument, a region of negative size. -/
  | stuck
  /-- Control got where it never gets. -/
  | unreachable (message : String)
  /-- The calls are nested more deeply than was allowed. -/
  | outOfDepth
  deriving DecidableEq, Repr

/-- A computation on a machine. -/
abbrev Run := StateT Machine (Except Fault)

namespace Run

variable {α β : Type} {m m₁ m₂ : Machine} {x y : Run α} {f g : α → Run β} {a : α} {b : β}

theorem bind_of_ok (h : x m = .ok (a, m₁)) : (x >>= f) m = f a m₁ := by
  simp [bind, StateT.bind, Except.bind, h]

theorem bind_eq_ok_iff :
    (x >>= f) m = .ok (b, m₂) ↔ ∃ a m₁, x m = .ok (a, m₁) ∧ f a m₁ = .ok (b, m₂) := by
  constructor
  · intro h
    cases hx : x m with
    | error e => simp [bind, StateT.bind, Except.bind, hx] at h
    | ok r =>
      obtain ⟨a, m₁⟩ := r
      exact ⟨a, m₁, rfl, by rw [← h, bind_of_ok hx]⟩
  · rintro ⟨a, m₁, hx, hf⟩
    rw [bind_of_ok hx, hf]

theorem bind_of_error {e : Fault} (h : x m = .error e) : (x >>= f) m = .error e := by
  simp [bind, StateT.bind, Except.bind, h]

theorem bind_congr_of_eq (h : x m = y m₁) : (x >>= f) m = (y >>= f) m₁ := by
  simp only [bind, StateT.bind, h]

/-- The result of a computation, if it has one. -/
def result? (x : Run α) (m : Machine) : Option α :=
  (x m).toOption.map Prod.fst

theorem result?_eq_some : x.result? m = some a ↔ ∃ m', x m = .ok (a, m') := by
  rw [result?]
  cases hx : x m with
  | error e => simp [Except.toOption]
  | ok r => simp [Except.toOption, Prod.ext_iff]

@[simp] theorem pure_apply : (pure a : Run α) m = .ok (a, m) := rfl

/-- A name that has to be bound. -/
def ofOption : Option α → Run α
  | some a => pure a
  | none => throw .stuck

@[simp] theorem ofOption_some : ofOption (some a) = pure a := rfl

/-- Every result of `x` is a result of `y`. -/
def Le (x y : Run α) : Prop := ∀ m r, x m = .ok r → y m = .ok r

theorem Le.refl (x : Run α) : Le x x := fun _ _ h => h

theorem Le.bind (hx : Le x y) (hf : ∀ a, Le (f a) (g a)) : Le (x >>= f) (y >>= g) := by
  rintro m ⟨b, m₂⟩ h
  obtain ⟨a, m₁, ha, hb⟩ := bind_eq_ok_iff.mp h
  exact bind_eq_ok_iff.mpr ⟨a, m₁, hx m _ ha, hf a m₁ _ hb⟩

end Run

/-! ## The runtime -/

namespace Platform

variable (P : Platform)

def load (p : Prim) (a : Int) : Run Int :=
  fun m => .ok (m.bytes.load P.width p a, m)

def store (p : Prim) (a v : Int) : Run Unit :=
  fun m => .ok ((), { m with bytes := m.bytes.store P.width p a v })

/-- Places a region and fills it with zeros. -/
def allocate (size : Int) (category : String) : Run Int := fun m =>
  if size < 0 then .error .stuck
  else
    let base := P.place m size
    .ok (base, { m with bytes := m.bytes.clear base size
                        regions := m.regions ++ [{ base, size, category }] })

def callCollector (args : List Int) : Run Int := fun m =>
  .ok (P.forward m args, { m with forwarded := m.forwarded ++ [args] })

end Platform

/-! ## Expressions -/

/-- What a call is handed. -/
inductive Value where
  | int (v : Int)
  /-- The heap context. -/
  | context
  deriving DecidableEq, Repr

def Value.int? : Value → Option Int
  | int v => some v
  | context => none

/-- The values of parameters and locals. -/
abbrev Env := String → Option Int

/-- How calls of generated functions are answered; a function may have no result. -/
abbrev Calls := String → List Value → Run (Option Int)

/-- What code can refer to. -/
structure Scope where
  platform : Platform
  constant : String → Option Int
  calls : Calls

def BinOp.apply : BinOp → Int → Int → Int
  | add, x, y => x + y
  | mul, x, y => x * y
  | and, x, y => bitAnd x y
  | eq, x, y => if x = y then 1 else 0

def Expr.isContext : Expr → Bool
  | context => true
  | _ => false

mutual

/-- The value of an expression. A call without a result counts as zero. -/
def Expr.eval (S : Scope) (env : Env) : Expr → Run Int
  | .var x => Run.ofOption (env x)
  | .const v => pure v
  | .layoutId name => Run.ofOption (S.constant name)
  | .undef kind => pure (S.platform.undef kind)
  | .bin op a b => do
    let x ← a.eval S env
    let y ← b.eval S env
    return op.apply x y
  | .load p base offset => do
    let x ← base.eval S env
    let y ← offset.eval S env
    S.platform.load p (x + y)
  | .call (.generated name) args => do
    let vs ← Expr.evalArgs S env args
    let result ← S.calls name vs
    return result.getD 0
  | .call .gcForward args => do
    let vs ← Expr.evalArgs S env args
    S.platform.callCollector (vs.filterMap Value.int?)
  | .alloc size category => do
    let n ← size.eval S env
    S.platform.allocate n category
  | .context => throw .stuck

/-- The values of arguments, from left to right. -/
def Expr.evalArgs (S : Scope) (env : Env) : List Expr → Run (List Value)
  | [] => pure []
  | e :: es => do
    let v ← (if e.isContext then pure .context
      else e.eval S env >>= fun v => pure (.int v) : Run Value)
    let vs ← Expr.evalArgs S env es
    return v :: vs

end

/-! ## Statements -/

/-- Where control goes after a statement. -/
inductive Flow where
  | next (env : Env)
  | returned (value : Option Int)

/-- Goes on with the next statement, unless the function has returned. -/
def Flow.andThen (f : Flow) (k : Env → Run Flow) : Run Flow :=
  match f with
  | next env => k env
  | returned v => return returned v

/-- Runs the body of a loop `n` times, from counter `i` on. -/
def iterate (body : Nat → Env → Run Flow) : Nat → Nat → Env → Run Flow
  | 0, _, env => return .next env
  | n + 1, i, env => do (← body i env).andThen (iterate body n (i + 1))

/-- The environment with a local bound to a value. -/
def Env.set (env : Env) (x : String) (v : Int) : Env :=
  Function.update env x (some v)

mutual

def Stmt.exec (S : Scope) : Stmt → Env → Run Flow
  | .bind x _ e, env => do
    let v ← e.eval S env
    return .next (env.set x v)
  | .store p base offset value, env => do
    let x ← base.eval S env
    let y ← offset.eval S env
    let v ← value.eval S env
    S.platform.store p (x + y) v
    return .next env
  | .eval e, env => do
    let _ ← e.eval S env
    return .next env
  | .ret none, _ => return .returned none
  | .ret (some e), env => do
    let v ← e.eval S env
    return .returned (some v)
  | .cond test body, env => do
    let v ← test.eval S env
    if v = 0 then return .next env else Stmt.execAll S body env
  | .loop x bound body, env => do
    let n ← bound.eval S env
    iterate (fun i env => Stmt.execAll S body (env.set x i)) n.toNat 0 env
  | .unreachable message, _ => throw (.unreachable message)

def Stmt.execAll (S : Scope) : List Stmt → Env → Run Flow
  | [], env => return .next env
  | s :: ss, env => do (← s.exec S env).andThen (Stmt.execAll S ss)

end

/-! ## Functions -/

/-- Binds parameters to arguments: the context to a context parameter, an integer to any other. -/
def bindParams (env : Env) : List Param → List Value → Option Env
  | [], [] => some env
  | p :: ps, v :: vs =>
    match p.type, v with
    | .context, .context => bindParams env ps vs
    | .prim _, .int v => bindParams (env.set p.name v) ps vs
    | _, _ => none
  | _, _ => none

/-- Runs the body of a function on arguments. -/
def Function.run (S : Scope) (f : Function) (args : List Value) : Run (Option Int) := do
  let env ← Run.ofOption (bindParams (fun _ => none) f.params args)
  match ← Stmt.execAll S f.body env with
  | .next _ => return none
  | .returned v => return v

namespace Program

variable (p : Program) (P : Platform)

/-- The constant of a given name. -/
def constant? (name : String) : Option Int :=
  p.decls.findSome? fun
    | .const x _ v => if x = name then some v else none
    | .function _ => none

/-- Answers a call by running the function of that name, with calls nested at most `n` deep. -/
def call : Nat → Calls
  | 0, _, _ => throw .outOfDepth
  | n + 1, name, args =>
    match p.function? name with
    | some f => f.run { platform := P, constant := p.constant?, calls := call n } args
    | none => throw .stuck

/-- What a function body can refer to if its calls may be nested `n` deep. -/
def scope (n : Nat) : Scope where
  platform := P
  constant := p.constant?
  calls := p.call P n

/-- Calling `name` on `m` gives `result` and leaves `m'`. -/
def Returns (name : String) (args : List Value) (m : Machine) (result : Option Int)
    (m' : Machine) : Prop :=
  ∃ n, p.call P n name args m = .ok (result, m')

end Program

/-! ## Evaluation that succeeds -/

section Success

variable {S : Scope} {env env' : Env} {m m₁ m₂ : Machine}

attribute [local simp] Expr.eval Expr.evalArgs Stmt.exec Stmt.execAll

namespace Expr

variable {a b e : Expr} {es : List Expr} {vs : List Value} {x y v : Int} {name : String}

theorem eval_var (h : env name = some v) : (var name).eval S env m = .ok (v, m) := by
  simp [h]

theorem eval_layoutId (h : S.constant name = some v) :
    (layoutId name).eval S env m = .ok (v, m) := by
  simp [h]

theorem eval_bin (op : BinOp) (ha : a.eval S env m = .ok (x, m₁))
    (hb : b.eval S env m₁ = .ok (y, m₂)) :
    (bin op a b).eval S env m = .ok (op.apply x y, m₂) := by
  rw [eval, Run.bind_of_ok ha, Run.bind_of_ok hb]
  rfl

theorem eval_load (p : Prim) (ha : a.eval S env m = .ok (x, m₁))
    (hb : b.eval S env m₁ = .ok (y, m₂)) :
    (load p a b).eval S env m = .ok (m₂.bytes.load S.platform.width p (x + y), m₂) := by
  rw [eval, Run.bind_of_ok ha, Run.bind_of_ok hb]
  rfl

theorem eval_alloc {n : Nat} (h : e.eval S env m = .ok ((n : Int), m)) (category : String) :
    (alloc e category).eval S env m = .ok (S.platform.place m n, { m with
      bytes := m.bytes.clear (S.platform.place m n) n
      regions := m.regions ++ [{ base := S.platform.place m n, size := n, category }] }) := by
  rw [eval, Run.bind_of_ok h, Platform.allocate, if_neg (by omega)]

theorem eval_invoke {r : Option Int} (hargs : evalArgs S env es m = .ok (vs, m₁))
    (hcall : S.calls name vs m₁ = .ok (r, m₂)) :
    (invoke name es).eval S env m = .ok (r.getD 0, m₂) := by
  rw [invoke, eval, Run.bind_of_ok hargs, Run.bind_of_ok hcall]
  rfl

/-- Whatever the call does, the expression does. -/
theorem eval_invoke_of_args (hargs : evalArgs S env es m = .ok (vs, m₁)) :
    (invoke name es).eval S env m = (S.calls name vs >>= fun r => pure (r.getD 0)) m₁ := by
  rw [invoke, eval, Run.bind_of_ok hargs]

theorem eval_invoke_some (hargs : evalArgs S env es m = .ok (vs, m₁))
    (hcall : S.calls name vs m₁ = .ok (some v, m₂)) :
    (invoke name es).eval S env m = .ok (v, m₂) :=
  eval_invoke hargs hcall

/-- The collector sees the integers among its arguments, and the machine as it is after them. -/
theorem eval_gcForward (hargs : evalArgs S env es m = .ok (vs, m₁)) :
    (gcForward es).eval S env m = .ok (S.platform.forward m₁ (vs.filterMap Value.int?),
      { m₁ with forwarded := m₁.forwarded ++ [vs.filterMap Value.int?] }) := by
  rw [gcForward, eval, Run.bind_of_ok hargs]
  rfl

theorem evalArgs_nil : evalArgs S env [] m = .ok ([], m) := rfl

theorem evalArgs_context (hs : evalArgs S env es m = .ok (vs, m₁)) :
    evalArgs S env (context :: es) m = .ok (.context :: vs, m₁) := by
  rw [evalArgs, Expr.isContext, if_pos rfl, Run.bind_of_ok Run.pure_apply, Run.bind_of_ok hs]
  rfl

theorem evalArgs_cons (he : e.isContext = false) (h : e.eval S env m = .ok (v, m₁))
    (hs : evalArgs S env es m₁ = .ok (vs, m₂)) :
    evalArgs S env (e :: es) m = .ok (.int v :: vs, m₂) := by
  have hv : (e.eval S env >>= fun v => pure (.int v) : Run Value) m = .ok (.int v, m₁) := by
    rw [Run.bind_of_ok h]
    rfl
  simp only [evalArgs, he, Bool.false_eq_true, if_false]
  rw [Run.bind_of_ok hv, Run.bind_of_ok hs]
  rfl

theorem evalArgs_append {es' : List Expr} {vs' : List Value}
    (h : evalArgs S env es m = .ok (vs, m₁)) (h' : evalArgs S env es' m₁ = .ok (vs', m₂)) :
    evalArgs S env (es ++ es') m = .ok (vs ++ vs', m₂) := by
  induction es generalizing vs m with
  | nil =>
    cases h
    exact h'
  | cons e es ih =>
    rw [evalArgs, Run.bind_eq_ok_iff] at h
    obtain ⟨v, m₀, hv, h⟩ := h
    obtain ⟨vs₀, m₁', hvs, h⟩ := Run.bind_eq_ok_iff.mp h
    cases h
    rw [List.cons_append, evalArgs, Run.bind_of_ok hv, Run.bind_of_ok (ih hvs)]
    rfl

/-- Arguments that leave the machine alone, one value each. -/
theorem evalArgs_map {α β : Type} {R : α → β → Prop} {is : List α} {bs : List β} {f : β → Expr}
    {g : α → Int} (hR : List.Forall₂ R is bs) (hf : ∀ b, (f b).isContext = false)
    (h : ∀ i ∈ is, ∀ b, R i b → (f b).eval S env m = .ok (g i, m)) :
    evalArgs S env (bs.map f) m = .ok (is.map fun i => .int (g i), m) := by
  induction hR with
  | nil => rfl
  | cons hib _ ih =>
    obtain ⟨hi, his⟩ := List.forall_mem_cons.mp h
    exact evalArgs_cons (hf _) (hi _ hib) (ih his)

end Expr

namespace Stmt

variable {e : Expr} {s : Stmt} {ss ts : List Stmt} {v : Int} {f : Flow}

theorem exec_bind {x : String} {p : Prim} (h : e.eval S env m = .ok (v, m₁)) :
    (bind x p e).exec S env m = .ok (.next (env.set x v), m₁) := by
  rw [exec, Run.bind_of_ok h]
  rfl

theorem exec_store {p : Prim} {a b : Expr} {x y : Int} (ha : a.eval S env m = .ok (x, m))
    (hb : b.eval S env m = .ok (y, m)) (he : e.eval S env m = .ok (v, m)) :
    (store p a b e).exec S env m =
      .ok (.next env, { m with bytes := m.bytes.store S.platform.width p (x + y) v }) := by
  rw [exec, Run.bind_of_ok ha, Run.bind_of_ok hb, Run.bind_of_ok he]
  rfl

theorem exec_eval (h : e.eval S env m = .ok (v, m₁)) :
    (eval e).exec S env m = .ok (.next env, m₁) := by
  rw [exec, Run.bind_of_ok h]
  rfl

theorem exec_ret (h : e.eval S env m = .ok (v, m₁)) :
    (ret (some e)).exec S env m = .ok (.returned (some v), m₁) := by
  rw [exec, Run.bind_of_ok h]
  rfl

theorem execAll_cons (h : s.exec S env m = .ok (.next env', m₁)) :
    execAll S (s :: ss) env m = execAll S ss env' m₁ := by
  rw [execAll, Run.bind_of_ok h]
  rfl

theorem execAll_unreachable (message : String) :
    execAll S (unreachable message :: ss) env m = .error (.unreachable message) :=
  rfl

theorem execAll_append (h : execAll S ss env m = .ok (.next env', m₁)) :
    execAll S (ss ++ ts) env m = execAll S ts env' m₁ := by
  induction ss generalizing env m with
  | nil =>
    obtain ⟨rfl, rfl⟩ : env = env' ∧ m = m₁ := by simpa using h
    rfl
  | cons s ss ih =>
    rw [execAll, Run.bind_eq_ok_iff] at h
    obtain ⟨f, m', hs, h⟩ := h
    rw [List.cons_append, execAll, Run.bind_of_ok hs]
    cases f with
    | next env'' => exact ih h
    | returned v => cases h

theorem execAll_ret (h : e.eval S env m = .ok (v, m₁)) :
    execAll S [ret (some e)] env m = .ok (.returned (some v), m₁) := by
  rw [execAll, Run.bind_of_ok (exec_ret h)]
  rfl

theorem execAll_single (h : s.exec S env m = .ok (.next env', m₁)) :
    execAll S [s] env m = .ok (.next env', m₁) := by
  rw [execAll_cons h]
  rfl

/-- A branch that is not taken. -/
theorem exec_cond_of_zero {body : List Stmt} (h : e.eval S env m = .ok (0, m₁)) :
    (cond e body).exec S env m = .ok (.next env, m₁) := by
  rw [exec, Run.bind_of_ok h]
  rfl

/-- A branch that is taken and returns: what follows is not reached. -/
theorem execAll_cond_of_returned {body : List Stmt} {x : Run (Option Int)}
    (h : e.eval S env m = .ok (v, m₁)) (hv : v ≠ 0)
    (hbody : execAll S body env m₁ = (x >>= fun r => pure (.returned r)) m₁) :
    execAll S (cond e body :: ss) env m = (x >>= fun r => pure (.returned r)) m₁ := by
  have hcond : (cond e body).exec S env m = (x >>= fun r => pure (.returned r)) m₁ := by
    rw [exec, Run.bind_of_ok h, if_neg hv, hbody]
  rw [execAll, Run.bind_congr_of_eq hcond, bind_assoc]
  simp only [pure_bind, Flow.andThen]

/-! An invariant that the body of a loop preserves, from each counter to the next, holds after it. -/

theorem iterate_of_invariant {body : Nat → Env → Run Flow} {I : Nat → Env → Machine → Prop}
    {n i d : Nat} (hbody : ∀ i env m, i < n → I i env m →
      ∃ env' m', body i env m = .ok (.next env', m') ∧ I (i + 1) env' m')
    (hd : i + d = n) (h : I i env m) :
    ∃ env' m', iterate body d i env m = .ok (.next env', m') ∧ I n env' m' := by
  induction d generalizing i env m with
  | zero => exact ⟨env, m, rfl, hd ▸ h⟩
  | succ d ih =>
    obtain ⟨env₁, m₁, hrun, h₁⟩ := hbody i env m (by omega) h
    obtain ⟨env₂, m₂, hrest, h₂⟩ := ih (by omega) h₁
    refine ⟨env₂, m₂, ?_, h₂⟩
    rw [iterate, Run.bind_of_ok hrun]
    exact hrest

theorem exec_loop {x : String} {bound : Expr} {body : List Stmt}
    {I : Nat → Env → Machine → Prop} {n : Nat} (hbound : bound.eval S env m = .ok ((n : Int), m))
    (hbody : ∀ i env m, i < n → I i env m →
      ∃ env' m', execAll S body (env.set x i) m = .ok (.next env', m') ∧ I (i + 1) env' m')
    (h : I 0 env m) :
    ∃ env' m', (loop x bound body).exec S env m = .ok (.next env', m') ∧ I n env' m' := by
  rw [exec, Run.bind_of_ok hbound, Int.toNat_natCast]
  exact iterate_of_invariant hbody (Nat.zero_add n) h

end Stmt

theorem bindParams_append {ps qs : List Param} {vs us : List Value}
    (h : bindParams env ps vs = some env') :
    bindParams env (ps ++ qs) (vs ++ us) = bindParams env' qs us := by
  fun_induction bindParams env ps vs with
  | case1 env => cases h; rfl
  | case2 env p ps vs hp ih => simpa only [List.cons_append, bindParams, hp] using ih h
  | case3 env p ps vs q v hp ih => simpa only [List.cons_append, bindParams, hp] using ih h
  | case4 => cases h
  | case5 => cases h

namespace Function

variable {f : Function} {args : List Value}

theorem run_of_returned {r : Option Int}
    (hp : bindParams (fun _ => none) f.params args = some env)
    (hb : Stmt.execAll S f.body env m = .ok (.returned r, m₁)) : f.run S args m = .ok (r, m₁) := by
  rw [run, hp, Run.ofOption_some, Run.bind_of_ok Run.pure_apply, Run.bind_of_ok hb]
  rfl

theorem run_of_error {e : Fault} (hp : bindParams (fun _ => none) f.params args = some env)
    (hb : Stmt.execAll S f.body env m = .error e) : f.run S args m = .error e := by
  rw [run, hp, Run.ofOption_some, Run.bind_of_ok Run.pure_apply, Run.bind_of_error hb]

/-- A function whose body does what `x` does, and then returns. -/
theorem run_of_eq {x : Run (Option Int)}
    (hp : bindParams (fun _ => none) f.params args = some env)
    (hb : Stmt.execAll S f.body env m = (x >>= fun r => pure (.returned r)) m₁) :
    f.run S args m = x m₁ := by
  rw [run, hp, Run.ofOption_some, Run.bind_of_ok Run.pure_apply, Run.bind_congr_of_eq hb,
    bind_assoc]
  simp only [pure_bind, bind_pure]

theorem run_of_next (hp : bindParams (fun _ => none) f.params args = some env)
    (hb : Stmt.execAll S f.body env m = .ok (.next env', m₁)) : f.run S args m = .ok (none, m₁) := by
  rw [run, hp, Run.ofOption_some, Run.bind_of_ok Run.pure_apply, Run.bind_of_ok hb]
  rfl

end Function

end Success

/-! ## Depth -/

/-- Every call that `c` answers, `c'` answers alike. -/
def Calls.Le (c c' : Calls) : Prop := ∀ name args, Run.Le (c name args) (c' name args)

section Monotone

variable {S S' : Scope}

/-- The two scopes differ at most in the calls that only the second one answers. -/
structure Scope.Le (S S' : Scope) : Prop where
  platform : S.platform = S'.platform
  constant : S.constant = S'.constant
  calls : Calls.Le S.calls S'.calls

mutual

theorem Expr.eval_mono (h : Scope.Le S S') (env : Env) :
    (e : Expr) → Run.Le (e.eval S env) (e.eval S' env)
  | .var _ | .const _ | .context => Run.Le.refl _
  | .layoutId _ => by rw [Expr.eval, Expr.eval, h.constant]; exact Run.Le.refl _
  | .undef _ => by rw [Expr.eval, Expr.eval, h.platform]; exact Run.Le.refl _
  | .bin op a b =>
    (a.eval_mono h env).bind fun _ => (b.eval_mono h env).bind fun _ => Run.Le.refl _
  | .load p a b => by
    rw [Expr.eval, Expr.eval, h.platform]
    exact (a.eval_mono h env).bind fun _ => (b.eval_mono h env).bind fun _ => Run.Le.refl _
  | .call (.generated name) args =>
    (Expr.evalArgs_mono h env args).bind fun vs => (h.calls name vs).bind fun _ => Run.Le.refl _
  | .call .gcForward args => by
    rw [Expr.eval, Expr.eval, h.platform]
    exact (Expr.evalArgs_mono h env args).bind fun _ => Run.Le.refl _
  | .alloc size _ => by
    rw [Expr.eval, Expr.eval, h.platform]
    exact (size.eval_mono h env).bind fun _ => Run.Le.refl _

theorem Expr.evalArgs_mono (h : Scope.Le S S') (env : Env) :
    (es : List Expr) → Run.Le (Expr.evalArgs S env es) (Expr.evalArgs S' env es)
  | [] => Run.Le.refl _
  | e :: es => by
    rw [Expr.evalArgs, Expr.evalArgs]
    refine Run.Le.bind ?_ fun _ => (Expr.evalArgs_mono h env es).bind fun _ => Run.Le.refl _
    split
    · exact Run.Le.refl _
    · exact (e.eval_mono h env).bind fun _ => Run.Le.refl _

end

theorem Flow.andThen_mono {k k' : Env → Run Flow} (h : ∀ env, Run.Le (k env) (k' env))
    (f : Flow) : Run.Le (f.andThen k) (f.andThen k') := by
  cases f with
  | next env => exact h env
  | returned v => exact Run.Le.refl _

theorem iterate_mono {body body' : Nat → Env → Run Flow}
    (h : ∀ i env, Run.Le (body i env) (body' i env)) (n i : Nat) (env : Env) :
    Run.Le (iterate body n i env) (iterate body' n i env) := by
  induction n generalizing i env with
  | zero => exact Run.Le.refl _
  | succ n ih => exact (h i env).bind fun f => f.andThen_mono (ih (i + 1))

mutual

theorem Stmt.exec_mono (h : Scope.Le S S') :
    (s : Stmt) → (env : Env) → Run.Le (s.exec S env) (s.exec S' env)
  | .bind _ _ e, env => (e.eval_mono h env).bind fun _ => Run.Le.refl _
  | .store _ a b e, env => by
    rw [Stmt.exec, Stmt.exec, h.platform]
    exact (a.eval_mono h env).bind fun _ => (b.eval_mono h env).bind fun _ =>
      (e.eval_mono h env).bind fun _ => Run.Le.refl _
  | .eval e, env => (e.eval_mono h env).bind fun _ => Run.Le.refl _
  | .ret none, _ | .unreachable _, _ => Run.Le.refl _
  | .ret (some e), env => (e.eval_mono h env).bind fun _ => Run.Le.refl _
  | .cond test body, env => (test.eval_mono h env).bind fun v => by
    by_cases hv : v = 0
    · simp only [hv, if_true]
      exact Run.Le.refl _
    · simp only [hv, if_false]
      exact Stmt.execAll_mono h body env
  | .loop x bound body, env => (bound.eval_mono h env).bind fun n =>
    iterate_mono (fun i env => Stmt.execAll_mono h body (env.set x i)) n.toNat 0 env

theorem Stmt.execAll_mono (h : Scope.Le S S') :
    (ss : List Stmt) → (env : Env) → Run.Le (Stmt.execAll S ss env) (Stmt.execAll S' ss env)
  | [], _ => Run.Le.refl _
  | s :: ss, env => (s.exec_mono h env).bind fun f => f.andThen_mono (Stmt.execAll_mono h ss)

end

theorem Function.run_mono (h : Scope.Le S S') (f : Function) (args : List Value) :
    Run.Le (f.run S args) (f.run S' args) :=
  (Run.Le.refl _).bind fun env => (Stmt.execAll_mono h f.body env).bind fun _ => Run.Le.refl _

end Monotone

namespace Program

variable {p : Program} {P : Platform}

theorem call_succ {n : Nat} {name : String} {f : Function} (h : p.function? name = some f)
    (args : List Value) : p.call P (n + 1) name args = f.run (p.scope P n) args := by
  simp only [call, h, scope]

theorem call_mono_succ (n : Nat) : Calls.Le (p.call P n) (p.call P (n + 1)) := by
  induction n with
  | zero => intro name args m r h; cases h
  | succ n ih =>
    intro name args
    cases hf : p.function? name with
    | none => simp only [call, hf]; exact Run.Le.refl _
    | some f =>
      rw [call_succ hf, call_succ hf]
      have hle : Scope.Le (p.scope P n) (p.scope P (n + 1)) := ⟨rfl, rfl, ih⟩
      exact f.run_mono hle args

/-- More depth does not change an answer. -/
theorem call_mono {n k : Nat} (h : n ≤ k) : Calls.Le (p.call P n) (p.call P k) := by
  induction h with
  | refl => exact fun _ _ => Run.Le.refl _
  | step _ ih => exact fun name args m r hr => call_mono_succ _ name args m r (ih name args m r hr)

/-- A call has at most one result. -/
theorem Returns.unique {name : String} {args : List Value} {m m₁ m₂ : Machine}
    {r₁ r₂ : Option Int} (h₁ : p.Returns P name args m r₁ m₁) (h₂ : p.Returns P name args m r₂ m₂) :
    r₁ = r₂ ∧ m₁ = m₂ := by
  obtain ⟨n₁, h₁⟩ := h₁
  obtain ⟨n₂, h₂⟩ := h₂
  have h₁' := call_mono (Nat.le_max_left n₁ n₂) name args m _ h₁
  have h₂' := call_mono (Nat.le_max_right n₁ n₂) name args m _ h₂
  simpa using h₁'.symm.trans h₂'

end Program

end HeapLayout.Code
