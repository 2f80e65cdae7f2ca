import HeapLayout.Proofs.Evaluation

/-!
# The depth of calls

Loops count up to a bound that is known before they start, so evaluation can only fail to end by
calls within calls. Then it runs out of every depth that it is given. What a body calls can be read
off it (`Function.callees`), and a body ends if all that it calls does (`Function.ends_run`). If
every function has a higher rank than those that it calls, its rank is a bound on the depth that it
needs (`ends_call_of_rank`).
-/

namespace HeapLayout.Code

/-! ## What is called -/

mutual

/-- The names of the generated functions that an expression calls. -/
def Expr.callees : Expr → List String
  | .var _ | .const _ | .layoutId _ | .undef _ | .context => []
  | .bin _ lhs rhs => lhs.callees ++ rhs.callees
  | .load _ base offset => base.callees ++ offset.callees
  | .call (.generated name) args => name :: Expr.listCallees args
  | .call .gcForward args => Expr.listCallees args
  | .alloc size _ => size.callees

def Expr.listCallees : List Expr → List String
  | [] => []
  | e :: es => e.callees ++ Expr.listCallees es

end

mutual

def Stmt.callees : Stmt → List String
  | .bind _ _ value => value.callees
  | .store _ base offset value => base.callees ++ offset.callees ++ value.callees
  | .eval e => e.callees
  | .ret none => []
  | .ret (some e) => e.callees
  | .cond test body => test.callees ++ Stmt.listCallees body
  | .loop _ bound body => bound.callees ++ Stmt.listCallees body
  | .unreachable _ => []

def Stmt.listCallees : List Stmt → List String
  | [] => []
  | s :: ss => s.callees ++ Stmt.listCallees ss

end

def Function.callees (g : Function) : List String :=
  Stmt.listCallees g.body

/-- The body of `g` contains a call of `h`. -/
structure Program.Invokes (p : Program) (g h : Function) : Prop where
  caller : g ∈ p.functions
  callee : h ∈ p.functions
  mem : h.name ∈ g.callees

/-! ## Computations that end -/

namespace Run

variable {α β : Type} {x : Run α} {f : α → Run β}

/-- The computation does not run out of depth, whatever machine it starts on. -/
def Ends (x : Run α) : Prop :=
  ∀ m, x m ≠ .error .outOfDepth

theorem ends_pure (a : α) : (pure a : Run α).Ends :=
  fun _ h => by cases h

theorem ends_throw {e : Fault} (he : e ≠ .outOfDepth) : (throw e : Run α).Ends :=
  fun _ h => he (Except.error.inj h)

theorem ends_ofOption (a? : Option α) : (ofOption a?).Ends := by
  cases a? with
  | none => exact ends_throw (by decide)
  | some a => exact ends_pure a

theorem Ends.bind (hx : x.Ends) (hf : ∀ a, (f a).Ends) : (x >>= f).Ends := by
  intro m h
  cases hrun : x m with
  | error e =>
    rw [bind_of_error hrun] at h
    cases h
    exact hx m hrun
  | ok r =>
    obtain ⟨a, m₁⟩ := r
    rw [bind_of_ok hrun] at h
    exact hf a m₁ h

theorem Ends.map (hx : x.Ends) (g : α → β) : (x >>= fun a => pure (g a)).Ends :=
  hx.bind fun a => ends_pure (g a)

end Run

namespace Platform

open Run (Ends)

variable (P : Platform)

theorem ends_load (p : Prim) (a : Int) : (P.load p a).Ends :=
  fun _ h => by cases h

theorem ends_store (p : Prim) (a v : Int) : (P.store p a v).Ends :=
  fun _ h => by cases h

theorem ends_callCollector (args : List Int) : (P.callCollector args).Ends :=
  fun _ h => by cases h

theorem ends_allocate (size : Int) (category : String) : (P.allocate size category).Ends := by
  intro m h
  unfold allocate at h
  split at h <;> cases h

end Platform

/-! ## Code that ends -/

section Code

variable {S : Scope}

/-- All calls of a function with one of these names end. -/
def Scope.EndsOn (S : Scope) (names : List String) : Prop :=
  ∀ n ∈ names, ∀ args, (S.calls n args).Ends

theorem Scope.endsOn_append {xs ys : List String} :
    S.EndsOn (xs ++ ys) ↔ S.EndsOn xs ∧ S.EndsOn ys :=
  List.forall_mem_append

mutual

theorem Expr.ends_eval (env : Env) : (e : Expr) → S.EndsOn e.callees → (e.eval S env).Ends
  | .var x, _ => Run.ends_ofOption (env x)
  | .const v, _ => Run.ends_pure v
  | .layoutId name, _ => Run.ends_ofOption (S.constant name)
  | .undef kind, _ => Run.ends_pure _
  | .bin op a b, h => by
    obtain ⟨ha, hb⟩ := Scope.endsOn_append.mp h
    exact (a.ends_eval env ha).bind fun _ => (b.ends_eval env hb).map _
  | .load p a b, h => by
    obtain ⟨ha, hb⟩ := Scope.endsOn_append.mp h
    exact (a.ends_eval env ha).bind fun _ => (b.ends_eval env hb).bind fun _ =>
      S.platform.ends_load p _
  | .call (.generated name) args, h => by
    obtain ⟨hname, hargs⟩ := List.forall_mem_cons.mp h
    exact (Expr.ends_evalArgs env args hargs).bind fun vs => (hname vs).map _
  | .call .gcForward args, h =>
    (Expr.ends_evalArgs env args h).bind fun _ => S.platform.ends_callCollector _
  | .alloc size category, h =>
    (size.ends_eval env h).bind fun n => S.platform.ends_allocate n category
  | .context, _ => Run.ends_throw (by decide)

theorem Expr.ends_evalArgs (env : Env) :
    (es : List Expr) → S.EndsOn (Expr.listCallees es) → (Expr.evalArgs S env es).Ends
  | [], _ => Run.ends_pure []
  | e :: es, h => by
    obtain ⟨he, hes⟩ := Scope.endsOn_append.mp h
    rw [Expr.evalArgs]
    refine Run.Ends.bind ?_ fun v => (Expr.ends_evalArgs env es hes).map _
    split
    · exact Run.ends_pure _
    · exact (e.ends_eval env he).map _

end

theorem Flow.ends_andThen {k : Env → Run Flow} (hk : ∀ env, (k env).Ends) (f : Flow) :
    (f.andThen k).Ends := by
  cases f with
  | next env => exact hk env
  | returned v => exact Run.ends_pure _

/-- A loop ends if each of its rounds does. -/
theorem ends_iterate {body : Nat → Env → Run Flow} (hbody : ∀ i env, (body i env).Ends)
    (n i : Nat) (env : Env) : (iterate body n i env).Ends := by
  induction n generalizing i env with
  | zero => exact Run.ends_pure _
  | succ n ih => exact (hbody i env).bind fun f => f.ends_andThen (ih (i + 1))

mutual

theorem Stmt.ends_exec :
    (s : Stmt) → S.EndsOn s.callees → (env : Env) → (s.exec S env).Ends
  | .bind _ _ e, h, env => (e.ends_eval env h).map _
  | .store p a b e, h, env => by
    obtain ⟨hab, he⟩ := Scope.endsOn_append.mp h
    obtain ⟨ha, hb⟩ := Scope.endsOn_append.mp hab
    exact (a.ends_eval env ha).bind fun _ => (b.ends_eval env hb).bind fun _ =>
      (e.ends_eval env he).bind fun _ => (S.platform.ends_store p _ _).map _
  | .eval e, h, env => (e.ends_eval env h).map _
  | .ret none, _, _ => Run.ends_pure _
  | .ret (some e), h, env => (e.ends_eval env h).map _
  | .cond test body, h, env => by
    obtain ⟨htest, hbody⟩ := Scope.endsOn_append.mp h
    refine (test.ends_eval env htest).bind fun v => ?_
    split
    · exact Run.ends_pure _
    · exact Stmt.ends_execAll body hbody env
  | .loop x bound body, h, env => by
    obtain ⟨hbound, hbody⟩ := Scope.endsOn_append.mp h
    exact (bound.ends_eval env hbound).bind fun n =>
      ends_iterate (fun i env => Stmt.ends_execAll body hbody (env.set x i)) n.toNat 0 env
  | .unreachable _, _, _ => Run.ends_throw nofun

theorem Stmt.ends_execAll :
    (ss : List Stmt) → S.EndsOn (Stmt.listCallees ss) → (env : Env) → (Stmt.execAll S ss env).Ends
  | [], _, _ => Run.ends_pure _
  | s :: ss, h, env => by
    obtain ⟨hs, hss⟩ := Scope.endsOn_append.mp h
    exact (s.ends_exec hs env).bind fun f => f.ends_andThen (Stmt.ends_execAll ss hss)

end

/-- A function ends if all that it calls does. -/
theorem Function.ends_run {g : Function} (h : S.EndsOn g.callees) (args : List Value) :
    (g.run S args).Ends := by
  refine (Run.ends_ofOption _).bind fun env => (Stmt.ends_execAll g.body h env).bind fun f => ?_
  cases f with
  | next env => exact Run.ends_pure none
  | returned v => exact Run.ends_pure v

end Code

/-! ## Ranks -/

namespace Program

variable {p : Program} {P : Platform}

/-- A call needs no more depth than the rank of the function, if calls go down in rank. One more
level is for names that are not declared. -/
theorem ends_call_of_rank {rank : Function → Nat} (hrank : ∀ g h, p.Invokes g h → rank h < rank g)
    {k : Nat} {name : String} {g : Function} (hfind : p.function? name = some g)
    (hk : rank g + 1 < k) (args : List Value) : (p.call P k name args).Ends := by
  induction k generalizing name g args with
  | zero => exact absurd hk (Nat.not_lt_zero _)
  | succ k ih =>
    rw [call_succ hfind]
    refine Function.ends_run ?_ args
    intro n hn vs
    show (p.call P k n vs).Ends
    cases hcallee : p.function? n with
    | none =>
      obtain ⟨k, rfl⟩ : ∃ k', k = k' + 1 := ⟨k - 1, by omega⟩
      simp only [call, hcallee]
      exact Run.ends_throw (by decide)
    | some h =>
      have hname : h.name = n := by simpa using List.find?_some hcallee
      have hcalls : p.Invokes g h :=
        ⟨List.mem_of_find?_eq_some hfind, List.mem_of_find?_eq_some hcallee, hname ▸ hn⟩
      have hlt := hrank g h hcalls
      exact ih hcallee (by omega) vs

end Program

end HeapLayout.Code
