import HeapLayout.Proofs.Spelling
import Mathlib.Data.Int.Bitwise
import Mathlib.Order.Bounds.Defs

/-!
# What folding gives

Three things are expected of the expressions that `Expr.add`, `Expr.mul` and `Expr.and` build. They
have the values of the operations (`Expr.FoldsValues`), whatever integers variables, loads and calls
stand for, and rounding up gives the least multiple that is large enough, for negative numbers too.
On a machine they do what the plain operations do, with the same calls in the same order
(`Expr.FoldsRuns`). And nothing is left to fold in a sum of two such expressions: `Expr.Foldable`
lists the sums that folding removes, and an expression is `Expr.Folded` if none of these occurs in
it, not even in the arguments of a call.

The sum of a folded expression and a constant may be foldable at its root, and again when the two
constants have met, so the induction goes along `Expr.addConst`. All offset arithmetic is built in
this way, so every offset and every size of an accepted schema is folded.
-/

namespace HeapLayout

/-! ## Bits and multiples -/

theorem bitAnd_eq_land (x y : Int) : bitAnd x y = Int.land x y := by
  have hbits (m n : Nat) : bitsWithout m n = Nat.ldiff m n := by
    apply Nat.eq_of_testBit_eq
    intro i
    rw [bitsWithout, Nat.testBit_xor, Nat.testBit_and, Nat.testBit_ldiff]
    cases m.testBit i <;> cases n.testBit i <;> rfl
  cases x with
  | ofNat m =>
    cases y with
    | ofNat n => rfl
    | negSucc n => exact congrArg Int.ofNat (hbits m n)
  | negSucc m =>
    cases y with
    | ofNat n => exact congrArg Int.ofNat (hbits n m)
    | negSucc n => rfl

/-- The multiple of `u` that masking leaves is the least one that is not below `x`. -/
theorem isLeast_multiple {u : Int} (hu : 0 < u) (x : Int) :
    IsLeast {y | x ≤ y ∧ u ∣ y} ((x + (u - 1)) / u * u) := by
  refine ⟨⟨?_, Int.dvd_mul_left _ _⟩, ?_⟩
  · have hlt := Int.lt_ediv_add_one_mul_self (x + (u - 1)) hu
    rw [Int.add_mul, Int.one_mul] at hlt
    omega
  · rintro _ ⟨hle, c, rfl⟩
    have hlt : x + (u - 1) < (c + 1) * u := by
      rw [Int.add_mul, Int.one_mul, Int.mul_comm c]
      omega
    rw [Int.mul_comm u c]
    have hc : (x + (u - 1)) / u ≤ c := Int.lt_add_one_iff.mp (Int.ediv_lt_of_lt_mul hu hlt)
    exact Int.mul_le_mul_of_nonneg_right hc hu.le

namespace Code

open Accessor

namespace Expr

variable {a b : Expr} {ρ : Expr → Int}

/-! ## Values -/

/-- The value of an expression, if `ρ` says what variables, loads, calls and whatever else is no
arithmetic stand for. -/
def value (ρ : Expr → Int) : Expr → Int
  | const v => v
  | bin op a b => op.apply (a.value ρ) (b.value ρ)
  | e => ρ e

theorem value_addConst (e : Expr) (v : Int) : (addConst e v).value ρ = e.value ρ + v := by
  fun_induction addConst e v <;> simp_all [value, BinOp.apply, add_assoc]

theorem value_add (a b : Expr) : (add a b).value ρ = a.value ρ + b.value ρ := by
  unfold add
  split
  · exact value_addConst a _
  · split
    · next h => rw [eq_const_of_const? h, value, Int.zero_add]
    · rfl

theorem value_mul (a b : Expr) : (mul a b).value ρ = a.value ρ * b.value ρ := by
  unfold mul
  split <;> rfl

theorem value_and (a b : Expr) : (and a b).value ρ = bitAnd (a.value ρ) (b.value ρ) := by
  unfold and
  split <;> rfl

/-- The built expressions have the values of the operations. -/
structure FoldsValues (a b : Expr) (ρ : Expr → Int) : Prop where
  add : (add a b).value ρ = a.value ρ + b.value ρ
  mul : (mul a b).value ρ = a.value ρ * b.value ρ
  and : (and a b).value ρ = Int.land (a.value ρ) (b.value ρ)
  /-- Rounding up, for every power of two that is a signed word. -/
  alignUp : ∀ k ≤ 62, IsLeast {y | a.value ρ ≤ y ∧ 2 ^ k ∣ y} ((alignUp a (2 ^ k)).value ρ)

theorem foldsValues (a b : Expr) (ρ : Expr → Int) : FoldsValues a b ρ where
  add := value_add a b
  mul := value_mul a b
  and := (value_and a b).trans (bitAnd_eq_land _ _)
  alignUp k hk := by
    rw [Expr.alignUp, value_and, value_add, value, value, signed64_two_pow hk,
      Arithmetic.exact_keep, Arithmetic.exact_keep, bitAnd_neg_two_pow]
    exact isLeast_multiple (Int.pow_pos (by decide)) _

/-- As computations the built expressions are the plain operations. -/
structure FoldsRuns (a b : Expr) (S : Scope) (env : Env) : Prop where
  add : (add a b).eval S env = (bin .add a b).eval S env
  mul : (mul a b).eval S env = (bin .mul a b).eval S env
  and : (and a b).eval S env = (bin .and a b).eval S env
  alignUp : ∀ k ≤ 62, ∀ m x m', a.eval S env m = .ok (x, m') →
    ∃ y, (alignUp a (2 ^ k)).eval S env m = .ok (y, m') ∧ IsLeast {y | x ≤ y ∧ 2 ^ k ∣ y} y

theorem foldsRuns (a b : Expr) (S : Scope) (env : Env) : FoldsRuns a b S env where
  add := eval_add a b
  mul := eval_mul a b
  and := eval_and a b
  alignUp k hk _ x _ ha :=
    ⟨_, eval_alignUp_two_pow hk ha, isLeast_multiple (Int.pow_pos (by decide)) x⟩

/-! ## Sums in normal form -/

/-- The sum of the two expressions can be written with fewer operations: two constants meet, or a
zero disappears. -/
inductive Foldable : Expr → Expr → Prop
  | consts (x y : Int) : Foldable (const x) (const y)
  | zeroLeft (b : Expr) : Foldable (const 0) b
  | zeroRight (a : Expr) : Foldable a (const 0)
  | nested (a : Expr) (x y : Int) : Foldable (bin .add a (const x)) (const y)

mutual

/-- The operands of every sum in an expression. -/
def sums : Expr → List (Expr × Expr)
  | var _ | const _ | layoutId _ | undef _ | context => []
  | bin op a b => (if op = .add then [(a, b)] else []) ++ a.sums ++ b.sums
  | load _ base offset => base.sums ++ offset.sums
  | call _ args => listSums args
  | alloc size _ => size.sums

def listSums : List Expr → List (Expr × Expr)
  | [] => []
  | e :: es => e.sums ++ listSums es

end

/-- No sum in the expression can be folded. -/
def Folded (e : Expr) : Prop :=
  ∀ s ∈ e.sums, ¬Foldable s.1 s.2

theorem folded_const (v : Int) : (const v).Folded :=
  List.forall_mem_nil _

theorem folded_bin_of_ne {op : BinOp} (hop : op ≠ .add) :
    (bin op a b).Folded ↔ a.Folded ∧ b.Folded := by
  rw [Folded, sums, if_neg hop, List.nil_append, List.forall_mem_append]
  rfl

theorem folded_bin_add :
    (bin .add a b).Folded ↔ ¬Foldable a b ∧ a.Folded ∧ b.Folded := by
  rw [Folded, sums, if_pos rfl, List.append_assoc, List.singleton_append, List.forall_mem_cons,
    List.forall_mem_append]
  rfl

theorem Folded.addConst (ha : a.Folded) (v : Int) : (addConst a v).Folded := by
  fun_induction Expr.addConst a v with
  | case1 => exact folded_const _
  | case2 => exact ha
  | case3 x a b hb ih => exact ih (folded_bin_add.mp ha).2.1
  | case4 => exact ha
  | case5 x b hconst hnested hb =>
    refine folded_bin_add.mpr ⟨?_, ha, folded_const b⟩
    -- Each way to fold the new sum is one of the equations that have been passed by.
    intro h
    cases h with
    | consts x => exact hconst x rfl
    | zeroLeft => exact hconst 0 rfl
    | zeroRight => exact hb rfl
    | nested a x => exact hnested a x rfl

theorem Folded.add (ha : a.Folded) (hb : b.Folded) : (add a b).Folded := by
  unfold Expr.add
  split
  · exact ha.addConst _
  · next hconst =>
    split
    · exact hb
    · next hzero =>
      refine folded_bin_add.mpr ⟨?_, ha, hb⟩
      intro h
      cases h with
      | consts x y => exact hconst y rfl
      | zeroLeft => exact hzero rfl
      | zeroRight => exact hconst 0 rfl
      | nested a x y => exact hconst y rfl

theorem foldClosed_folded : FoldClosed Folded :=
  .of_bin folded_const Folded.add fun hop ha hb => (folded_bin_of_ne hop).mpr ⟨ha, hb⟩

end Expr

/-! ## Offsets and sizes -/

variable {l : Layout}

theorem folded_storedCount (s : Field) : (storedCount l s).Folded :=
  List.forall_mem_nil _

theorem folded_passedCount (s : Field) : (passedCount s).Folded :=
  List.forall_mem_nil _

theorem folded_index : index.Folded :=
  List.forall_mem_nil _

/-- Folding keeps values and leaves nothing to fold in a sum. So nothing is left in the offsets and
sizes of an accepted schema. -/
theorem foldsSums :
    (∀ a b, (∀ ρ, Expr.FoldsValues a b ρ) ∧ (∀ S env, Expr.FoldsRuns a b S env) ∧
      (a.Folded → b.Folded → (Expr.add a b).Folded)) ∧
    ∀ w defs ls, Schema.resolve w defs = .ok ls → ∃ p, Program.ofLayouts w ls = .ok p ∧
      ∀ g ∈ p.functions, g.kind.isOffsetArithmetic = true →
        ∃ e, g.body = [.ret (some e)] ∧ e.Folded := by
  refine ⟨fun a b => ⟨Expr.foldsValues a b, Expr.foldsRuns a b, Expr.Folded.add⟩, ?_⟩
  intro w defs ls h
  obtain ⟨p, hp⟩ := exists_ofLayouts h
  refine ⟨p, hp, fun g hg hkind => ?_⟩
  exact Expr.foldClosed_folded.of_mem_functions (fun _ _ s _ => folded_storedCount s)
    (fun _ _ s _ => folded_passedCount s) folded_index hp hg hkind

/-- Three and four meet, minus thirteen is rounded up to minus eight, and the hash behind an array
has a folded offset. -/
theorem foldsSums_hashed :
    (Expr.bin .add (.var "a") (.const 3)).Folded ∧
      (Expr.add (.bin .add (.var "a") (.const 3)) (.const 4)).Folded ∧
      IsLeast {y : Int | -13 ≤ y ∧ 2 ^ 3 ∣ y} (-8) ∧
      Schema.resolve .eight [bufferDef none none, hashedDef] =
        .ok [bufferLayout none none, hashedLayout] ∧
      ∃ p, Program.ofLayouts .eight [bufferLayout none none, hashedLayout] = .ok p ∧
        ∃ g ∈ p.functions, g.kind = .offset "hashed" "hash" ∧
          ∃ e, g.body = [.ret (some e)] ∧ e.Folded := by
  obtain ⟨hbuild, hresolved⟩ := foldsSums
  have hsum : (Expr.bin .add (.var "a") (.const 3)).Folded := by
    refine Expr.folded_bin_add.mpr ⟨?_, List.forall_mem_nil _, Expr.folded_const 3⟩
    rintro ⟨⟩
  have hresolve : Schema.resolve .eight [bufferDef none none, hashedDef] =
      .ok [bufferLayout none none, hashedLayout] := by decide
  refine ⟨hsum, (hbuild _ _).2.2 hsum (Expr.folded_const 4), ?_, hresolve, ?_⟩
  · exact ((hbuild (.const (-13)) (.const 0)).1 fun _ => 0).alignUp 3 (by decide)
  · obtain ⟨p, hp, hfolded⟩ := hresolved _ _ _ hresolve
    refine ⟨p, hp, ?_⟩
    cases hp
    refine ⟨_, List.mem_of_getElem? (i := 20) rfl, rfl, hfolded _ ?_ rfl⟩
    exact List.mem_of_getElem? (i := 20) rfl

end Code

end HeapLayout
