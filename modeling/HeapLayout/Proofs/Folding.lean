import HeapLayout.Proofs.Evaluation

/-!
# Folding keeps values

`Expr.add`, `Expr.mul` and `Expr.and` fold constants while they build an expression. As
computations the folded expressions equal the plain ones, whatever variables, loads and calls
stand in them (`eval_add`, `eval_mul`, `eval_and`). Rounding up with a mask gives the least multiple
of the unit that is not smaller (`bitAnd_neg_two_pow`).
-/

namespace HeapLayout

/-- The least multiple of `unit` that is not below `n`. -/
def roundUp (unit n : Nat) : Nat :=
  (n + unit - 1) / unit * unit

/-! ## The rounding mask -/

theorem signed64_two_pow {k : Nat} (hk : k ≤ 62) : signed64 (2 ^ k) = 2 ^ k := by
  have hle : 2 ^ k ≤ 2 ^ 62 := Nat.pow_le_pow_right Nat.two_pos hk
  rw [signed64_of_lt (Nat.lt_of_le_of_lt hle (by decide)), Nat.cast_pow]
  rfl

theorem bitsWithout_two_pow (m k : Nat) : bitsWithout m (2 ^ k - 1) = m / 2 ^ k * 2 ^ k := by
  apply Nat.eq_of_testBit_eq
  intro i
  rw [bitsWithout, Nat.testBit_xor, Nat.testBit_and, Nat.testBit_two_pow_sub_one,
    Nat.testBit_mul_two_pow, Nat.testBit_div_two_pow]
  by_cases h : k ≤ i
  · simp [h, Nat.not_lt.mpr h]
  · simp [h, Nat.lt_of_not_le h]

theorem or_two_pow_sub_one (m k : Nat) : m ||| (2 ^ k - 1) = m / 2 ^ k * 2 ^ k + (2 ^ k - 1) := by
  have hlt : 2 ^ k - 1 < 2 ^ k := Nat.sub_one_lt (Nat.two_pow_pos k).ne'
  rw [Nat.mul_comm, Nat.two_pow_add_eq_or_of_lt hlt]
  apply Nat.eq_of_testBit_eq
  intro i
  rw [Nat.testBit_or, Nat.testBit_or, Nat.testBit_two_pow_sub_one, Nat.mul_comm,
    Nat.testBit_mul_two_pow, Nat.testBit_div_two_pow]
  by_cases h : k ≤ i
  · simp [h]
  · simp [h, Nat.lt_of_not_le h]

/-- Masking with `-2 ^ k` drops the remainder modulo `2 ^ k`, from negative numbers as well. -/
theorem bitAnd_neg_two_pow (x : Int) (k : Nat) : bitAnd x (-2 ^ k) = x / 2 ^ k * 2 ^ k := by
  have hpos : 0 < 2 ^ k := Nat.two_pow_pos k
  have hcast : ((2 ^ k - 1 : Nat) : Int) = 2 ^ k - 1 := by
    rw [Nat.cast_sub hpos, Nat.cast_pow]
    rfl
  have hmask : (-2 ^ k : Int) = Int.negSucc (2 ^ k - 1) := by
    rw [Int.negSucc_eq, hcast, Int.sub_add_cancel]
  rw [hmask]
  cases x with
  | ofNat m =>
    rw [bitAnd, bitsWithout_two_pow]
    exact_mod_cast rfl
  | negSucc m =>
    have hdiv : Int.negSucc m / 2 ^ k = -(m / 2 ^ k + 1) := Int.negSucc_ediv m (by positivity)
    rw [bitAnd, or_two_pow_sub_one, Int.negSucc_eq, hdiv, Nat.cast_add, hcast, Int.neg_mul,
      Int.add_mul]
    push_cast
    omega

namespace Code.Expr

variable {S : Scope} {env : Env}

/-! ## Constants -/

theorem eval_addConst (e : Expr) (v : Int) :
    (addConst e v).eval S env = (bin .add e (const v)).eval S env := by
  fun_induction addConst e v <;> simp_all [eval, BinOp.apply, add_assoc]

theorem eq_const_of_const? {a : Expr} {v : Int} (h : a.const? = some v) : a = const v := by
  cases a <;> simp_all [const?]

/-! ## Arithmetic -/

theorem eval_add (a b : Expr) : (add a b).eval S env = (bin .add a b).eval S env := by
  unfold add
  split
  · exact eval_addConst a _
  · split
    · next h =>
      have hzero : (HAdd.hAdd 0 : Int → Int) = id := funext Int.zero_add
      simp [eq_const_of_const? h, eval, BinOp.apply, hzero]
    · rfl

theorem eval_mul (a b : Expr) : (mul a b).eval S env = (bin .mul a b).eval S env := by
  unfold mul
  split
  · simp [eval, BinOp.apply]
  · rfl

theorem eval_and (a b : Expr) : (and a b).eval S env = (bin .and a b).eval S env := by
  unfold and
  split
  · simp [eval, BinOp.apply]
  · rfl

variable {m m₁ m₂ : Machine} {a b : Expr} {x y : Int}

theorem eval_add_of_ok (ha : a.eval S env m = .ok (x, m₁)) (hb : b.eval S env m₁ = .ok (y, m₂)) :
    (add a b).eval S env m = .ok (x + y, m₂) := by
  rw [eval_add]
  exact eval_bin .add ha hb

theorem eval_mul_of_ok (ha : a.eval S env m = .ok (x, m₁)) (hb : b.eval S env m₁ = .ok (y, m₂)) :
    (mul a b).eval S env m = .ok (x * y, m₂) := by
  rw [eval_mul]
  exact eval_bin .mul ha hb

theorem eval_const (v : Int) : (const v).eval S env m = .ok (v, m) := rfl

theorem eval_alignUp_two_pow {k : Nat} (hk : k ≤ 62) (ha : a.eval S env m = .ok (x, m₁)) :
    (alignUp a (2 ^ k)).eval S env m = .ok ((x + (2 ^ k - 1)) / 2 ^ k * 2 ^ k, m₁) := by
  have hsum := eval_add_of_ok ha (eval_const (signed64 (2 ^ k) - 1))
  rw [alignUp, Arithmetic.exact_keep, Arithmetic.exact_keep, eval_and,
    eval_bin .and hsum (eval_const _), signed64_two_pow hk, BinOp.apply, bitAnd_neg_two_pow]

/-- Rounding up gives the least multiple of the unit that is not below the value. -/
theorem eval_alignUp_of_ok {n : Nat} (w : PointerWidth) (ha : a.eval S env m = .ok (↑n, m₁)) :
    (alignUp a w.bytes).eval S env m = .ok (↑(roundUp w.bytes n), m₁) := by
  obtain ⟨k, hk, hw⟩ : ∃ k ≤ 62, w.bytes = 2 ^ k := by
    cases w
    · exact ⟨2, by decide, rfl⟩
    · exact ⟨3, by decide, rfl⟩
  rw [hw, eval_alignUp_two_pow hk ha, roundUp, Nat.add_sub_assoc Nat.one_le_two_pow]
  push_cast [Nat.one_le_two_pow]
  rfl

end Code.Expr

end HeapLayout
