import HeapLayout.Proofs.References

/-!
# Layouts without overflow

A machine adds constants up in 64 bits, and this agrees with exact arithmetic as long as every sum
fits. The constants of a layout are its paddings and the sizes of its elements, so none of the sums
is larger than all of them together (`totalReach`). If that number fits, synthesis comes to the
same declarations in any arithmetic that is right about the numbers that fit (`layoutDecls_congr`).
No arithmetic is ever asked about another number then, so a machine that stops at an overflow does
not stop. The number does fit in the layouts of an accepted schema, unless one of them has more
fields than any memory holds (`ofLayouts_congr`).

The induction follows the sum. What it needs to know of an expression is how far the constants at
its end may add up (`Expr.AtMost`), since these are what the next constant is added to.
-/

namespace HeapLayout

/-- The most padding in front of a field. -/
def Field.gap (w : PointerWidth) (f : Field) : Nat :=
  match f.align with
  | .static pad => pad
  | .dynamic => w.bytes - 1

theorem Field.gap_of_static {w : PointerWidth} {f : Field} {pad : Nat}
    (h : f.align = .static pad) : f.gap w = pad := by
  rw [gap, h]

theorem Field.gap_of_dynamic {w : PointerWidth} {f : Field} (h : f.align = .dynamic) :
    f.gap w = w.bytes - 1 := by
  rw [gap, h]

/-- The most that a field adds to a constant, being single or an array of one element. -/
def Field.reach (w : PointerWidth) (f : Field) : Nat :=
  f.gap w + f.elemSize

/-- The largest number that can come up where the constants of the fields are added. -/
def totalReach (w : PointerWidth) (fs : List Field) : Nat :=
  (fs.map (·.reach w)).sum

theorem totalReach_cons (w : PointerWidth) (f : Field) (fs : List Field) :
    totalReach w (f :: fs) = f.gap w + f.elemSize + totalReach w fs := rfl

theorem totalReach_append (w : PointerWidth) (fs gs : List Field) :
    totalReach w (fs ++ gs) = totalReach w fs + totalReach w gs := by
  rw [totalReach, List.map_append, List.sum_append]
  rfl

namespace Code

variable {A : Arithmetic} {op : BinOp} {a b e : Expr} {n n' v : Int}

/-! ## Constants at the end of a sum -/

/-- The constants at the end of a sum are not negative and add up to `n` at most. -/
def Expr.AtMost : Expr → Int → Prop
  | .const v, n => 0 ≤ v ∧ v ≤ n
  | .bin .add e (.const v), n => 0 ≤ v ∧ e.AtMost (n - v)
  | _, n => 0 ≤ n

namespace Expr

theorem AtMost.nonneg (h : e.AtMost n) : 0 ≤ n := by
  fun_induction AtMost e n with
  | case1 v n => exact h.1.trans h.2
  | case2 e v n ih =>
    have := ih h.2
    have := h.1
    omega
  | case3 => exact h

theorem AtMost.mono (h : e.AtMost n) (hle : n ≤ n') : e.AtMost n' := by
  fun_induction AtMost e n generalizing n' with
  | case1 v n => exact ⟨h.1, h.2.trans hle⟩
  | case2 e v n ih => exact ⟨h.1, ih h.2 (Int.sub_le_sub_right hle v)⟩
  | case3 e n hconst hsum =>
    rw [AtMost.eq_3 e n' hconst hsum]
    exact h.trans hle

theorem addConst_congr (hA : A.KeepsInt64) (he : e.AtMost n) (hv : 0 ≤ v)
    (hfits : FitsInt64 (n + v)) :
    addConst e v A = addConst e v ∧ (addConst e v).AtMost (n + v) := by
  fun_induction addConst e v generalizing n with
  | case1 a v =>
    obtain ⟨ha, hle⟩ := he
    have hkeep : A.keep (a + v) = a + v := hA _ (by omega)
    rw [addConst, hkeep, Arithmetic.exact_keep]
    exact ⟨rfl, Int.add_nonneg ha hv, Int.add_le_add_right hle v⟩
  | case2 e a =>
    rw [Int.add_zero]
    exact ⟨rfl, he⟩
  | case3 e a v hne ih =>
    obtain ⟨ha, hle⟩ := he
    have hnonneg := hle.nonneg
    have hsplit : n - a + (a + v) = n + v := by omega
    have hkeep : A.keep (a + v) = a + v := hA _ (by omega)
    have hrest := ih hle (Int.add_nonneg ha hv) (hsplit ▸ hfits)
    rw [Arithmetic.exact_keep, hsplit] at hrest
    rwa [addConst, if_neg hne, hkeep, Arithmetic.exact_keep]
  | case4 e hconst hsum =>
    rw [addConst.eq_3 e 0 A hconst hsum, if_pos rfl, Int.add_zero]
    exact ⟨rfl, he⟩
  | case5 e v hconst hsum hne =>
    rw [addConst.eq_3 e v A hconst hsum, if_neg hne]
    refine ⟨rfl, hv, ?_⟩
    rwa [Int.add_sub_cancel]

theorem AtMost.add_bin (he : e.AtMost n) (hb : 0 ≤ n → (bin op a b).AtMost n) :
    (add e (bin op a b)).AtMost n := by
  unfold add
  dsimp only
  split
  · exact hb he.nonneg
  · exact he.nonneg

theorem mul_of_const?_eq_none (A : Arithmetic) (hb : b.const? = none) :
    mul a b A = bin .mul a b := by
  unfold mul
  split
  · cases hb
  · rfl

theorem AtMost.and_mask (he : e.AtMost n) (k : Nat) : (and e (const (-2 ^ k))).AtMost n := by
  unfold and
  split
  · next x _ hmask =>
    cases hmask
    rw [bitAnd_neg_two_pow]
    exact ⟨Int.mul_nonneg (Int.ediv_nonneg he.1 (by positivity)) (by positivity),
      (Int.ediv_mul_le x (by positivity)).trans he.2⟩
  · exact he.nonneg

theorem alignUp_congr (hA : A.KeepsInt64) (w : PointerWidth) (he : e.AtMost n)
    (hfits : FitsInt64 (n + (w.bytes - 1 : Nat))) :
    alignUp e w.bytes A = alignUp e w.bytes ∧
      (alignUp e w.bytes).AtMost (n + (w.bytes - 1 : Nat)) := by
  obtain ⟨k, hunit, hmask⟩ : ∃ k, signed64 w.bytes - 1 = (w.bytes - 1 : Nat) ∧
      -signed64 w.bytes = -2 ^ k := by
    cases w
    · exact ⟨2, by decide, by decide⟩
    · exact ⟨3, by decide, by decide⟩
  have hkeep : A.keep (-2 ^ k) = -2 ^ k := by
    rw [← hmask]
    exact hA _ (by cases w <;> decide)
  have hkeep' : A.keep (w.bytes - 1 : Nat) = (w.bytes - 1 : Nat) :=
    hA _ (by cases w <;> decide)
  obtain ⟨hsum, hmost⟩ := addConst_congr hA he (Int.natCast_nonneg _) hfits
  rw [alignUp, alignUp, hunit, hmask, Arithmetic.exact_keep, Arithmetic.exact_keep, hkeep, hkeep',
    add, hsum]
  exact ⟨rfl, hmost.and_mask k⟩

end Expr

/-! ## Offsets and sizes -/

open Accessor
open Schema (bind_eq_ok pure_eq_ok)

variable {w : PointerWidth} {l : Layout} {f : Field} {fs earlier : List Field} {sum bytes : Expr}
  {count : Field → Expr}

theorem signed64_of_fits {m : Nat} (h : FitsInt64 m) : signed64 m = m :=
  signed64_of_lt (by omega)

theorem aligned_congr (hA : A.KeepsInt64) (hsum : sum.AtMost n) (hfits : FitsInt64 (n + f.gap w)) :
    aligned w sum f A = aligned w sum f ∧ (aligned w sum f).AtMost (n + f.gap w) := by
  have hnonneg := hsum.nonneg
  unfold aligned
  cases halign : f.align with
  | dynamic =>
    rw [Field.gap_of_dynamic halign] at hfits ⊢
    exact Expr.alignUp_congr hA w hsum hfits
  | static pad =>
    rw [Field.gap_of_static halign] at hfits ⊢
    simp only [signed64_of_fits (m := pad) ⟨by omega, by omega⟩]
    exact Expr.addConst_congr hA hsum (Int.natCast_nonneg pad) hfits

/-- The length of an array is no constant, so the span of an array is not folded. -/
theorem span_congr (A : Arithmetic) (hcount : ∀ s, (count s).const? = none) :
    span l count f A = span l count f := by
  simp only [span, Expr.mul_of_const?_eq_none _ (hcount _)]

theorem add_span_congr (hA : A.KeepsInt64) (hcount : ∀ s, (count s).const? = none)
    (hsum : sum.AtMost n) (hfits : FitsInt64 (n + f.elemSize)) (h : span l count f = .ok bytes) :
    Expr.add sum bytes A = .add sum bytes ∧ (Expr.add sum bytes).AtMost (n + f.elemSize) := by
  have hnonneg := hsum.nonneg
  unfold span at h
  split at h
  · cases pure_eq_ok.mp h
    rw [signed64_of_fits ⟨by omega, by omega⟩]
    exact Expr.addConst_congr hA hsum (Int.natCast_nonneg f.elemSize) hfits
  · obtain ⟨s, -, h⟩ := bind_eq_ok.mp h
    cases pure_eq_ok.mp h
    rw [Expr.mul_of_const?_eq_none _ (hcount s)]
    exact ⟨rfl, (hsum.mono (by omega)).add_bin id⟩

theorem prefixSumFrom_congr (hA : A.KeepsInt64) (hcount : ∀ s, (count s).const? = none)
    (hsum : sum.AtMost n) (hfits : FitsInt64 (n + totalReach w fs)) :
    prefixSumFrom w l count sum fs A = prefixSumFrom w l count sum fs ∧
      ∀ e, prefixSumFrom w l count sum fs = .ok e → e.AtMost (n + totalReach w fs) := by
  induction fs generalizing sum n with
  | nil =>
    refine ⟨rfl, fun e he => ?_⟩
    cases he
    exact hsum.mono (by omega)
  | cons f fs ih =>
    have hnonneg := hsum.nonneg
    have htotal : n + totalReach w (f :: fs) = n + f.gap w + f.elemSize + totalReach w fs := by
      rw [totalReach_cons]
      push_cast
      omega
    rw [htotal] at hfits ⊢
    obtain ⟨halign, hstart⟩ := aligned_congr (f := f) (w := w) hA hsum ⟨by omega, by omega⟩
    rw [prefixSumFrom, prefixSumFrom, span_congr A hcount, halign]
    cases hbytes : span l count f with
    | error e => exact ⟨rfl, fun _ h => by cases h⟩
    | ok bytes =>
      obtain ⟨hadd, hend⟩ := add_span_congr hA hcount hstart ⟨by omega, by omega⟩ hbytes
      change prefixSumFrom w l count (.add (aligned w sum f) bytes A) fs A = _ ∧ _
      rw [hadd]
      exact ih hend hfits

theorem prefixSum_congr (hA : A.KeepsInt64) (hcount : ∀ s, (count s).const? = none)
    (hfits : FitsInt64 (totalReach w fs)) :
    prefixSum w l count fs A = prefixSum w l count fs ∧
      ∀ e, prefixSum w l count fs = .ok e → e.AtMost (totalReach w fs) := by
  have hzero : (Expr.const 0).AtMost 0 := ⟨le_rfl, le_rfl⟩
  rw [← Int.zero_add (totalReach w fs : Int)] at hfits ⊢
  exact prefixSumFrom_congr hA hcount hzero hfits

theorem offsetExpr_congr (hA : A.KeepsInt64)
    (hfits : FitsInt64 (totalReach w (earlier ++ f :: fs))) :
    offsetExpr w l earlier f A = offsetExpr w l earlier f := by
  rw [totalReach_append, totalReach_cons] at hfits
  push_cast at hfits
  have hearlier : FitsInt64 (totalReach w earlier) := ⟨by omega, by omega⟩
  have hcount : ∀ s, (storedCount l s).const? = none := fun _ => rfl
  obtain ⟨hsum, hend⟩ := prefixSum_congr (l := l) hA hcount hearlier
  unfold offsetExpr
  rw [hsum]
  cases he : prefixSum w l (storedCount l) earlier with
  | error e => exact Eq.refl (Except.error e)
  | ok sum =>
    obtain ⟨halign, -⟩ := aligned_congr (f := f) (w := w) hA (hend sum he) ⟨by omega, by omega⟩
    change (pure (if f.isVariable then _ else aligned w sum f A) : Except BuildError Expr) = _
    rw [halign]
    rfl

theorem offsetFunctionsFrom_congr (hA : A.KeepsInt64)
    (hfits : FitsInt64 (totalReach w (earlier ++ fs))) :
    offsetFunctionsFrom w l earlier fs A = offsetFunctionsFrom w l earlier fs := by
  induction fs generalizing earlier with
  | nil => rfl
  | cons f fs ih =>
    have hrest : offsetFunctionsFrom w l (earlier ++ [f]) fs A =
        offsetFunctionsFrom w l (earlier ++ [f]) fs := ih (by rwa [List.append_assoc])
    rw [offsetFunctionsFrom, offsetFunctionsFrom, hrest, offsetFunction, offsetFunction,
      offsetExpr_congr hA hfits]

theorem compSizeFunction_congr (hA : A.KeepsInt64) (hfits : FitsInt64 (totalReach w l.fields)) :
    compSizeFunction w l A = compSizeFunction w l := by
  have hcount : ∀ s, (passedCount s).const? = none := fun _ => rfl
  rw [compSizeFunction, compSizeFunction, (prefixSum_congr hA hcount hfits).1]

/-- A layout whose bytes fit has the same declarations in every arithmetic that is right about the
numbers that fit. -/
theorem layoutDecls_congr (hA : A.KeepsInt64) (hfits : FitsInt64 (totalReach w l.fields)) :
    layoutDecls w l A = layoutDecls w l := by
  have hoffsets : offsetFunctionsFrom w l [] l.fields A = offsetFunctionsFrom w l [] l.fields :=
    offsetFunctionsFrom_congr hA hfits
  rw [layoutDecls, layoutDecls, hoffsets, compSizeFunction_congr hA hfits]

/-! ## Accepted schemas -/

variable {ls : List Layout}

theorem layoutsDecls_congr (h : ∀ l ∈ ls, layoutDecls w l A = layoutDecls w l) :
    layoutsDecls w ls A = layoutsDecls w ls := by
  induction ls with
  | nil => rfl
  | cons l ls ih =>
    obtain ⟨hl, hls⟩ := List.forall_mem_cons.mp h
    rw [layoutsDecls, layoutsDecls, hl, ih hls]

/-- No field of a well-formed layout reaches further than two words. -/
theorem reach_le (hl : l.WellFormed w) (hf : f ∈ l.fields) : f.reach w ≤ 16 := by
  have helem : f.elemSize ≤ 8 := by
    rw [hl.elemSize_eq f hf]
    cases f.type <;> cases w <;> decide
  have hgap : f.gap w ≤ 8 := by
    cases halign : f.align with
    | static pad =>
      rw [Field.gap_of_static halign]
      exact (hl.pad_lt f hf pad halign).le
    | dynamic =>
      rw [Field.gap_of_dynamic halign]
      cases w <;> decide
  exact Nat.add_le_add hgap helem

theorem totalReach_le (hl : l.WellFormed w) : totalReach w l.fields ≤ l.fields.length * 16 := by
  have hreach : ∀ n ∈ l.fields.map (·.reach w), n ≤ 16 := by
    intro n hn
    obtain ⟨f, hf, rfl⟩ := List.mem_map.mp hn
    exact reach_le hl hf
  simpa [totalReach] using List.sum_le_card_nsmul _ 16 hreach

theorem ofLayouts_congr {defs : List LayoutDef} (hA : A.KeepsInt64)
    (h : Schema.resolve w defs = .ok ls) (hlength : ∀ l ∈ ls, l.fields.length < 2 ^ 59) :
    Program.ofLayouts w ls A = Program.ofLayouts w ls := by
  have hdecls : layoutsDecls w ls A = layoutsDecls w ls := by
    refine layoutsDecls_congr fun l hl => layoutDecls_congr hA ?_
    have hle := totalReach_le (Schema.wellFormed_of_resolve h hl)
    have hlt := hlength l hl
    exact ⟨by omega, by omega⟩
  rw [ofLayouts_eq, ofLayouts_eq, hdecls]

/-- What a machine generates for an accepted schema is what exact arithmetic gives. -/
theorem ofLayouts_int64 {defs : List LayoutDef} (h : Schema.resolve w defs = .ok ls)
    (hlength : ∀ l ∈ ls, l.fields.length < 2 ^ 59) :
    Program.ofLayouts w ls .int64 = Program.ofLayouts w ls :=
  ofLayouts_congr Arithmetic.keepsInt64_int64 h hlength

end Code

end HeapLayout
