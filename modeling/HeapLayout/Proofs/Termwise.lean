import HeapLayout.Proofs.Synthesis

/-!
# Properties of offset arithmetic

Offsets and sizes are sums of products, rounded up here and there, that are folded while they are
built. A property that constants have, and that sums, products and masks inherit from their operands
when they are folded (`FoldClosed`), goes through all of this: it holds of an offset if it holds of
the counts and of the index in it. Such are the properties that an operation has just if both
operands do (`Termwise`).
-/

namespace HeapLayout.Code

open HeapLayout (Layout Field FieldId PointerWidth)
open Accessor
open Schema (bind_eq_ok pure_eq_ok)

/-- Constants have the property, and folded operations have it if their operands do. -/
structure FoldClosed (P : Expr → Prop) : Prop where
  const : ∀ v, P (.const v)
  add : ∀ {a b}, P a → P b → P (Expr.add a b)
  mul : ∀ {a b}, P a → P b → P (Expr.mul a b)
  and : ∀ {a b}, P a → P b → P (Expr.and a b)

/-- Constants have the property, and an operation has it just if both operands do. -/
structure Termwise (P : Expr → Prop) : Prop where
  const : ∀ v, P (.const v)
  bin : ∀ op a b, P (.bin op a b) ↔ P a ∧ P b

/-! ## Folding -/

/-- Products and masks are folded only if both operands are constants. -/
theorem FoldClosed.of_bin {P : Expr → Prop} (hconst : ∀ v, P (.const v))
    (hadd : ∀ {a b}, P a → P b → P (Expr.add a b))
    (hbin : ∀ {op a b}, op ≠ .add → P a → P b → P (.bin op a b)) : FoldClosed P where
  const := hconst
  add := hadd
  mul {a b} ha hb := by
    unfold Expr.mul
    split
    · exact hconst _
    · exact hbin (by decide) ha hb
  and {a b} ha hb := by
    unfold Expr.and
    split
    · exact hconst _
    · exact hbin (by decide) ha hb

namespace Termwise

variable {P : Expr → Prop} (hP : Termwise P)
include hP

theorem addConst {a : Expr} (ha : P a) (v : Int) : P (Expr.addConst a v) := by
  fun_induction Expr.addConst a v with
  | case1 => exact hP.const _
  | case2 => exact ha
  | case3 x a b hb ih => exact ih ((hP.bin _ _ _).mp ha).1
  | case4 => exact ha
  | case5 => exact (hP.bin _ _ _).mpr ⟨ha, hP.const _⟩

theorem add {a b : Expr} (ha : P a) (hb : P b) : P (Expr.add a b) := by
  unfold Expr.add
  split
  · exact hP.addConst ha _
  · split
    · exact hb
    · exact (hP.bin _ _ _).mpr ⟨ha, hb⟩

theorem foldClosed : FoldClosed P :=
  .of_bin hP.const hP.add fun _ ha hb => (hP.bin _ _ _).mpr ⟨ha, hb⟩

end Termwise

/-! ## Sums of spans -/

namespace FoldClosed

variable {P : Expr → Prop} (hP : FoldClosed P) {w : PointerWidth} {l : Layout} {f : Field}
  {count : Field → Expr}
include hP

theorem alignUp {a : Expr} (ha : P a) (unit : Nat) : P (Expr.alignUp a unit) :=
  hP.and (hP.add ha (hP.const _)) (hP.const _)

theorem aligned {sum : Expr} (h : P sum) : P (aligned w sum f) := by
  unfold Accessor.aligned
  split
  · exact hP.alignUp h _
  · exact hP.add h (hP.const _)

theorem span {e : Expr}
    (hcount : ∀ i s, f.sizeField = some i → l.fields[i]? = some s → P (count s))
    (h : span l count f = .ok e) : P e := by
  unfold Accessor.span at h
  split at h
  · cases pure_eq_ok.mp h
    exact hP.const _
  · next i hi =>
    obtain ⟨s, hs, h⟩ := bind_eq_ok.mp h
    cases pure_eq_ok.mp h
    exact hP.mul (hP.const _) (hcount i s hi (getElem?_of_binding hs))

theorem prefixSumFrom {fs : List Field} {sum e : Expr}
    (hcount : ∀ f ∈ fs, ∀ i s, f.sizeField = some i → l.fields[i]? = some s → P (count s))
    (hsum : P sum) (h : prefixSumFrom w l count sum fs = .ok e) : P e := by
  induction fs generalizing sum with
  | nil =>
    cases h
    exact hsum
  | cons f fs ih =>
    obtain ⟨hf, hfs⟩ := List.forall_mem_cons.mp hcount
    obtain ⟨bytes, hbytes, h⟩ := bind_eq_ok.mp h
    exact ih hfs (hP.add (hP.aligned hsum) (hP.span hf hbytes)) h

theorem prefixSum {fs : List Field} {e : Expr}
    (hcount : ∀ f ∈ fs, ∀ i s, f.sizeField = some i → l.fields[i]? = some s → P (count s))
    (h : prefixSum w l count fs = .ok e) : P e :=
  hP.prefixSumFrom hcount (hP.const 0) h

theorem offsetExpr {earlier : List Field} {e : Expr}
    (hcount : ∀ f ∈ earlier, ∀ i s, f.sizeField = some i → l.fields[i]? = some s →
      P (storedCount l s))
    (hindex : f.isVariable = true → P index) (h : offsetExpr w l earlier f = .ok e) : P e := by
  obtain ⟨sum, hsum, h⟩ := bind_eq_ok.mp h
  have hstart : P (Accessor.aligned w sum f) := hP.aligned (hP.prefixSum hcount hsum)
  cases pure_eq_ok.mp h
  split
  · next hf => exact hP.add hstart (hP.mul (hP.const _) (hindex hf))
  · exact hstart

end FoldClosed

end HeapLayout.Code
