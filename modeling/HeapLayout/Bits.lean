/-!
# Machine ranges and two's complement on exact integers

Quantities are exact: sizes, offsets and indices are natural numbers, constants are integers. A
machine range matters in three places only. Values that are stored in a file must fit it
(`FitsInt64`, `FitsUInt64`, `FitsUInt32`), a stored unsigned word is used as a signed constant
(`signed64`), and the arithmetic on constants may be that of a machine (`Arithmetic.int64`). Bitwise
conjunction is the two's complement one at unbounded width, which restricts to every width.
-/

namespace HeapLayout

abbrev FitsInt64 (v : Int) : Prop :=
  -9223372036854775808 ≤ v ∧ v ≤ 9223372036854775807

abbrev FitsUInt64 (n : Nat) : Prop :=
  n ≤ 18446744073709551615

abbrev FitsUInt32 (n : Nat) : Prop :=
  n ≤ 4294967295

/-- The signed reading of an unsigned 64-bit word. -/
def signed64 (n : Nat) : Int :=
  Int.bmod n 18446744073709551616

/-- Small words read as themselves. -/
theorem signed64_of_lt {n : Nat} (h : n < 9223372036854775808) : signed64 n = n := by
  exact Int.bmod_eq_of_le (by omega) (by omega)

/-- The arithmetic on constants: what is kept of a sum or a product. -/
structure Arithmetic where
  keep : Int → Int

namespace Arithmetic

/-- Everything is kept. -/
def exact : Arithmetic where
  keep v := v

/-- The lower 64 bits are kept, as a signed number: the arithmetic of a machine that does not stop at
an overflow. -/
def int64 : Arithmetic where
  keep v := Int.bmod v 18446744073709551616

@[simp]
theorem exact_keep (v : Int) : exact.keep v = v := rfl

/-- Results that fit are kept as they are. Nothing is said of the others. -/
def KeepsInt64 (A : Arithmetic) : Prop :=
  ∀ v, FitsInt64 v → A.keep v = v

theorem keepsInt64_int64 : int64.KeepsInt64 :=
  fun _ h => Int.bmod_eq_of_le (by omega) (by omega)

end Arithmetic

/-- The bits of `m` that are not bits of `n`. -/
def bitsWithout (m n : Nat) : Nat :=
  m ^^^ (m &&& n)

/-- Bitwise conjunction, a negative number being the complement of a natural one. -/
def bitAnd : Int → Int → Int
  | .ofNat m, .ofNat n => .ofNat (m &&& n)
  | .ofNat m, .negSucc n => .ofNat (bitsWithout m n)
  | .negSucc m, .ofNat n => .ofNat (bitsWithout n m)
  | .negSucc m, .negSucc n => .negSucc (m ||| n)

end HeapLayout
