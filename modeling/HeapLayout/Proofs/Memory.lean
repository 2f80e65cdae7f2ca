import HeapLayout.Prim
import Mathlib.Algebra.Order.Group.Int
import Mathlib.Tactic.LinearCombination
import Mathlib.Tactic.Positivity

/-!
# Byte memory

Memory is a byte at every integer address. A word of `n` bytes is read and written little-endian,
and a value of a primitive kind is the word of its size, cut to the range of the kind (`narrow`).

What the rest needs of memory are two laws: a word reads back as what was written there, cut to its
size (`load_store_self`), and a write leaves every disjoint word alone (`load_store_of_disjoint`).
-/

namespace HeapLayout

/-- A value cut to the range of a kind: two's complement if the kind is signed. -/
def Prim.narrow (w : PointerWidth) (p : Prim) (v : Int) : Int :=
  if p.isSigned then v.bmod (256 ^ p.size w) else v % 256 ^ p.size w

namespace Prim

variable {w : PointerWidth} {p : Prim}

theorem narrow_emod (v : Int) : p.narrow w (v % 256 ^ p.size w) = p.narrow w v := by
  unfold narrow
  split
  · exact_mod_cast Int.emod_bmod v (256 ^ p.size w)
  · exact Int.emod_emod_of_dvd v dvd_rfl

theorem narrow_zero : p.narrow w 0 = 0 := by
  unfold narrow
  split <;> simp

/-- Only a signed kind has negative values. -/
theorem narrow_nonneg (h : p.isSigned = false) (v : Int) : 0 ≤ p.narrow w v := by
  rw [narrow, h, if_neg (by simp)]
  exact Int.emod_nonneg v (by positivity)

end Prim

namespace Code

/-- A byte at every address. -/
abbrev Bytes := Int → UInt8

namespace Bytes

variable {w : PointerWidth} {p q : Prim} {b b' : Bytes} {n k : Nat} {a c v x : Int}

/-! ## Words -/

/-- The little-endian word of `n` bytes at an address. -/
def word (b : Bytes) : Nat → Int → Nat
  | 0, _ => 0
  | n + 1, a => (b a).toNat + 256 * b.word n (a + 1)

/-- Writes the low `n` bytes of a value. -/
def setWord (b : Bytes) : Nat → Int → Int → Bytes
  | 0, _, _ => b
  | n + 1, a, v => fun x =>
    if x = a then UInt8.ofNat (v % 256).toNat else b.setWord n (a + 1) (v / 256) x

/-- Fills a range with zeros. -/
def clear (b : Bytes) (a n : Int) : Bytes :=
  fun x => if a ≤ x ∧ x < a + n then 0 else b x

theorem setWord_succ_self : b.setWord (n + 1) a v a = UInt8.ofNat (v % 256).toNat := by
  simp [setWord]

theorem setWord_succ_of_ne (h : x ≠ a) :
    b.setWord (n + 1) a v x = b.setWord n (a + 1) (v / 256) x := by
  simp [setWord, h]

/-- A word depends on its own bytes only. -/
theorem word_congr (h : ∀ x, a ≤ x → x < a + n → b x = b' x) : b.word n a = b'.word n a := by
  induction n generalizing a with
  | zero => rfl
  | succ n ih =>
    have htail : b.word n (a + 1) = b'.word n (a + 1) :=
      ih fun x hx hx' => h x (by omega) (by push_cast; omega)
    rw [word, word, h a le_rfl (by push_cast; omega), htail]

theorem setWord_of_outside (h : x < a ∨ a + n ≤ x) : b.setWord n a v x = b x := by
  induction n generalizing a v with
  | zero => rfl
  | succ n ih =>
    push_cast at h
    rw [setWord_succ_of_ne (by omega)]
    exact ih (by omega)

/-- The low part of a value, by its lowest byte and the rest. -/
theorem emod_byte_mul (v M : Int) (hM : 0 < M) :
    v % (256 * M) = v % 256 + 256 * (v / 256 % M) := by
  have hv : v = v % 256 + 256 * (v / 256 % M) + 256 * M * (v / 256 / M) := by
    have h₁ := Int.emod_add_mul_ediv v 256
    have h₂ := Int.emod_add_mul_ediv (v / 256) M
    linear_combination -h₁ - 256 * h₂
  have hlt := Int.emod_lt_of_pos (v / 256) hM
  have hnn := Int.emod_nonneg (v / 256) hM.ne'
  conv_lhs => rw [hv, Int.add_mul_emod_self_left]
  exact Int.emod_eq_of_lt (by omega) (by omega)

theorem word_setWord_self : ((b.setWord n a v).word n a : Int) = v % 256 ^ n := by
  induction n generalizing a v with
  | zero =>
    rw [pow_zero, Int.emod_one]
    rfl
  | succ n ih =>
    have hlow : ((UInt8.ofNat (v % 256).toNat).toNat : Int) = v % 256 := by
      rw [UInt8.toNat_ofNat_of_lt' (by simp only [UInt8.size]; omega)]
      omega
    have htail : (b.setWord (n + 1) a v).word n (a + 1) =
        (b.setWord n (a + 1) (v / 256)).word n (a + 1) :=
      word_congr fun x hx _ => setWord_succ_of_ne (by omega)
    rw [word, htail, setWord_succ_self, Nat.cast_add, Nat.cast_mul, hlow, ih, pow_succ',
      emod_byte_mul v _ (by positivity)]
    rfl

theorem word_of_zero (h : ∀ x, a ≤ x → x < a + n → b x = 0) : b.word n a = 0 := by
  induction n generalizing a with
  | zero => rfl
  | succ n ih =>
    have htail : b.word n (a + 1) = 0 := ih fun x hx hx' => h x (by omega) (by push_cast; omega)
    rw [word, h a le_rfl (by push_cast; omega), htail]
    rfl

theorem clear_of_inside {s : Int} (h : a ≤ x ∧ x < a + s) : b.clear a s x = 0 := by
  rw [clear, if_pos h]

theorem clear_of_outside {s : Int} (h : x < a ∨ a + s ≤ x) : b.clear a s x = b x := by
  rw [clear, if_neg (by omega)]

/-! ## Values of a kind -/

/-- The value of a kind at an address. -/
def load (w : PointerWidth) (b : Bytes) (p : Prim) (a : Int) : Int :=
  p.narrow w (b.word (p.size w) a)

/-- Writes a value of a kind. -/
def store (w : PointerWidth) (b : Bytes) (p : Prim) (a v : Int) : Bytes :=
  b.setWord (p.size w) a v

theorem load_congr (h : ∀ x, a ≤ x → x < a + p.size w → b x = b' x) :
    b.load w p a = b'.load w p a := by
  rw [load, load, word_congr h]

theorem store_of_outside (h : x < a ∨ a + p.size w ≤ x) : b.store w p a v x = b x :=
  setWord_of_outside h

theorem load_store_self : (b.store w p a v).load w p a = p.narrow w v := by
  rw [load, store, word_setWord_self, Prim.narrow_emod]

theorem load_store_of_disjoint (h : a + p.size w ≤ c ∨ c + q.size w ≤ a) :
    (b.store w q c v).load w p a = b.load w p a :=
  load_congr fun x hx hx' => store_of_outside (by omega)

theorem load_of_zero (h : ∀ x, a ≤ x → x < a + p.size w → b x = 0) : b.load w p a = 0 := by
  rw [load, word_of_zero h, Nat.cast_zero, Prim.narrow_zero]

end Bytes

end Code

end HeapLayout
