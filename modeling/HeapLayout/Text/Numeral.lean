/-!
# Numerals

Integers are written in decimal without superfluous zeros, a minus sign in front of a negative
one. Reading is more liberal than writing: leading zeros are skipped and one sign of either kind
may stand in front. `readNat?_digits` is the law between the two.
-/

namespace HeapLayout.Numeral

/-! ## Writing -/

def digitChar (d : Nat) : Char :=
  Char.ofNat ('0'.toNat + d)

/-- The decimal digits of a number, most significant first. -/
def digits (n : Nat) : List Char :=
  if n < 10 then [digitChar n] else digits (n / 10) ++ [digitChar (n % 10)]

def ofNat (n : Nat) : String :=
  String.ofList (digits n)

def ofInt : Int → String
  | .ofNat n => ofNat n
  | .negSucc n => "-" ++ ofNat (n + 1)

/-! ## Reading -/

/-- The value of a digit, letters of either case standing for ten and more. -/
def digitValue? (base : Nat) (c : Char) : Option Nat :=
  let value? :=
    if '0' ≤ c ∧ c ≤ '9' then some (c.toNat - '0'.toNat)
    else if 'a' ≤ c ∧ c ≤ 'z' then some (c.toNat - 'a'.toNat + 10)
    else if 'A' ≤ c ∧ c ≤ 'Z' then some (c.toNat - 'A'.toNat + 10)
    else none
  value?.filter (· < base)

/-- Reads further digits after those that gave `acc`. -/
def readDigits? (base acc : Nat) : List Char → Option Nat
  | [] => some acc
  | c :: cs => do readDigits? base (acc * base + (← digitValue? base c)) cs

/-- Reads one or more digits and nothing else. -/
def readNat? (base : Nat) (cs : List Char) : Option Nat :=
  if cs.isEmpty then none else readDigits? base 0 cs

/-- Reads an unsigned numeral, in front of which a plus sign may stand. -/
def readUnsigned? (base : Nat) : List Char → Option Nat
  | '+' :: cs => readNat? base cs
  | cs => readNat? base cs

/-- Reads a numeral in front of which one sign may stand. -/
def readInt? (base : Nat) : List Char → Option Int
  | '+' :: cs => (readNat? base cs).map Int.ofNat
  | '-' :: cs => (readNat? base cs).map fun n => -Int.ofNat n
  | cs => (readNat? base cs).map Int.ofNat

/-! ## Reading what was written -/

theorem digitValue?_digitChar {d : Nat} (h : d < 10) : digitValue? 10 (digitChar d) = some d := by
  have all : ∀ d, d < 10 → digitValue? 10 (digitChar d) = some d := by decide
  exact all d h

theorem readDigits?_append (base acc : Nat) (xs ys : List Char) :
    readDigits? base acc (xs ++ ys) =
      (readDigits? base acc xs).bind fun n => readDigits? base n ys := by
  induction xs generalizing acc with
  | nil => rfl
  | cons c cs ih =>
    simp only [List.cons_append, readDigits?]
    cases digitValue? base c <;> simp [ih]

theorem digits_ne_nil (n : Nat) : digits n ≠ [] := by
  rw [digits]
  split <;> simp

theorem readDigits?_digits (n : Nat) : readDigits? 10 0 (digits n) = some n := by
  rw [digits]
  split
  · simp [readDigits?, digitValue?_digitChar ‹_›]
  · have hmod : n % 10 < 10 := by omega
    rw [readDigits?_append, readDigits?_digits (n / 10)]
    simp only [Option.bind_some, readDigits?, digitValue?_digitChar hmod]
    exact congrArg some (by omega)
termination_by n
decreasing_by omega

theorem readNat?_digits (n : Nat) : readNat? 10 (digits n) = some n := by
  simp [readNat?, digits_ne_nil, readDigits?_digits]

theorem exists_of_mem_digits {n : Nat} {c : Char} (h : c ∈ digits n) :
    ∃ d < 10, c = digitChar d := by
  rw [digits] at h
  split at h
  · exact ⟨n, ‹_›, List.mem_singleton.mp h⟩
  · rcases List.mem_append.mp h with h | h
    · exact exists_of_mem_digits h
    · exact ⟨n % 10, by omega, List.mem_singleton.mp h⟩
termination_by n
decreasing_by omega

/-- A property of characters that minus signs and digits have. -/
theorem forall_mem_ofInt {P : Char → Prop} (hminus : P '-') (hdigit : ∀ d < 10, P (digitChar d))
    (v : Int) : ∀ c ∈ (ofInt v).toList, P c := by
  have hdigits (n : Nat) : ∀ c ∈ (ofNat n).toList, P c := by
    intro c hc
    rw [ofNat, String.toList_ofList] at hc
    obtain ⟨d, hd, rfl⟩ := exists_of_mem_digits hc
    exact hdigit d hd
  cases v with
  | ofNat n => exact hdigits n
  | negSucc n =>
    rw [ofInt, String.toList_append]
    exact List.forall_mem_cons.mpr ⟨hminus, hdigits (n + 1)⟩

theorem exists_toList_ofInt {P : Char → Prop} (hminus : P '-')
    (hdigit : ∀ d < 10, P (digitChar d)) (v : Int) :
    ∃ c cs, (ofInt v).toList = c :: cs ∧ P c := by
  have hmem := forall_mem_ofInt hminus hdigit v
  cases hcs : (ofInt v).toList with
  | nil =>
    cases v with
    | ofNat n => simp [ofInt, ofNat, digits_ne_nil] at hcs
    | negSucc n => simp [ofInt] at hcs
  | cons c cs => exact ⟨c, cs, rfl, hmem c (hcs ▸ List.mem_cons_self)⟩

theorem readInt?_ofInt (v : Int) : readInt? 10 (ofInt v).toList = some v := by
  cases v with
  | ofNat n =>
    have hsign : ∀ d < 10, digitChar d ≠ '+' ∧ digitChar d ≠ '-' := by decide
    have hread := readNat?_digits n
    rw [ofInt, ofNat, String.toList_ofList]
    cases hcs : digits n with
    | nil => exact absurd hcs (digits_ne_nil n)
    | cons c cs =>
      obtain ⟨d, hd, hc⟩ := exists_of_mem_digits (hcs ▸ List.mem_cons_self : c ∈ digits n)
      obtain ⟨hplus, hminus⟩ := hsign d hd
      rw [readInt?, ← hcs, hread]
      · rfl
      · rintro _ ⟨⟩
        exact hplus hc.symm
      · rintro _ ⟨⟩
        exact hminus hc.symm
  | negSucc n =>
    have htext : (ofInt (.negSucc n)).toList = '-' :: digits (n + 1) := by simp [ofInt, ofNat]
    rw [htext, readInt?, readNat?_digits]
    rfl

theorem ofInt_injective {v w : Int} (h : ofInt v = ofInt w) : v = w := by
  have hv := readInt?_ofInt v
  rw [h, readInt?_ofInt w] at hv
  exact (Option.some.inj hv).symm

end HeapLayout.Numeral
