import HeapLayout.Text.Numeral

/-!
# What a plain scalar means

A plain scalar is nothing, a truth value, an integer, a floating-point number or, if it is none of
these, text. Integers are decimal, or hexadecimal, octal or binary behind `0x`, `0o` or `0b`; a
decimal numeral with a superfluous zero in front is text. So is a number that is too large: an
integer of more than 128 bits, a decimal fraction beyond the largest double.
-/

namespace HeapLayout.Yaml

inductive Meaning where
  | null
  | bool (value : Bool)
  | int (value : Int)
  | float
  | text
  deriving DecidableEq, Repr

namespace Meaning

def isNull (s : String) : Bool :=
  ["~", "null", "Null", "NULL"].contains s

def bool? (s : String) : Option Bool :=
  if ["true", "True", "TRUE"].contains s then some true
  else if ["false", "False", "FALSE"].contains s then some false
  else none

/-! ## Integers -/

/-- A text without one sign in front. -/
def withoutSign : List Char → List Char
  | '+' :: cs => cs
  | '-' :: cs => cs
  | cs => cs

def withoutPlus : List Char → List Char
  | '+' :: cs => cs
  | cs => cs

/-- Whether a text is all digits, apart from a sign, with a superfluous zero in front. -/
def hasSuperfluousZero (cs : List Char) : Bool :=
  match withoutSign cs with
  | '0' :: d :: ds => (d :: ds).all Char.isDigit
  | _ => false

/-- The magnitude of a numeral without a sign. -/
def magnitude? : List Char → Option Nat
  | '0' :: 'x' :: ds => Numeral.readNat? 16 ds
  | '0' :: 'o' :: ds => Numeral.readNat? 8 ds
  | '0' :: 'b' :: ds => Numeral.readNat? 2 ds
  | ds => Numeral.readNat? 10 ds

/-- The integer that a text denotes, which is unsigned or signed with 128 bits. -/
def int? (s : String) : Option Int :=
  let cs := s.toList
  if hasSuperfluousZero cs then none
  else
    match cs with
    | '-' :: ds => do
      let n ← magnitude? ds
      if n ≤ Nat.pow 2 127 then return -Int.ofNat n else none
    | _ => do
      let n ← magnitude? (withoutPlus cs)
      if n < Nat.pow 2 128 then return Int.ofNat n else none

/-! ## Floating-point numbers -/

/-- A decimal numeral `mantissa · 10 ^ exponent`. -/
structure Decimal where
  mantissa : Nat
  exponent : Int

/-- Reads an exponent, which may be missing. -/
def exponent? : List Char → Option Int
  | [] => some 0
  | e :: ds => if e = 'e' ∨ e = 'E' then Numeral.readInt? 10 ds else none

/-- Reads a decimal numeral with a sign, a fraction and an exponent, each of which may be
missing. -/
def decimal? (cs : List Char) : Option Decimal := do
  let cs := withoutSign cs
  let whole := cs.takeWhile Char.isDigit
  let rest := cs.drop whole.length
  let fraction := match rest with
    | '.' :: ds => ds.takeWhile Char.isDigit
    | _ => []
  let rest := match rest with
    | '.' :: ds => ds.drop fraction.length
    | ds => ds
  return { mantissa := ← Numeral.readNat? 10 (whole ++ fraction)
           exponent := (← exponent? rest) - fraction.length }

/-- The least number that is nearer to `2 ^ 1024` than to the largest double. -/
def doubleLimit : Nat := Nat.pow 2 1024 - Nat.pow 2 970

/-- Whether a decimal numeral is a finite double. The number of digits settles all but a few
magnitudes. -/
def Decimal.isFinite (d : Decimal) : Bool :=
  let width : Int := (Numeral.digits d.mantissa).length + d.exponent
  if d.mantissa = 0 then true
  else if width ≤ 308 then true
  else if width > 309 then false
  else if 0 ≤ d.exponent then d.mantissa * Nat.pow 10 d.exponent.toNat < doubleLimit
  else d.mantissa < doubleLimit * Nat.pow 10 (-d.exponent).toNat

def isSpecialFloat (s : String) : Bool :=
  [".inf", ".Inf", ".INF", "+.inf", "+.Inf", "+.INF", "-.inf", "-.Inf", "-.INF",
    ".nan", ".NaN", ".NAN"].contains s

def isFloat (s : String) : Bool :=
  let cs := s.toList
  let twoSigns := match cs with
    | '+' :: c :: _ => c == '+' || c == '-'
    | _ => false
  isSpecialFloat s ||
    (!hasSuperfluousZero cs && !twoSigns && (decimal? (withoutPlus cs)).any Decimal.isFinite)

/-! ## All together -/

def ofPlain (s : String) : Meaning :=
  if s.isEmpty || isNull s then null
  else
    match bool? s, int? s with
    | some b, _ => bool b
    | none, some v => int v
    | none, none => if isFloat s then float else text

end Meaning

end HeapLayout.Yaml
