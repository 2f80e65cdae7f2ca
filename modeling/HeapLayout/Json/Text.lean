import HeapLayout.Json
import HeapLayout.Text.Numeral

/-!
# JSON text

A value is written on one line without spaces (`Json.compact`) or, for people, over several lines
with an indentation of two spaces (`Json.pretty`). Both escape only what has to be escaped: the
quote, the backslash and the control characters. `Json.parse?` reads the whole of the standard
grammar.
-/

namespace HeapLayout.Json

/-! ## Writing -/

def hexChar (d : Nat) : Char :=
  if d < 10 then Char.ofNat ('0'.toNat + d) else Char.ofNat ('a'.toNat + (d - 10))

/-- What a character is written as inside a string. -/
def escape (c : Char) : String :=
  if c = '"' then "\\\""
  else if c = '\\' then "\\\\"
  else if c = '\n' then "\\n"
  else if c = '\t' then "\\t"
  else if c = '\r' then "\\r"
  else if c = '\x08' then "\\b"
  else if c = '\x0c' then "\\f"
  else if c.toNat < 32 then
    "\\u00" ++ String.ofList [hexChar (c.toNat / 16), hexChar (c.toNat % 16)]
  else c.toString

def quote (s : String) : String :=
  "\"" ++ String.join (s.toList.map escape) ++ "\""

/-- A value that has no parts. -/
def atom : Json → String
  | null => "null"
  | bool true => "true"
  | bool false => "false"
  | int v => Numeral.ofInt v
  | real s => s
  | str s => quote s
  | arr _ => "[]"
  | obj _ => "\x7b\x7d"

mutual

def compact : Json → String
  | arr xs => "[" ++ String.intercalate "," (compactItems xs) ++ "]"
  | obj ms => "\x7b" ++ String.intercalate "," (compactMembers ms) ++ "\x7d"
  | j => atom j

def compactItems : List Json → List String
  | [] => []
  | x :: xs => compact x :: compactItems xs

def compactMembers : List (String × Json) → List String
  | [] => []
  | (k, x) :: ms => (quote k ++ ":" ++ compact x) :: compactMembers ms

end

def indentation (depth : Nat) : String :=
  String.ofList (List.replicate (2 * depth) ' ')

/-- Parts on lines of their own, between brackets. -/
def bracketed (depth : Nat) (opening closing : String) (parts : List String) : String :=
  opening ++ "\n" ++ String.intercalate ",\n" (parts.map (indentation (depth + 1) ++ ·)) ++ "\n" ++
    indentation depth ++ closing

mutual

def prettyAt (depth : Nat) : Json → String
  | arr (x :: xs) => bracketed depth "[" "]" (prettyItems (depth + 1) (x :: xs))
  | obj (m :: ms) => bracketed depth "\x7b" "\x7d" (prettyMembers (depth + 1) (m :: ms))
  | j => atom j

def prettyItems (depth : Nat) : List Json → List String
  | [] => []
  | x :: xs => prettyAt depth x :: prettyItems depth xs

def prettyMembers (depth : Nat) : List (String × Json) → List String
  | [] => []
  | (k, x) :: ms => (quote k ++ ": " ++ prettyAt depth x) :: prettyMembers depth ms

end

/-- The value over several lines. -/
def pretty (j : Json) : String :=
  prettyAt 0 j

/-! ## Reading -/

def isSpace (c : Char) : Bool :=
  c == ' ' || c == '\n' || c == '\t' || c == '\r'

def skipSpace (cs : List Char) : List Char :=
  cs.dropWhile isSpace

/-- The code unit of four hexadecimal digits. -/
def unit? (a b c d : Char) : Option Nat :=
  Numeral.readNat? 16 [a, b, c, d]

/-- The character of a surrogate pair. -/
def ofSurrogates (high low : Nat) : Char :=
  Char.ofNat (0x10000 + (high - 0xD800) * 0x400 + (low - 0xDC00))

def simpleEscape? : Char → Option Char
  | '"' => some '"'
  | '\\' => some '\\'
  | '/' => some '/'
  | 'b' => some '\x08'
  | 'f' => some '\x0c'
  | 'n' => some '\n'
  | 'r' => some '\r'
  | 't' => some '\t'
  | _ => none

/-- Reads the rest of a string, whose characters so far are `acc` in reverse. -/
def stringRest? (acc : List Char) : List Char → Option (String × List Char)
  | '"' :: cs => some (String.ofList acc.reverse, cs)
  | '\\' :: 'u' :: a :: b :: c :: d :: '\\' :: 'u' :: e :: f :: g :: h :: cs => do
    let first ← unit? a b c d
    if 0xD800 ≤ first ∧ first < 0xDC00 then
      let second ← unit? e f g h
      if 0xDC00 ≤ second ∧ second < 0xE000 then
        stringRest? (ofSurrogates first second :: acc) cs
      else none
    else if 0xDC00 ≤ first ∧ first < 0xE000 then none
    else stringRest? (Char.ofNat first :: acc) ('\\' :: 'u' :: e :: f :: g :: h :: cs)
  | '\\' :: 'u' :: a :: b :: c :: d :: cs => do
    let first ← unit? a b c d
    if 0xD800 ≤ first ∧ first < 0xE000 then none
    else stringRest? (Char.ofNat first :: acc) cs
  | '\\' :: c :: cs => do stringRest? ((← simpleEscape? c) :: acc) cs
  | c :: cs => if c.toNat < 32 then none else stringRest? (c :: acc) cs
  | [] => none

def isNumeralChar (c : Char) : Bool :=
  ('0' ≤ c && c ≤ '9') || c == '-' || c == '+' || c == '.' || c == 'e' || c == 'E'

/-- Digits without a superfluous zero in front, and the rest. -/
def integerPart? (cs : List Char) : Option (List Char) :=
  match cs.takeWhile Char.isDigit with
  | [] => none
  | '0' :: _ :: _ => none
  | ds => some (cs.drop ds.length)

/-- Whether a text after the integer part is a fraction and an exponent, each of which may be
missing. -/
def isTail (cs : List Char) : Bool :=
  let digitsOnly (ds : List Char) := !ds.isEmpty && ds.all Char.isDigit
  let isExponent : List Char → Bool
    | [] => true
    | e :: '+' :: ds => (e == 'e' || e == 'E') && digitsOnly ds
    | e :: '-' :: ds => (e == 'e' || e == 'E') && digitsOnly ds
    | e :: ds => (e == 'e' || e == 'E') && digitsOnly ds
  match cs with
  | '.' :: ds => !(ds.takeWhile Char.isDigit).isEmpty && isExponent (ds.dropWhile Char.isDigit)
  | cs => isExponent cs

/-- The value of a numeral. A negative zero is not an integer. -/
def numeral? (cs : List Char) : Option Json := do
  let unsigned := match cs with
    | '-' :: ds => ds
    | ds => ds
  let tail ← integerPart? unsigned
  if tail.isEmpty && cs != ['-', '0'] then
    return int (← Numeral.readInt? 10 cs)
  else if isTail tail then
    return real (String.ofList cs)
  else none

mutual

/-- Reads a value and returns what follows it. -/
def value? (cs : List Char) : Option (Json × List Char) :=
  match h : skipSpace cs with
  | 'n' :: 'u' :: 'l' :: 'l' :: rest => some (null, rest)
  | 't' :: 'r' :: 'u' :: 'e' :: rest => some (bool true, rest)
  | 'f' :: 'a' :: 'l' :: 's' :: 'e' :: rest => some (bool false, rest)
  | '"' :: rest => (stringRest? [] rest).map fun r => (str r.1, r.2)
  | '[' :: rest =>
    match skipSpace rest with
    | ']' :: rest' => some (arr [], rest')
    | _ =>
      have : rest.length < cs.length := by
        have := (List.dropWhile_suffix isSpace (l := cs)).length_le
        simp only [skipSpace] at h
        simp only [h, List.length_cons] at this
        omega
      (elements? rest).map fun r => (arr r.1, r.2)
  | '\x7b' :: rest =>
    match skipSpace rest with
    | '\x7d' :: rest' => some (obj [], rest')
    | _ =>
      have : rest.length < cs.length := by
        have := (List.dropWhile_suffix isSpace (l := cs)).length_le
        simp only [skipSpace] at h
        simp only [h, List.length_cons] at this
        omega
      (members? rest).map fun r => (obj r.1, r.2)
  | rest => do
    let text := rest.takeWhile isNumeralChar
    return (← numeral? text, rest.drop text.length)
termination_by (cs.length, 0)

/-- Reads the items of an array up to its closing bracket. -/
def elements? (cs : List Char) : Option (List Json × List Char) := do
  let (x, rest) ← value? cs
  match skipSpace rest with
  | ']' :: rest' => return ([x], rest')
  | ',' :: rest' =>
    if _h : rest'.length < cs.length then
      let (xs, rest'') ← elements? rest'
      return (x :: xs, rest'')
    else none
  | _ => none
termination_by (cs.length, 1)

/-- Reads the members of an object up to its closing brace. -/
def members? (cs : List Char) : Option (List (String × Json) × List Char) := do
  match skipSpace cs with
  | '"' :: afterQuote =>
    let (key, afterKey) ← stringRest? [] afterQuote
    match skipSpace afterKey with
    | ':' :: afterColon =>
      if _h : afterColon.length < cs.length then
        let (x, rest) ← value? afterColon
        match skipSpace rest with
        | '\x7d' :: rest' => return ([(key, x)], rest')
        | ',' :: rest' =>
          if _h : rest'.length < cs.length then
            let (ms, rest'') ← members? rest'
            return ((key, x) :: ms, rest'')
          else none
        | _ => none
      else none
    | _ => none
  | _ => none
termination_by (cs.length, 1)

end

/-- Reads a text that is one value. -/
def parse? (s : String) : Option Json := do
  let (j, rest) ← value? s.toList
  if (skipSpace rest).isEmpty then return j else none

end HeapLayout.Json
