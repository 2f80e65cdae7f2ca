import HeapLayout.Text.Numeral
import HeapLayout.Yaml.Cursor

/-!
# Scalars in YAML text

A scalar is written plainly, in quotes of either kind, or as a block. Text that goes on over several
lines is folded: a single line end becomes a space, and of several line ends the first is dropped.
-/

namespace HeapLayout.Yaml.Scalar

open Cursor (Step)

/-! ## Folding -/

/-- The white space between two words of a scalar, in reverse. -/
structure Gap where
  spaces : List Char := []
  breaks : List Char := []
  /-- Whether the gap starts with a line end that was escaped. -/
  escaped : Bool := false

namespace Gap

/-- Whether the gap goes over a line end. -/
def crossesLine (g : Gap) : Bool :=
  g.escaped || !g.breaks.isEmpty

/-- What the gap stands for. -/
def fold (g : Gap) : List Char :=
  if g.escaped then g.breaks.reverse
  else
    match g.breaks.reverse with
    | [] => g.spaces.reverse
    | '\n' :: [] => [' ']
    | '\n' :: more => more
    | all => all

/-- One step over a blank or a line end. Past a line end, a tab must not stand left of
`indent`. -/
def step (indent : Nat) (g : Gap) (c : Cursor) : Step Gap (Gap × Cursor) :=
  match c.rest with
  | ' ' :: _ => .next (if g.crossesLine then g else { g with spaces := ' ' :: g.spaces }) c.advance
  | '\t' :: _ =>
    if g.crossesLine then
      if c.column < indent then .fail else .next g c.advance
    else .next { g with spaces := '\t' :: g.spaces } c.advance
  | _ =>
    match c.lineEnd? with
    | some (b, d) => .next { g with breaks := b :: g.breaks } d
    | none => .done (g, c)

def scan? (indent : Nat) (g : Gap) (c : Cursor) : Option (Gap × Cursor) :=
  Cursor.iterate (step indent) g c

end Gap

/-! ## Plain scalars -/

/-- The indicators that end a plain scalar in a flow collection. -/
def isFlowIndicator (c : Char) : Bool :=
  c == ',' || c == '[' || c == ']' || c == '\x7b' || c == '\x7d'

/-- The first word of a text. A colon ends it if blank space follows; in a flow collection a colon
must not stand in front of an indicator. -/
def plainWord? (inFlow : Bool) : List Char → Option (List Char)
  | [] => some []
  | ':' :: cs =>
    if inFlow && cs.head?.any (fun d => isFlowIndicator d || d == '?') then none
    else if atBlank cs then some []
    else (plainWord? inFlow cs).map (':' :: ·)
  | c :: cs =>
    if isBlank c || isBreak c || (inFlow && isFlowIndicator c) then some []
    else (plainWord? inFlow cs).map (c :: ·)

structure PlainState where
  /-- The text so far, in reverse. -/
  text : List Char := []
  gap : Gap := {}

/-- A scanned plain scalar. -/
structure Plain where
  text : String
  /-- Whether it ends with a line. -/
  endsLine : Bool
  cursor : Cursor

/-- One step over a word and the gap behind it. Lines that go on must be indented by `indent`,
unless the scalar stands in a flow collection. -/
def plainStep (inFlow : Bool) (indent : Nat) (s : PlainState) (c : Cursor) :
    Step PlainState Plain :=
  let finish (s : PlainState) (c : Cursor) : Step PlainState Plain :=
    .done { text := String.ofList s.text.reverse, endsLine := s.gap.crossesLine, cursor := c }
  if c.atDocumentMarker || c.rest.head? == some '#' then finish s c
  else
    match plainWord? inFlow c.rest with
    | none => .fail
    | some word =>
      let s := if word.isEmpty then s
        else { text := word.reverse ++ s.gap.fold.reverse ++ s.text, gap := {} }
      let c := c.advance word.length
      if c.rest.isEmpty || !atBlank c.rest then finish s c
      else
        match Gap.scan? indent s.gap c with
        | none => .fail
        | some (gap, c) =>
          let s := { s with gap }
          if !inFlow && c.column < indent then finish s c else .next s c

def plain? (inFlow : Bool) (indent : Nat) (c : Cursor) : Option Plain :=
  Cursor.iterate (plainStep inFlow indent) {} c

/-! ## Quoted scalars -/

/-- The escapes of one character. -/
def simpleEscape? : Char → Option Char
  | '0' => some '\x00'
  | 'a' => some '\x07'
  | 'b' => some '\x08'
  | 't' => some '\t'
  | '\t' => some '\t'
  | 'n' => some '\n'
  | 'v' => some '\x0b'
  | 'f' => some '\x0c'
  | 'r' => some '\r'
  | 'e' => some '\x1b'
  | ' ' => some ' '
  | '"' => some '"'
  | '/' => some '/'
  | '\\' => some '\\'
  | 'N' => some '\u0085'
  | '_' => some '\u00a0'
  | 'L' => some '\u2028'
  | 'P' => some '\u2029'
  | _ => none

/-- The number of hexadecimal digits that follow an escape. -/
def escapeLength? : Char → Option Nat
  | 'x' => some 2
  | 'u' => some 4
  | 'U' => some 8
  | _ => none

/-- The character of a code point, which must not be a surrogate. -/
def codePoint? (n : Nat) : Option Char :=
  if n.isValidChar then some (Char.ofNat n) else none

/-- The character that an escape behind a backslash stands for, and the length of the escape. -/
def escape? : List Char → Option (Char × Nat)
  | [] => none
  | c :: cs =>
    match simpleEscape? c with
    | some x => some (x, 1)
    | none => do
      let n ← escapeLength? c
      let digits := cs.take n
      if digits.length = n then
        return (← codePoint? (← Numeral.readNat? 16 digits), n + 1)
      else none

/-- What ends a run of characters without white space in a quoted scalar. -/
inductive RunEnd where
  | quote
  | gap (escaped : Bool)

/-- One step over a character or an escape. -/
def runStep (single : Bool) (text : List Char) (c : Cursor) :
    Step (List Char) (RunEnd × List Char × Cursor) :=
  match single, c.rest with
  | _, [] => .fail
  | true, '\'' :: '\'' :: _ => .next ('\'' :: text) (c.advance 2)
  | true, '\'' :: _ => .done (.quote, text, c.advance)
  | false, '"' :: _ => .done (.quote, text, c.advance)
  | false, '\\' :: rest =>
    if rest.head?.any isBreak then .done (.gap true, text, c.advance.skipLineEnd)
    else
      match escape? rest with
      | some (x, n) => .next (x :: text) (c.advance (n + 1))
      | none => .fail
  | _, x :: _ =>
    if isBlank x || isBreak x then .done (.gap false, text, c) else .next (x :: text) c.advance

/-- One step over a run of characters and the gap behind it. -/
def quotedStep (single : Bool) (text : List Char) (c : Cursor) :
    Step (List Char) (String × Cursor) :=
  if c.atDocumentMarker then .fail
  else
    match Cursor.iterate (runStep single) text c with
    | none => .fail
    | some (.quote, text, c) => .done (String.ofList text.reverse, c)
    | some (.gap escaped, text, c) =>
      match Gap.scan? 0 { escaped } c with
      | none => .fail
      | some (gap, c) => .next (gap.fold.reverse ++ text) c

/-- Scans a quoted scalar from behind its opening quote. -/
def quoted? (single : Bool) (c : Cursor) : Option (String × Cursor) :=
  Cursor.iterate (quotedStep single) [] c

/-! ## Block scalars -/

/-- What becomes of the line ends behind the last line. -/
inductive Chomping where
  | strip
  | clip
  | keep

/-- The indicators in the head of a block scalar: chomping and indentation, in either order. -/
def blockIndicators? (c : Cursor) : Option (Chomping × Nat × Cursor) :=
  let chomping : Char → Option Chomping
    | '+' => some .keep
    | '-' => some .strip
    | _ => none
  let indent? (d : Char) : Option Nat := if d = '0' then none else Numeral.digitValue? 10 d
  match c.rest with
  | x :: y :: _ =>
    match chomping x with
    | some ch => if y.isDigit then return (ch, ← indent? y, c.advance 2) else some (ch, 0, c.advance)
    | none =>
      if x.isDigit then do
        let n ← indent? x
        match chomping y with
        | some ch => return (ch, n, c.advance 2)
        | none => return (.clip, n, c.advance)
      else some (.clip, 0, c)
  | [x] =>
    match chomping x with
    | some ch => some (ch, 0, c.advance)
    | none => if x.isDigit then return (.clip, ← indent? x, c.advance) else some (.clip, 0, c)
  | [] => some (.clip, 0, c)

/-- Moves over blank space and a comment up to the end of the line, and over that. -/
def skipHeadLine? (c : Cursor) : Option Cursor :=
  let c := c.advanceWhile isBlank
  let c := if c.rest.head? == some '#' then c.toLineEnd else c
  if c.atLineEnd then some c.skipLineEnd else none

structure BreaksState where
  /-- The line ends so far, in reverse. -/
  breaks : List Char := []
  maxColumn : Nat := 0

/-- One step over the indentation of an empty line. An indentation of zero is not known yet. -/
def breaksStep (indent : Nat) (s : BreaksState) (c : Cursor) :
    Step BreaksState (BreaksState × Cursor) :=
  let spaces := (c.rest.takeWhile (· == ' ')).length
  let c := c.advance (if indent = 0 then spaces else min spaces (indent - c.column))
  let s := { s with maxColumn := max s.maxColumn c.column }
  if (indent = 0 ∨ c.column < indent) ∧ c.rest.head? = some '\t' then .fail
  else
    match c.lineEnd? with
    | some (b, d) => .next { s with breaks := b :: s.breaks } d
    | none => .done (s, c)

structure BlockState where
  /-- The text so far, in reverse. -/
  text : List Char := []
  /-- The end of the last line. -/
  lineEnd : Option Char := none
  /-- The line ends behind it, in reverse. -/
  breaks : List Char
  /-- Whether the last line starts with blank space. -/
  startsBlank : Bool := false

/-- What stands between the last line and the next. -/
def BlockState.join (s : BlockState) (literal startsBlank : Bool) : List Char :=
  if !literal && s.lineEnd == some '\n' && !s.startsBlank && !startsBlank then
    if s.breaks.isEmpty then [' '] else s.breaks.reverse
  else s.lineEnd.toList ++ s.breaks.reverse

/-- The whole text, with the line ends behind the last line as `chomping` says. -/
def BlockState.chomp (s : BlockState) : Chomping → String
  | .strip => String.ofList s.text.reverse
  | .clip => String.ofList (s.text.reverse ++ s.lineEnd.toList)
  | .keep => String.ofList (s.text.reverse ++ s.lineEnd.toList ++ s.breaks.reverse)

/-- One step over a line. -/
def blockStep (literal : Bool) (indent : Nat) (chomping : Chomping) (s : BlockState) (c : Cursor) :
    Step BlockState (String × Cursor) :=
  if c.column ≠ indent ∨ c.rest.isEmpty then .done (s.chomp chomping, c)
  else
    let startsBlank := c.rest.head?.any isBlank
    let line := c.rest.takeWhile (!isBreak ·)
    let d := c.advance line.length
    let text := line.reverse ++ (s.join literal startsBlank).reverse ++ s.text
    match Cursor.iterate (breaksStep indent) {} d.skipLineEnd with
    | none => .fail
    | some (b, e) =>
      .next { text, lineEnd := d.lineEnd?.map (·.1), breaks := b.breaks, startsBlank } e

/-- Scans a block scalar from behind its indicator. `parent` is the indentation around it, counted
from one. -/
def block? (literal : Bool) (parent : Nat) (c : Cursor) : Option (String × Cursor) := do
  let (chomping, increment, c) ← blockIndicators? c
  let c ← skipHeadLine? c
  let given := if increment = 0 then 0 else (parent - 1) + increment
  let (b, c) ← Cursor.iterate (breaksStep given) {} c
  let indent := if given = 0 then max (max b.maxColumn parent) 1 else given
  Cursor.iterate (blockStep literal indent chomping) { breaks := b.breaks } c

end HeapLayout.Yaml.Scalar
