import HeapLayout.Yaml.Token.Property
import HeapLayout.Yaml.Token.Scalar

/-!
# From YAML text to tokens

The lexer keeps the columns of the open block collections. A token further left closes the deeper
ones, and an item or a key further right opens a new one.

Whether a scalar is a key shows only at the colon behind it. So for each level of nesting the lexer
remembers the last token that may turn out to start a key, and at a colon it puts the announcement
of the key, and perhaps the start of a mapping, in front of that token. Such a key stays on one line
and is not longer than 1024 bytes.
-/

namespace HeapLayout.Yaml

/-- A token that may turn out to start a key. -/
structure KeyCandidate where
  /-- Its position among all tokens. -/
  token : Nat
  index : Nat
  line : Nat
  column : Nat
  /-- Whether nothing but a key can stand there. -/
  required : Bool

structure Lexer where
  cursor : Cursor
  tokens : Array Token := #[]
  /-- The columns of the open block collections counted from one, the innermost first. -/
  columns : List Nat := []
  /-- The candidate in the block around all flow collections. -/
  blockCandidate : Option KeyCandidate := none
  /-- The candidates of the open flow collections, the innermost first. -/
  flowCandidates : List (Option KeyCandidate) := []
  /-- Whether a key may start here. -/
  keyAllowed : Bool := true

namespace Lexer

/-! ## Parts -/

def inFlow (l : Lexer) : Bool :=
  !l.flowCandidates.isEmpty

/-- The column of the innermost block collection counted from one, zero if there is none. -/
def indent (l : Lexer) : Nat :=
  l.columns.headD 0

def push (l : Lexer) (t : Token) : Lexer :=
  { l with tokens := l.tokens.push t }

def insert (l : Lexer) (position : Nat) (t : Token) : Lexer :=
  { l with tokens := l.tokens.insertIdxIfInBounds position t }

def advance (l : Lexer) (n : Nat := 1) : Lexer :=
  { l with cursor := l.cursor.advance n }

def allowKey (l : Lexer) (allowed : Bool) : Lexer :=
  { l with keyAllowed := allowed }

/-! ## Block collections -/

/-- Opens a block collection at a column, unless one is open there already. The token that starts
it goes to `position`. -/
def openBlock (l : Lexer) (column position : Nat) (start : Token) : Lexer :=
  if l.inFlow || column + 1 ≤ l.indent then l
  else { l.insert position start with columns := (column + 1) :: l.columns }

/-- Closes the block collections that lie deeper than a column counted from one. -/
def closeBlocks (l : Lexer) (column : Nat) : Lexer :=
  if l.inFlow then l
  else
    let closed := (l.columns.takeWhile (column < ·)).length
    { l with
      tokens := l.tokens ++ Array.replicate closed Token.blockEnd
      columns := l.columns.drop closed }

/-! ## Candidates for keys -/

/-- The innermost candidate. -/
def candidate (l : Lexer) : Option KeyCandidate :=
  match l.flowCandidates with
  | [] => l.blockCandidate
  | k :: _ => k

def setCandidate (l : Lexer) (k : Option KeyCandidate) : Lexer :=
  match l.flowCandidates with
  | [] => { l with blockCandidate := k }
  | _ :: ks => { l with flowCandidates := k :: ks }

/-- Forgets the innermost candidate, which must not be required. -/
def dropCandidate? (l : Lexer) : Option Lexer :=
  if l.candidate.any (·.required) then none else some (l.setCandidate none)

/-- Remembers the next token as a candidate, if a key may start here. -/
def saveCandidate? (l : Lexer) : Option Lexer :=
  if !l.keyAllowed then some l
  else do
    let l ← l.dropCandidate?
    let c := l.cursor
    let k : KeyCandidate :=
      { token := l.tokens.size, index := c.index, line := c.line, column := c.column
        required := !l.inFlow && l.indent == c.column + 1 }
    return l.setCandidate (some k)

/-- Whether the cursor has gone too far for a candidate to become a key. -/
def isStale (c : Cursor) (k : KeyCandidate) : Bool :=
  k.line < c.line || k.index + 1024 < c.index

/-- Forgets a candidate that has become too old. -/
def fresh (c : Cursor) (k : Option KeyCandidate) : Option KeyCandidate :=
  k.filter (!isStale c ·)

/-- Forgets the candidates that have become too old. The one of the block must not be required. Of
those in flow collections only the innermost matters now; age does not leave the others. -/
def dropStale? (l : Lexer) : Option Lexer :=
  if l.blockCandidate.any fun k => k.required && isStale l.cursor k then none
  else
    some { l with
      blockCandidate := fresh l.cursor l.blockCandidate
      flowCandidates := l.flowCandidates.modifyHead (fresh l.cursor) }

/-! ## White space -/

/-- One step over the white space of a line, which may start with a byte order mark, and its end. -/
def spaceStep (l : Lexer) (c : Cursor) : Cursor.Step Lexer Lexer :=
  let tabs := l.inFlow || !l.keyAllowed
  let c := if c.column == 0 && c.rest.head? == some '\uFEFF' then c.advance else c
  let c := c.advanceWhile fun x => x == ' ' || (tabs && x == '\t')
  let c := if c.rest.head? == some '#' then c.toLineEnd else c
  match c.lineEnd? with
  | some (_, d) => .next { l with keyAllowed := l.keyAllowed || !l.inFlow } d
  | none => .done { l with cursor := c }

/-- Moves over blank space, comments and line ends. A tab is blank only where no key may start. -/
def skipSpace? (l : Lexer) : Option Lexer :=
  Cursor.iterate spaceStep l l.cursor

/-! ## Tokens -/

/-- Closes everything in front of a token that ends a document or its head. -/
def leaveBlocks? (l : Lexer) : Option Lexer := do
  return (← (l.closeBlocks 0).dropCandidate?).allowKey false

def directive? (l : Lexer) : Option Lexer := do
  let l ← l.leaveBlocks?
  let (t, c) ← Property.directive? l.cursor.advance
  return { l with cursor := c }.push t

def documentMarker? (l : Lexer) (t : Token) : Option Lexer := do
  return ((← l.leaveBlocks?).push t).advance 3

def openFlow? (l : Lexer) (t : Token) : Option Lexer := do
  let l ← l.saveCandidate?
  return ({ l with flowCandidates := none :: l.flowCandidates, keyAllowed := true }.push t).advance

def closeFlow? (l : Lexer) (t : Token) : Option Lexer := do
  let l ← l.dropCandidate?
  return ({ l with flowCandidates := l.flowCandidates.drop 1, keyAllowed := false }.push t).advance

def flowEntry? (l : Lexer) : Option Lexer := do
  return (((← l.dropCandidate?).allowKey true).push .flowEntry).advance

/-- A token that starts or continues a block collection at the cursor; outside flow collections it
may stand only where a key may start. -/
def blockIndicator? (l : Lexer) (start t : Token) (keyAfter : Bool) : Option Lexer := do
  if !l.inFlow && !l.keyAllowed then none
  else
    let l ← (l.openBlock l.cursor.column l.tokens.size start).dropCandidate?
    return ((l.allowKey keyAfter).push t).advance

def blockEntry? (l : Lexer) : Option Lexer :=
  l.blockIndicator? .blockSequenceStart .blockEntry true

def key? (l : Lexer) : Option Lexer :=
  l.blockIndicator? .blockMappingStart .key !l.inFlow

/-- A colon makes a key of the innermost candidate. Without one it stands for itself. -/
def value? (l : Lexer) : Option Lexer :=
  match l.candidate with
  | some k =>
    let l := (l.insert k.token .key).openBlock k.column k.token .blockMappingStart
    some (((l.setCandidate none).allowKey false).push .value).advance
  | none =>
    if !l.inFlow && !l.keyAllowed then none
    else
      let l := l.openBlock l.cursor.column l.tokens.size .blockMappingStart
      some ((l.allowKey !l.inFlow).push .value).advance

/-- A token that may start a key and is scanned by `scan?`. -/
def property? (l : Lexer) (scan? : Cursor → Option (Token × Cursor)) : Option Lexer := do
  let l ← l.saveCandidate?
  let (t, c) ← scan? l.cursor
  return ({ l with cursor := c }.allowKey false).push t

def quoted? (l : Lexer) (single : Bool) : Option Lexer :=
  l.property? fun c => (Scalar.quoted? single c.advance).map fun s => (.scalar s.1 false, s.2)

def block? (l : Lexer) (literal : Bool) : Option Lexer := do
  let l ← l.dropCandidate?
  let (text, c) ← Scalar.block? literal l.indent l.cursor.advance
  return ({ l with cursor := c }.allowKey true).push (.scalar text false)

/-- The characters that cannot start a plain scalar. -/
def isIndicator (c : Char) : Bool :=
  ['-', '?', ':', ',', '[', ']', '\x7b', '\x7d', '#', '&', '*', '!', '|', '>', '\'', '"', '%', '@',
    '\x60'].contains c

/-- Whether a plain scalar starts here. A hyphen, a question mark or a colon may start one in front
of a character that is not blank. -/
def startsPlain (inFlow : Bool) : List Char → Bool
  | [] => false
  | '-' :: rest => !rest.head?.any isBlank
  | x :: rest => (!isBlank x && !isBreak x && !isIndicator x) ||
      (!inFlow && (x == '?' || x == ':') && !atBlank rest)

/-- A plain scalar. A key may start behind it if it ends with a line. -/
def plain? (l : Lexer) : Option Lexer :=
  if startsPlain l.inFlow l.cursor.rest then do
    let l ← l.saveCandidate?
    let s ← Scalar.plain? l.inFlow l.indent l.cursor
    return ({ l with cursor := s.cursor }.allowKey s.endsLine).push (.scalar s.text true)
  else none

/-- Scans the token at the cursor. -/
def token? (l : Lexer) : Option Lexer :=
  let c := l.cursor
  if c.column == 0 && c.rest.head? == some '%' then l.directive?
  else if c.atDocumentMarker then
    l.documentMarker? (if c.rest.head? == some '-' then .documentStart else .documentEnd)
  else
    match c.rest with
    | '[' :: _ => l.openFlow? .flowSequenceStart
    | '\x7b' :: _ => l.openFlow? .flowMappingStart
    | ']' :: _ => l.closeFlow? .flowSequenceEnd
    | '\x7d' :: _ => l.closeFlow? .flowMappingEnd
    | ',' :: _ => l.flowEntry?
    | '-' :: rest => if atBlank rest then l.blockEntry? else l.plain?
    | '?' :: rest => if l.inFlow || atBlank rest then l.key? else l.plain?
    | ':' :: rest => if l.inFlow || atBlank rest then l.value? else l.plain?
    | '*' :: _ => l.property? fun c => (Property.name? c.advance).map fun n => (.reference n.1, n.2)
    | '&' :: _ => l.property? fun c => (Property.name? c.advance).map fun n => (.anchor n.1, n.2)
    | '!' :: _ => l.property? (Property.tag? l.inFlow)
    | '|' :: _ => if l.inFlow then none else l.block? true
    | '>' :: _ => if l.inFlow then none else l.block? false
    | '\'' :: _ => l.quoted? true
    | '"' :: _ => l.quoted? false
    | _ => l.plain?

/-- Moves to the next token and closes the block collections that end in front of it. -/
def toToken? (l : Lexer) : Option Lexer := do
  let l ← (← l.skipSpace?).dropStale?
  return l.closeBlocks (l.cursor.column + 1)

/-- Closes everything at the end of the text. -/
def finish? (l : Lexer) : Option (Array Token) := do
  return (← (l.closeBlocks 0).dropCandidate?).tokens

def step (l : Lexer) (_ : Cursor) : Cursor.Step Lexer (Array Token) :=
  match l.toToken? with
  | none => .fail
  | some l =>
    if l.cursor.rest.isEmpty then
      match l.finish? with
      | some ts => .done ts
      | none => .fail
    else
      match l.token? with
      | some l => .next l l.cursor
      | none => .fail

end Lexer

/-- The tokens of a text. -/
def Token.scan? (text : String) : Option (Array Token) :=
  let cs := text.toList
  if cs.all isPrintable then
    let c := Cursor.ofList cs
    Cursor.iterate Lexer.step { cursor := c } c
  else none

end HeapLayout.Yaml
