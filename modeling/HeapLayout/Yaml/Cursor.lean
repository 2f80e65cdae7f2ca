/-!
# Positions in a YAML text

A cursor is a position in a text: what remains of it, and the line and the column, on which the
meaning of YAML depends. Columns count characters, while the distance from the start is measured in
bytes. A line ends in a line feed, a carriage return, both, or one of the three Unicode line ends.
`Cursor.iterate` is the one loop that everything is scanned with; it goes on as long as its step
moves forward.
-/

namespace HeapLayout.Yaml

/-! ## Characters -/

/-- The line ends that a reader sees as a line feed. -/
def isOrdinaryBreak (c : Char) : Bool :=
  c == '\n' || c == '\r' || c == '\u0085'

def isBreak (c : Char) : Bool :=
  isOrdinaryBreak c || c == '\u2028' || c == '\u2029'

def isBlank (c : Char) : Bool :=
  c == ' ' || c == '\t'

/-- Whether what remains starts with blank space or a line end, or is empty. -/
def atBlank : List Char → Bool
  | [] => true
  | c :: _ => isBlank c || isBreak c

/-- Letters, digits, underscores and hyphens. -/
def isWordChar (c : Char) : Bool :=
  c.isAlphanum || c == '_' || c == '-'

/-- The characters that may stand in a YAML text at all. -/
def isPrintable (c : Char) : Bool :=
  let n := c.toNat
  n == 0x09 || n == 0x0A || n == 0x0D || (0x20 ≤ n && n ≤ 0x7E) || n == 0x85 ||
    (0xA0 ≤ n && n ≤ 0xD7FF) || (0xE000 ≤ n && n ≤ 0xFFFD) || 0x10000 ≤ n

/-- The length of a text in bytes. -/
def byteLength : List Char → Nat
  | [] => 0
  | c :: cs => c.utf8Size + byteLength cs

/-! ## Cursors -/

structure Cursor where
  /-- The length of the whole text in bytes. -/
  size : Nat
  rest : List Char
  /-- The bytes in front of the cursor. -/
  index : Nat := 0
  line : Nat := 0
  column : Nat := 0

namespace Cursor

def ofList (cs : List Char) : Cursor :=
  { size := byteLength cs, rest := cs }

def remaining (c : Cursor) : Nat :=
  c.size - c.index

/-- Moves over `n` characters of one line. -/
def advance (c : Cursor) (n : Nat := 1) : Cursor :=
  { c with
    rest := c.rest.drop n
    index := c.index + byteLength (c.rest.take n)
    column := c.column + n }

/-- Moves over characters of one line as long as they satisfy a condition. -/
def advanceWhile (c : Cursor) (p : Char → Bool) : Cursor :=
  c.advance (c.rest.takeWhile p).length

/-- Moves to the end of the line. -/
def toLineEnd (c : Cursor) : Cursor :=
  c.advanceWhile (!isBreak ·)

def atLineEnd (c : Cursor) : Bool :=
  c.rest.head?.all isBreak

/-- Moves over a line end of `n` characters. -/
def newLine (c : Cursor) (n : Nat) : Cursor :=
  { c with
    rest := c.rest.drop n
    index := c.index + byteLength (c.rest.take n)
    line := c.line + 1
    column := 0 }

/-- The line end at the cursor, as a reader sees it, and the start of the next line. -/
def lineEnd? (c : Cursor) : Option (Char × Cursor) :=
  match c.rest with
  | '\r' :: '\n' :: _ => some ('\n', c.newLine 2)
  | x :: _ =>
    if isOrdinaryBreak x then some ('\n', c.newLine 1)
    else if isBreak x then some (x, c.newLine 1)
    else none
  | [] => none

/-- Moves over a line end, if there is one. -/
def skipLineEnd (c : Cursor) : Cursor :=
  match c.lineEnd? with
  | some (_, d) => d
  | none => c

/-- Whether a marker of the start or the end of a document stands here. -/
def atDocumentMarker (c : Cursor) : Bool :=
  c.column == 0 &&
    match c.rest with
    | '-' :: '-' :: '-' :: rest => atBlank rest
    | '.' :: '.' :: '.' :: rest => atBlank rest
    | _ => false

/-! ## The loop -/

/-- What a step of a loop makes of its state. -/
inductive Step (σ α : Type) where
  | next (state : σ) (cursor : Cursor)
  | done (result : α)
  | fail

/-- Repeats a step until it is done or fails. A step that does not move forward fails too. -/
def iterate {σ α : Type} (step : σ → Cursor → Step σ α) (state : σ) (c : Cursor) : Option α :=
  match step state c with
  | .done a => some a
  | .fail => none
  | .next state' c' =>
    if _h : c'.remaining < c.remaining then iterate step state' c' else none
termination_by c.remaining

end Cursor

end HeapLayout.Yaml
