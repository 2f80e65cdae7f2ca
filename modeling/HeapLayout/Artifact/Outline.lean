import HeapLayout.Artifact
import HeapLayout.Text.Lines

/-!
# Outlines

An artifact can be read back without knowing its language well. Definitions begin on lines that are
not indented, with a keyword; the rest of such a line holds a name and a value, or a name and
parameters. What is read are the constants with their values, the functions with their parameters,
and how deep the lines of every function stand (`Surface.read?`).

The same can be said of a program as a tree (`outline`). Context parameters are left out there, as
they are in one of the languages.
-/

namespace HeapLayout.Artifact

open Code (Stmt Decl Program)

/-- What can be seen of a definition. -/
inductive Definition where
  | const (name : String) (value : Int)
  /-- A function, with the number of blanks in front of each line of its body. -/
  | function (name : String) (params : List String) (indentation : List Nat)
  deriving DecidableEq, Repr

/-! ## Outlines of programs -/

mutual

/-- The indentation of a statement's lines; the braces of a block have lines of their own. -/
def stmtIndentation (depth : Nat) : Stmt → List Nat
  | .cond _ body | .loop _ _ body =>
    4 * depth :: 4 * depth :: bodyIndentation (depth + 1) body ++ [4 * depth]
  | _ => [4 * depth]

def bodyIndentation (depth : Nat) : List Stmt → List Nat
  | [] => []
  | s :: ss => stmtIndentation depth s ++ bodyIndentation depth ss

end

def Definition.ofDecl : Decl → Definition
  | .const name _ value => .const name value
  | .function f =>
    .function f.name ((f.params.filter fun q => q.type != .context).map (·.name))
      (bodyIndentation 1 f.body)

def outline (p : Program) : List Definition :=
  p.decls.map .ofDecl

/-! ## Reading texts -/

/-- What follows a text at the start of another. -/
def after? : List Char → List Char → Option (List Char)
  | [], cs => some cs
  | _ :: _, [] => none
  | p :: ps, c :: cs => if p = c then after? ps cs else none

/-- What stands in front of the first occurrence of a character, and what stands behind it. -/
def cut? (c : Char) : List Char → Option (List Char × List Char)
  | [] => none
  | d :: ds => if d = c then some ([], ds) else (cut? c ds).map fun r => (d :: r.1, r.2)

/-- How definitions are written in a language. -/
structure Surface where
  constKeyword : String
  functionKeyword : String
  /-- Whether a type stands in front of every name that is introduced. -/
  typed : Bool
  /-- What stands in front of every name of a definition. -/
  qualifier : String

def D.surface : Surface :=
  { constKeyword := "const ", functionKeyword := "extern (C) ", typed := true, qualifier := "" }

def JS.surface : Surface :=
  { constKeyword := "var ", functionKeyword := "function ", typed := false, qualifier := "$rt_" }

namespace Surface

variable (s : Surface)

/-- The type in front of a name, if there is one, and the rest. -/
def type? (cs : List Char) : Option (List Char × List Char) :=
  if s.typed then cut? ' ' cs else some ([], cs)

/-- What follows the type and the qualifier of a name. -/
def name? (cs : List Char) : Option (List Char) := do
  let (_, cs) ← s.type? cs
  after? s.qualifier.toList cs

/-- Reads a constant. -/
def const? (line : String) : Option Definition := do
  let cs ← s.name? (← after? s.constKeyword.toList line.toList)
  let (name, cs) ← cut? ' ' cs
  let (value, cs) ← cut? ';' (← after? ['=', ' '] cs)
  if cs.isEmpty then return .const (.ofList name) (← Numeral.readInt? 10 value) else none

/-- The names of parameters between commas. A context is left out. -/
def params? (cs : List Char) : Option (List String) := do
  let pieces := (cs.splitOn ',').map fun piece => piece.dropWhile (· == ' ')
  let params ← (pieces.filter (!·.isEmpty)).mapM s.type?
  return (params.filter fun q => q.1 != ['V', 'M']).map fun q => .ofList q.2

/-- The lines between the braces that stand behind the head of a function. -/
def body? : List String → Option (List String)
  | [] => none
  | line :: lines =>
    if line = "\x7b" then some (lines.takeWhile (· != "\x7d")) else none

def indentation (line : String) : Nat :=
  (line.toList.takeWhile (· == ' ')).length

/-- Reads a function, whose body is on further lines. -/
def function? (line : String) (lines : List String) : Option Definition := do
  let cs ← s.name? (← after? s.functionKeyword.toList line.toList)
  let (name, cs) ← cut? '(' cs
  let (params, cs) ← cut? ')' cs
  if cs.isEmpty then
    return .function (.ofList name) (← s.params? params) ((← body? lines).map indentation)
  else none

/-- Whether a definition begins on a line. -/
def begins (line : String) : Bool :=
  s.constKeyword.toList.isPrefixOf line.toList || s.functionKeyword.toList.isPrefixOf line.toList

/-- The definitions on a list of lines, if each can be read. -/
def readLines? : List String → Option (List Definition)
  | [] => some []
  | line :: lines =>
    if s.begins line then do
      let definition ← s.const? line <|> s.function? line lines
      return definition :: (← readLines? lines)
    else readLines? lines

/-- The definitions in a text. -/
def read? (text : String) : Option (List Definition) :=
  s.readLines? (Lines.ofString text)

end Surface

end HeapLayout.Artifact
