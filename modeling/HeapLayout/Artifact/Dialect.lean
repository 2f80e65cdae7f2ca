import HeapLayout.Code.Program
import HeapLayout.Text.Numeral

/-!
# Artifacts and dialects

An artifact is a list of lines, each with a depth of indentation. The shape of a printed function,
which lines it has and how deep they stand, is the same in every target language and is laid down
here once; a `Dialect` says what stands on the lines.
-/

namespace HeapLayout.Artifact

open Code (Expr Stmt Function Decl)

/-! ## Lines -/

structure Line where
  depth : Nat
  text : String
  deriving DecidableEq, Repr

namespace Line

/-- A line that is not indented. -/
def top (text : String) : Line := { depth := 0, text }

def blank : Line := top ""

/-- One step of indentation is four spaces. -/
def render (l : Line) : String :=
  String.ofList (List.replicate (4 * l.depth) ' ') ++ l.text

/-- Lines with a line end between them. -/
def joined (ls : List Line) : String :=
  String.intercalate "\n" (ls.map render)

/-- Lines with a line end after each. -/
def terminated (ls : List Line) : String :=
  String.join (ls.map fun l => l.render ++ "\n")

end Line

/-! ## Dialects -/

/-- What a target language puts on the lines of a program. -/
structure Dialect where
  expr : Expr → String
  bind : String → Prim → Expr → String
  store : Prim → Expr → Expr → Expr → String
  /-- The head of a loop over a counter below a bound. -/
  loop : String → Expr → String
  constant : String → Prim → Int → String
  /-- The head of a function. -/
  signature : Function → String

namespace Dialect

/-- A head and, in braces, deeper lines. -/
def block (depth : Nat) (head : String) (lines : List Line) : List Line :=
  { depth, text := head } :: { depth, text := "\x7b" } :: lines ++ [{ depth, text := "\x7d" }]

mutual

def stmtLines (d : Dialect) (depth : Nat) : Stmt → List Line
  | .bind name type value => [{ depth, text := d.bind name type value }]
  | .store type base offset value => [{ depth, text := d.store type base offset value }]
  | .eval e => [{ depth, text := d.expr e ++ ";" }]
  | .ret (some e) => [{ depth, text := "return " ++ d.expr e ++ ";" }]
  | .ret none => [{ depth, text := "return;" }]
  | .cond test body => block depth ("if (" ++ d.expr test ++ ")") (bodyLines d (depth + 1) body)
  | .loop counter bound body =>
    block depth (d.loop counter bound) (bodyLines d (depth + 1) body)
  | .unreachable message => [{ depth, text := "assert (false, \"" ++ message ++ "\");" }]

def bodyLines (d : Dialect) (depth : Nat) : List Stmt → List Line
  | [] => []
  | s :: ss => stmtLines d depth s ++ bodyLines d depth ss

end

def declLines (d : Dialect) : Decl → List Line
  | .const name type value => [.top (d.constant name type value)]
  | .function f => block 0 (d.signature f) (bodyLines d 1 f.body)

/-- The text of one declaration. -/
def decl (d : Dialect) (c : Decl) : String :=
  Line.joined (d.declLines c)

/-- Declarations, with a blank line after each. -/
def declsLines (d : Dialect) (cs : List Decl) : List Line :=
  cs.flatMap fun c => d.declLines c ++ [.blank]

end Dialect

/-! ## Pieces of all dialects -/

/-- The comment at the start of an artifact. -/
def banner (source : String) : List Line :=
  [.top "//", .top ("// Code auto-generated from \"" ++ source ++ "\". Do not modify."), .top "//",
    .blank]

/-- Texts with commas between them, in parentheses. -/
def parenthesized (texts : List String) : String :=
  "(" ++ String.intercalate ", " texts ++ ")"

end HeapLayout.Artifact
