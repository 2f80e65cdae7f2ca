import HeapLayout.Bits
import HeapLayout.Prim

/-!
# Expressions of generated code

Generated code is built as a tree that knows nothing of the languages it is printed in. `Expr.add`,
`Expr.mul` and `Expr.and` build arithmetic and fold constants on the way: constants meet, zero
disappears, and a sum keeps at most one constant, on the right. So the offset of a field that no
run-time count can move comes out as a single constant.

Constants are added and multiplied exactly, unless another arithmetic is asked for. A machine does
it in 64 bits, which makes no difference to constants that stay in their range.
-/

namespace HeapLayout.Code

inductive BinOp where
  | add
  | mul
  | and
  | eq
  deriving DecidableEq, Repr

/-- The two halves of the runtime's undefined value. -/
inductive UndefKind where
  | word
  | type
  deriving DecidableEq, Repr

inductive Callee where
  /-- A generated function. -/
  | generated (name : String)
  /-- The collector's relocation entry point. -/
  | gcForward
  deriving DecidableEq, Repr

inductive Expr where
  | var (name : String)
  | const (value : Int)
  /-- The tag constant of a layout. -/
  | layoutId (name : String)
  | undef (kind : UndefKind)
  | bin (op : BinOp) (lhs rhs : Expr)
  | load (type : Prim) (base offset : Expr)
  | call (callee : Callee) (args : List Expr)
  | alloc (size : Expr) (category : String)
  /-- The heap context. -/
  | context
  deriving Repr, Inhabited

namespace Expr

def const? : Expr → Option Int
  | const v => some v
  | _ => none

/-- The sum of an expression and a constant. -/
def addConst (e : Expr) (v : Int) (A : Arithmetic := .exact) : Expr :=
  match e, v with
  | const a, b => const (A.keep (a + b))
  | bin .add x (const a), b =>
    if b = 0 then bin .add x (const a) else addConst x (A.keep (a + b)) A
  | x, b => if b = 0 then x else bin .add x (const b)

def add (a b : Expr) (A : Arithmetic := .exact) : Expr :=
  match b with
  | const v => addConst a v A
  | b => if a.const? = some 0 then b else bin .add a b

def mul (a b : Expr) (A : Arithmetic := .exact) : Expr :=
  match a, b with
  | const x, const y => const (A.keep (x * y))
  | a, b => bin .mul a b

def and (a b : Expr) : Expr :=
  match a, b with
  | const x, const y => const (bitAnd x y)
  | a, b => bin .and a b

def eq (a b : Expr) : Expr :=
  bin .eq a b

/-- Rounds up to a multiple of a power of two. -/
def alignUp (e : Expr) (unit : Nat) (A : Arithmetic := .exact) : Expr :=
  and (add e (const (A.keep (signed64 unit - 1))) A) (const (A.keep (-signed64 unit)))

/-- A call of a generated function. -/
def invoke (name : String) (args : List Expr) : Expr :=
  call (.generated name) args

/-- A call of the collector's relocation entry point. -/
def gcForward (args : List Expr) : Expr :=
  call .gcForward args

end Expr

end HeapLayout.Code
