import HeapLayout.Code.Expr

/-!
# Statements, functions, programs

A program is a list of declarations: tag constants and functions. Loops count from zero up to a
bound that is evaluated in front of them.
-/

namespace HeapLayout.Code

/-! ## Statements -/

inductive Stmt where
  | bind (name : String) (type : Prim) (value : Expr)
  | store (type : Prim) (base offset value : Expr)
  | eval (expr : Expr)
  | ret (value : Option Expr)
  | cond (test : Expr) (body : List Stmt)
  /-- Runs the body for every counter below the bound. -/
  | loop (counter : String) (bound : Expr) (body : List Stmt)
  /-- Control never gets here. -/
  | unreachable (message : String)
  deriving Repr, Inhabited

/-! ## Functions -/

/-- The type of a parameter or of a result. -/
inductive ValueType where
  | prim (type : Prim)
  /-- The heap context of allocators and collector entry points. -/
  | context
  | void
  deriving DecidableEq, Repr

structure Param where
  name : String
  type : ValueType
  deriving DecidableEq, Repr

/-- What a function computes. -/
inductive FunctionKind where
  | offset (layout field : String)
  | get (layout field : String)
  | set (layout field : String)
  | compSize (layout : String)
  | sizeof (layout : String)
  | alloc (layout : String)
  | visitGc (layout : String)
  | dispatchSizeof
  | dispatchVisitGc
  deriving DecidableEq, Repr

structure Function where
  name : String
  kind : FunctionKind
  result : ValueType
  params : List Param
  body : List Stmt
  deriving Repr

/-! ## Programs -/

inductive Decl where
  | const (name : String) (type : Prim) (value : Int)
  | function (f : Function)
  deriving Repr

def Decl.name : Decl → String
  | const name _ _ => name
  | function f => f.name

def Decl.function? : Decl → Option Function
  | const _ _ _ => none
  | function f => some f

structure Program where
  version : Nat
  /-- The pointer width that the offsets were computed for, in bytes. -/
  pointerBytes : Nat
  decls : List Decl
  deriving Repr

namespace Program

/-- The version of the exported form. -/
def currentVersion : Nat := 1

def ofDecls (w : PointerWidth) (decls : List Decl) : Program :=
  { version := currentVersion, pointerBytes := w.bytes, decls }

def functions (p : Program) : List Function :=
  p.decls.filterMap Decl.function?

/-- The first function of a given name. -/
def function? (p : Program) (name : String) : Option Function :=
  p.functions.find? fun f => f.name == name

end Program

end HeapLayout.Code
