import HeapLayout.Code.Accessor

/-!
# Dispatch

The size and the visit of an object whose layout is not known statically are found by its tag. A
dispatcher reads the tag, which directly follows the pointer-sized forwarding field in every layout,
and tests it against the tag constant of each layout in turn.
-/

namespace HeapLayout.Code.Dispatch

open Accessor (object objectParam contextParam)

/-- Reads the tag into a local. -/
def readTag (w : PointerWidth) : Stmt :=
  .bind Name.tag Schema.tagType (.load Schema.tagType object (.const w.bytes))

def tagIs (l : Layout) : Expr :=
  .eq (.var Name.tag) (.layoutId l.tagConstant)

/-- Reads the tag and runs the statements of the layout that owns it. -/
def body (w : PointerWidth) (name : String) (arm : Layout → List Stmt) (ls : List Layout) :
    List Stmt :=
  readTag w :: ls.map (fun l => .cond (tagIs l) (arm l)) ++
    [.unreachable ("invalid layout in " ++ name)]

def sizeofArm (l : Layout) : List Stmt :=
  [.ret (some (.invoke (Name.sizeof l.name) [object]))]

def visitGcArm (l : Layout) : List Stmt :=
  [.eval (.invoke (Name.visitGc l.name) [.context, object]), .ret none]

def sizeofFunction (w : PointerWidth) (ls : List Layout) : Function :=
  { name := Name.dispatchSizeof, kind := .dispatchSizeof, result := .prim .uint32,
    params := [objectParam], body := body w Name.dispatchSizeof sizeofArm ls }

def visitGcFunction (w : PointerWidth) (ls : List Layout) : Function :=
  { name := Name.dispatchVisitGc, kind := .dispatchVisitGc, result := .void,
    params := [contextParam, objectParam], body := body w Name.dispatchVisitGc visitGcArm ls }

/-! ## Checking a dispatcher -/

/-- The tag constant that a statement tests for. -/
def arm? : Stmt → Option String
  | .cond (.bin .eq _ (.layoutId name)) _ => some name
  | _ => none

/-- The tag constants that a function tests for, in the order of its branches. -/
def arms (f : Function) : List String :=
  f.body.filterMap arm?

def isUnreachable : Stmt → Bool
  | .unreachable _ => true
  | _ => false

/-- A dispatcher tests for every layout once, in the order of the tags, and then goes nowhere. -/
def check (f : Function) (ls : List Layout) : Except BuildError Unit :=
  let expected := ls.map (·.tagConstant)
  if arms f ≠ expected then .error (.armsDiffer f.name (arms f) expected)
  else if f.body.getLast?.any isUnreachable then .ok ()
  else .error (.fallsThrough f.name)

/-- The two dispatchers of a schema. -/
def functions (w : PointerWidth) (ls : List Layout) : Except BuildError (List Function) := do
  let sizeof := sizeofFunction w ls
  let visitGc := visitGcFunction w ls
  check sizeof ls
  check visitGc ls
  return [sizeof, visitGc]

end HeapLayout.Code.Dispatch

namespace HeapLayout.Code

/-- The declarations of all layouts, in the order of their tags. -/
def layoutsDecls (w : PointerWidth) (ls : List Layout) (A : Arithmetic := .exact) :
    Except BuildError (List Decl) :=
  match ls with
  | [] => .ok []
  | l :: ls => do
    let decls ← Accessor.layoutDecls w l A
    return decls ++ (← layoutsDecls w ls A)

/-- The accessor library of a list of layouts. -/
def Program.ofLayouts (w : PointerWidth) (ls : List Layout) (A : Arithmetic := .exact) :
    Except BuildError Program := do
  let decls ← layoutsDecls w ls A
  let dispatchers ← Dispatch.functions w ls
  return .ofDecls w (decls ++ dispatchers.map .function)

end HeapLayout.Code
