import HeapLayout.Code.Program
import HeapLayout.Json.Schema

/-!
# Programs as JSON

Every node of a program is an object in which one member says what kind of node it is: `op` in
expressions, `stmt` in statements, `decl` in declarations, `kind` in kinds of functions and
`callee` in callees. That member is written first.
-/

namespace HeapLayout.Code

/-! ## Expressions -/

def BinOp.text : BinOp → String
  | add => "add"
  | mul => "mul"
  | and => "and"
  | eq => "eq"

def BinOp.ofText? : String → Option BinOp
  | "add" => some add
  | "mul" => some mul
  | "and" => some and
  | "eq" => some eq
  | _ => none

def UndefKind.text : UndefKind → String
  | word => "word"
  | type => "type"

def UndefKind.ofText? : String → Option UndefKind
  | "word" => some word
  | "type" => some type
  | _ => none

def Callee.toJson : Callee → Json
  | generated name => .obj [("callee", .str "generated"), ("name", .str name)]
  | gcForward => .obj [("callee", .str "gc-forward")]

def Callee.ofJson? (j : Json) : Option Callee := do
  match ← j.get? "callee" Json.str? with
  | "generated" => return generated (← j.get? "name" Json.str?)
  | "gc-forward" =>
    match j.member? "name" with
    | none | some .null => return gcForward
    | some _ => none
  | _ => none

mutual

def Expr.toJson : Expr → Json
  | .var name => .obj [("op", .str "var"), ("name", .str name)]
  | .const v => .obj [("op", .str "const"), ("value", .int v)]
  | .layoutId name => .obj [("op", .str "layout-id"), ("name", .str name)]
  | .undef kind => .obj [("op", .str "undef"), ("kind", .str kind.text)]
  | .bin op lhs rhs =>
    .obj [("op", .str "bin"), ("bin", .str op.text), ("lhs", lhs.toJson), ("rhs", rhs.toJson)]
  | .load type base offset =>
    .obj [("op", .str "load"), ("ty", type.toJson), ("base", base.toJson),
      ("offset", offset.toJson)]
  | .call callee args =>
    .obj [("op", .str "call"), ("callee", callee.toJson), ("args", .arr (Expr.listToJson args))]
  | .alloc size category =>
    .obj [("op", .str "alloc"), ("size", size.toJson), ("category", .str category)]
  | .context => .obj [("op", .str "context")]

def Expr.listToJson : List Expr → List Json
  | [] => []
  | e :: es => e.toJson :: Expr.listToJson es

end

mutual

def Expr.ofJson? (j : Json) : Option Expr := do
  match ← j.get? "op" Json.str? with
  | "var" => return .var (← j.get? "name" Json.str?)
  | "const" => return .const (← j.get? "value" Json.int64?)
  | "layout-id" => return .layoutId (← j.get? "name" Json.str?)
  | "undef" => return .undef (← (← j.get? "kind" Json.str?) |> UndefKind.ofText?)
  | "bin" =>
    let op ← (← j.get? "bin" Json.str?) |> BinOp.ofText?
    let ⟨lhs, _⟩ ← j.child? "lhs"
    let ⟨rhs, _⟩ ← j.child? "rhs"
    return .bin op (← Expr.ofJson? lhs) (← Expr.ofJson? rhs)
  | "load" =>
    let type ← j.get? "ty" Prim.ofJson?
    let ⟨base, _⟩ ← j.child? "base"
    let ⟨offset, _⟩ ← j.child? "offset"
    return .load type (← Expr.ofJson? base) (← Expr.ofJson? offset)
  | "call" =>
    let callee ← j.get? "callee" Callee.ofJson?
    let ⟨args, _⟩ ← j.children? "args"
    return .call callee (← Expr.listOfJson? args)
  | "alloc" =>
    let ⟨size, _⟩ ← j.child? "size"
    let category ← j.get? "category" Json.str?
    return .alloc (← Expr.ofJson? size) category
  | "context" => return .context
  | _ => none
termination_by sizeOf j

def Expr.listOfJson? (js : List Json) : Option (List Expr) := do
  match js with
  | [] => return []
  | j :: js => return (← Expr.ofJson? j) :: (← Expr.listOfJson? js)
termination_by sizeOf js

end

/-! ## Statements -/

mutual

def Stmt.toJson : Stmt → Json
  | .bind name type value =>
    .obj [("stmt", .str "let"), ("name", .str name), ("ty", type.toJson), ("value", value.toJson)]
  | .store type base offset value =>
    .obj [("stmt", .str "store"), ("ty", type.toJson), ("base", base.toJson),
      ("offset", offset.toJson), ("value", value.toJson)]
  | .eval e => .obj [("stmt", .str "expr"), ("expr", e.toJson)]
  | .ret value => .obj [("stmt", .str "return"), ("value", .ofOption Expr.toJson value)]
  | .cond test body =>
    .obj [("stmt", .str "if"), ("cond", test.toJson), ("then", .arr (Stmt.listToJson body))]
  | .loop counter bound body =>
    .obj [("stmt", .str "for"), ("var", .str counter), ("bound", bound.toJson),
      ("body", .arr (Stmt.listToJson body))]
  | .unreachable message => .obj [("stmt", .str "unreachable"), ("message", .str message)]

def Stmt.listToJson : List Stmt → List Json
  | [] => []
  | s :: ss => s.toJson :: Stmt.listToJson ss

end

mutual

def Stmt.ofJson? (j : Json) : Option Stmt := do
  match ← j.get? "stmt" Json.str? with
  | "let" =>
    return .bind (← j.get? "name" Json.str?) (← j.get? "ty" Prim.ofJson?)
      (← j.get? "value" Expr.ofJson?)
  | "store" =>
    return .store (← j.get? "ty" Prim.ofJson?) (← j.get? "base" Expr.ofJson?)
      (← j.get? "offset" Expr.ofJson?) (← j.get? "value" Expr.ofJson?)
  | "expr" => return .eval (← j.get? "expr" Expr.ofJson?)
  | "return" => return .ret (← j.getOptional? "value" Expr.ofJson?)
  | "if" =>
    let ⟨body, _⟩ ← j.children? "then"
    return .cond (← j.get? "cond" Expr.ofJson?) (← Stmt.listOfJson? body)
  | "for" =>
    let ⟨body, _⟩ ← j.children? "body"
    return .loop (← j.get? "var" Json.str?) (← j.get? "bound" Expr.ofJson?)
      (← Stmt.listOfJson? body)
  | "unreachable" => return .unreachable (← j.get? "message" Json.str?)
  | _ => none
termination_by sizeOf j

def Stmt.listOfJson? (js : List Json) : Option (List Stmt) := do
  match js with
  | [] => return []
  | j :: js => return (← Stmt.ofJson? j) :: (← Stmt.listOfJson? js)
termination_by sizeOf js

end

/-! ## Functions -/

def ValueType.toJson : ValueType → Json
  | prim p => .obj [("prim", p.toJson)]
  | context => .str "context"
  | void => .str "void"

def ValueType.ofJson? : Json → Option ValueType
  | .obj [("prim", p)] => (Prim.ofJson? p).map prim
  | .str "context" => some context
  | .str "void" => some void
  | _ => none

def Param.toJson (p : Param) : Json :=
  .obj [("name", .str p.name), ("ty", p.type.toJson)]

def Param.ofJson? (j : Json) : Option Param := do
  return { name := ← j.get? "name" Json.str?, type := ← j.get? "ty" ValueType.ofJson? }

def FunctionKind.toJson : FunctionKind → Json
  | offset l f => .obj [("kind", .str "offset"), ("layout", .str l), ("field", .str f)]
  | get l f => .obj [("kind", .str "get"), ("layout", .str l), ("field", .str f)]
  | set l f => .obj [("kind", .str "set"), ("layout", .str l), ("field", .str f)]
  | compSize l => .obj [("kind", .str "comp-size"), ("layout", .str l)]
  | sizeof l => .obj [("kind", .str "sizeof"), ("layout", .str l)]
  | alloc l => .obj [("kind", .str "alloc"), ("layout", .str l)]
  | visitGc l => .obj [("kind", .str "visit-gc"), ("layout", .str l)]
  | dispatchSizeof => .obj [("kind", .str "dispatch-sizeof")]
  | dispatchVisitGc => .obj [("kind", .str "dispatch-visit-gc")]

def FunctionKind.ofJson? (j : Json) : Option FunctionKind := do
  let layout? := j.get? "layout" Json.str?
  let field? := j.get? "field" Json.str?
  match ← j.get? "kind" Json.str? with
  | "offset" => return offset (← layout?) (← field?)
  | "get" => return get (← layout?) (← field?)
  | "set" => return set (← layout?) (← field?)
  | "comp-size" => return compSize (← layout?)
  | "sizeof" => return sizeof (← layout?)
  | "alloc" => return alloc (← layout?)
  | "visit-gc" => return visitGc (← layout?)
  | "dispatch-sizeof" => return dispatchSizeof
  | "dispatch-visit-gc" => return dispatchVisitGc
  | _ => none

/-- The members of a function. -/
def Function.members (f : Function) : List (String × Json) :=
  [("name", .str f.name), ("kind", f.kind.toJson), ("ret", f.result.toJson),
    ("params", .ofList Param.toJson f.params), ("body", .arr (Stmt.listToJson f.body))]

def Function.toJson (f : Function) : Json :=
  .obj f.members

def Function.ofJson? (j : Json) : Option Function := do
  return { name := ← j.get? "name" Json.str?
           kind := ← j.get? "kind" FunctionKind.ofJson?
           result := ← j.get? "ret" ValueType.ofJson?
           params := ← j.get? "params" (Json.list? Param.ofJson?)
           body := ← j.get? "body" fun b => b.items?.bind Stmt.listOfJson? }

/-! ## Programs -/

def Decl.toJson : Decl → Json
  | const name type value =>
    .obj [("decl", .str "const"), ("name", .str name), ("ty", type.toJson), ("value", .int value)]
  | function f => .obj (("decl", .str "function") :: f.members)

def Decl.ofJson? (j : Json) : Option Decl := do
  match ← j.get? "decl" Json.str? with
  | "const" =>
    return const (← j.get? "name" Json.str?) (← j.get? "ty" Prim.ofJson?)
      (← j.get? "value" Json.int64?)
  | "function" => return function (← Function.ofJson? j)
  | _ => none

def Program.toJson (p : Program) : Json :=
  .obj [("version", .ofNat p.version), ("ptr_width", .ofNat p.pointerBytes),
    ("decls", .ofList Decl.toJson p.decls)]

def Program.ofJson? (j : Json) : Option Program := do
  return { version := ← j.get? "version" Json.uint32?
           pointerBytes := ← j.get? "ptr_width" Json.uint64?
           decls := ← j.get? "decls" (Json.list? Decl.ofJson?) }

end HeapLayout.Code
