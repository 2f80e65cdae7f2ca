import HeapLayout.Artifact.Dialect

/-!
# Artifacts in JavaScript

The bootstrap runtime is hosted in the language that it runs. Arithmetic, memory access and
allocation go through primitives whose names start with `$ir_`, and every generated name carries a
qualifier. The heap context is implicit there, so context parameters and arguments are dropped.
-/

namespace HeapLayout.Artifact

open Code (Expr Function BinOp UndefKind Callee ValueType Param Program)

structure JsOptions where
  /-- What stands in front of every generated name. -/
  qualifier : String := "$rt_"
  /-- What the banner says the artifact was generated from. -/
  sourceName : String := "layout-gen"
  deriving Repr

namespace JS

/-- The name of a kind in the primitives that access memory. -/
def shortName : Prim → String
  | .uint8 => "u8"
  | .uint16 => "u16"
  | .uint32 => "u32"
  | .uint64 => "u64"
  | .int8 => "i8"
  | .int16 => "i16"
  | .int32 => "i32"
  | .int64 => "i64"
  | .float64 => "f64"
  | .rawptr => "rawptr"
  | .refptr => "refptr"
  | .funptr => "funptr"
  | .shapeptr => "shapeptr"

def operator : BinOp → String
  | .add => "$ir_add_i32"
  | .mul => "$ir_mul_i32"
  | .and => "$ir_and_i32"
  | .eq => "$ir_eq_i32"

def undef : UndefKind → String
  | .word => "$ir_get_word($undef)"
  | .type => "$ir_get_type($undef)"

def callee : Callee → String
  | .generated name => name
  | .gcForward => "gcForward"

mutual

def expr (o : JsOptions) : Expr → String
  | .var name => name
  | .const v => Numeral.ofInt v
  | .layoutId name => o.qualifier ++ name
  | .undef k => undef k
  | .bin op lhs rhs => operator op ++ parenthesized [expr o lhs, expr o rhs]
  | .load type base offset =>
    "$ir_load_" ++ shortName type ++ parenthesized [expr o base, expr o offset]
  | .call f args => o.qualifier ++ callee f ++ parenthesized (passed o args)
  | .alloc size category => "$ir_alloc_" ++ category ++ parenthesized [expr o size]
  | .context => "undefined"

/-- Arguments, without those that are the heap context. -/
def passed (o : JsOptions) : List Expr → List String
  | [] => []
  | .context :: es => passed o es
  | e :: es => expr o e :: passed o es

end

theorem passed_cons_of_ne {e : Expr} (h : e ≠ .context) (o : JsOptions) (es : List Expr) :
    passed o (e :: es) = expr o e :: passed o es := by
  rw [passed]
  exact h

/-- Parameters, without those that are the heap context. -/
def params (ps : List Param) : List String :=
  (ps.filter fun p => p.type != .context).map (·.name)

def signature (o : JsOptions) (f : Function) : String :=
  "function " ++ o.qualifier ++ f.name ++ parenthesized (params f.params)

def dialect (o : JsOptions) : Dialect where
  expr := expr o
  bind name _ value := "var " ++ name ++ " = " ++ expr o value ++ ";"
  store type base offset value :=
    "$ir_store_" ++ shortName type ++ parenthesized [expr o base, expr o offset, expr o value] ++
      ";"
  loop counter bound :=
    "for (var " ++ counter ++ " = 0; $ir_lt_i32" ++ parenthesized [counter, expr o bound] ++ "; " ++
      counter ++ " = $ir_add_i32" ++ parenthesized [counter, "1"] ++ ")"
  constant name _ value :=
    "var " ++ o.qualifier ++ name ++ " = " ++ Numeral.ofInt value ++ ";"
  signature := signature o

/-! ## Whole artifacts -/

def lines (o : JsOptions) (p : Program) : List Line :=
  banner o.sourceName ++ (dialect o).declsLines p.decls

/-- The JavaScript source of a program. -/
def source (o : JsOptions) (p : Program) : String :=
  Line.terminated (lines o p)

end JS

end HeapLayout.Artifact
