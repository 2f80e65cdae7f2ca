import HeapLayout.Artifact.Dialect
import HeapLayout.Text.Blank

/-!
# Artifacts in D

The natively compiled runtime is written in D. Primitive kinds are aliases of built-in types,
memory is read and written through cast pointers, and arithmetic is infix and fully
parenthesised.
-/

namespace HeapLayout.Artifact

open Code (Expr Function BinOp UndefKind Callee ValueType Param Program)

structure DOptions where
  moduleName : String := "runtime.layout"
  imports : List String := ["runtime.vm", "runtime.gc"]
  /-- What the banner says the artifact was generated from. -/
  sourceName : String := "layout-gen"
  deriving Repr

namespace D

/-- The built-in type behind a primitive kind. -/
def nativeType : Prim → String
  | .uint8 => "ubyte"
  | .uint16 => "ushort"
  | .uint32 => "uint"
  | .uint64 => "ulong"
  | .int8 => "byte"
  | .int16 => "short"
  | .int32 => "int"
  | .int64 => "long"
  | .float64 => "double"
  | .rawptr | .refptr | .funptr | .shapeptr => "ubyte*"

def valueType : ValueType → String
  | .prim p => p.name
  | .context => "VM"
  | .void => "void"

def operator : BinOp → String
  | .add => "+"
  | .mul => "*"
  | .and => "&"
  | .eq => "=="

def undef : UndefKind → String
  | .word => "UNDEF.word.uint8Val"
  | .type => "Type.CONST"

def callee : Callee → String
  | .generated name => name
  | .gcForward => "gcForward"

/-- The memory of a kind at an offset from a base. -/
def slot (type : Prim) (base offset : String) : String :=
  "*cast(" ++ type.name ++ "*)(" ++ base ++ " + " ++ offset ++ ")"

mutual

def expr : Expr → String
  | .var name => name
  | .const v => Numeral.ofInt v
  | .layoutId name => name
  | .undef k => undef k
  | .bin op lhs rhs => "(" ++ expr lhs ++ " " ++ operator op ++ " " ++ expr rhs ++ ")"
  | .load type base offset => slot type (expr base) (expr offset)
  | .call f args => callee f ++ parenthesized (exprs args)
  | .alloc size _ => "vm.heapAlloc(" ++ expr size ++ ")"
  | .context => "vm"

def exprs : List Expr → List String
  | [] => []
  | e :: es => expr e :: exprs es

end

theorem exprs_eq_map (es : List Expr) : exprs es = es.map expr := by
  induction es with
  | nil => rfl
  | cons e es ih => rw [exprs, ih, List.map_cons]

def param (p : Param) : String :=
  valueType p.type ++ " " ++ p.name

def signature (f : Function) : String :=
  "extern (C) " ++ valueType f.result ++ " " ++ f.name ++ parenthesized (f.params.map param)

def dialect : Dialect where
  expr := expr
  bind name type value := type.name ++ " " ++ name ++ " = " ++ expr value ++ ";"
  store type base offset value :=
    slot type (expr base) (expr offset) ++ " = " ++ expr value ++ ";"
  loop counter bound :=
    "for (uint32 " ++ counter ++ " = 0; " ++ counter ++ " < " ++ expr bound ++ "; ++" ++ counter ++
      ")"
  constant name type value :=
    "const " ++ type.name ++ " " ++ name ++ " = " ++ Numeral.ofInt value ++ ";"
  signature := signature

/-! ## Whole artifacts -/

/-- The declaration of a primitive kind, the built-in types in a column. -/
def aliasLine (p : Prim) : Line :=
  .top ("alias " ++ Blank.padRight 6 (nativeType p) ++ " " ++ p.name ++ ";")

/-- Pointer kinds are declared first. -/
def aliases : List Line :=
  (Prim.all.filter (·.isPointer) ++ Prim.all.filter (!·.isPointer)).map aliasLine

def imports (names : List String) : List Line :=
  if names.isEmpty then [] else names.map (fun n => .top ("import " ++ n ++ ";")) ++ [.blank]

def preamble (o : DOptions) : List Line :=
  banner o.sourceName ++ [.top ("module " ++ o.moduleName ++ ";"), .blank] ++ imports o.imports ++
    aliases ++ [.blank]

def lines (o : DOptions) (p : Program) : List Line :=
  preamble o ++ dialect.declsLines p.decls

/-- The D source of a program. -/
def source (o : DOptions) (p : Program) : String :=
  Line.terminated (lines o p)

end D

end HeapLayout.Artifact
