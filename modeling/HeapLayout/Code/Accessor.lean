import HeapLayout.Code.Error
import HeapLayout.Code.Program
import HeapLayout.Layout

/-!
# Accessor functions

For every field there is a function for its offset, one that reads it and one that writes it. For
every layout there are four more: the size of an object as a function of its counts, the size of an
existing object, allocation, and the visit of the collector.

An offset is the sum of the spans of the fields before, each after its alignment. It reads the
counts of arrays through the getters of their size fields, while the size function takes them as
parameters; `prefixSum` is the sum for both. Allocation writes the size fields first, since the
addresses of all later fields depend on them.

Only offsets and the size function add constants up. They take the arithmetic for this, which is
exact if none is given.
-/

namespace HeapLayout.Code.Accessor

open HeapLayout (Layout Field FieldId Alignment Prim PointerWidth InitConst Arithmetic)

/-- Offsets, sizes and loop counters are 32-bit in generated code. -/
def offsetType : Prim := .uint32

/-! ## Parts -/

def object : Expr := .var Name.object
def index : Expr := .var Name.index

def objectParam : Param := { name := Name.object, type := .prim .refptr }
def indexParam : Param := { name := Name.index, type := .prim offsetType }
def contextParam : Param := { name := Name.context, type := .context }

/-- The parameters that select a slot of a field: an object and, in an array, an index. -/
def slotParams (f : Field) : List Param :=
  if f.isVariable then [objectParam, indexParam] else [objectParam]

/-- The arguments that select a slot of a field. -/
def slotArgs (f : Field) : List Expr :=
  if f.isVariable then [object, index] else [object]

def initExpr : InitConst → Expr
  | .int v => .const v
  | .null => .const 0
  | .undefWord => .undef .word
  | .undefType => .undef .type

/-- The field that another one is bound to. -/
def binding (l : Layout) (field : String) (i : FieldId) : Except BuildError Field :=
  match l.field? i with
  | some f => .ok f
  | none => .error (.unresolvedBinding l.name field i)

def callGetter (l : Layout) (field : String) (args : List Expr) : Expr :=
  .invoke (Name.getter l.name field) args

def callSetter (l : Layout) (field : String) (args : List Expr) : Expr :=
  .invoke (Name.setter l.name field) args

/-! ## Offsets -/

/-- The start of a field that follows `sum` bytes. -/
def aligned (w : PointerWidth) (sum : Expr) (f : Field) (A : Arithmetic := .exact) : Expr :=
  match f.align with
  | .dynamic => .alignUp sum w.bytes A
  | .static pad => .add sum (.const (signed64 pad)) A

/-- The bytes that a field takes, `count` being the expression for the count in a size field. -/
def span (l : Layout) (count : Field → Expr) (f : Field) (A : Arithmetic := .exact) :
    Except BuildError Expr := do
  match f.sizeField with
  | none => return .const (signed64 f.elemSize)
  | some i =>
    let size ← binding l f.name i
    return .mul (.const (signed64 f.elemSize)) (count size) A

/-- The bytes from the start of an object to the end of the given fields, after `sum` bytes. -/
def prefixSumFrom (w : PointerWidth) (l : Layout) (count : Field → Expr) (sum : Expr)
    (fs : List Field) (A : Arithmetic := .exact) : Except BuildError Expr :=
  match fs with
  | [] => .ok sum
  | f :: fs => do
    let bytes ← span l count f A
    prefixSumFrom w l count (.add (aligned w sum f A) bytes A) fs A

def prefixSum (w : PointerWidth) (l : Layout) (count : Field → Expr) (fs : List Field)
    (A : Arithmetic := .exact) : Except BuildError Expr :=
  prefixSumFrom w l count (.const 0) fs A

/-- The count in a size field, read from the object. -/
def storedCount (l : Layout) (size : Field) : Expr :=
  callGetter l size.name [object]

/-- The offset of a field that follows the `earlier` ones. -/
def offsetExpr (w : PointerWidth) (l : Layout) (earlier : List Field) (f : Field)
    (A : Arithmetic := .exact) : Except BuildError Expr := do
  let start := aligned w (← prefixSum w l (storedCount l) earlier A) f A
  return if f.isVariable then .add start (.mul (.const (signed64 f.elemSize)) index A) A else start

def offsetFunction (w : PointerWidth) (l : Layout) (earlier : List Field) (f : Field)
    (A : Arithmetic := .exact) : Except BuildError Function := do
  let offset ← offsetExpr w l earlier f A
  return { name := Name.offset l.name f.name, kind := .offset l.name f.name,
           result := .prim offsetType, params := slotParams f, body := [.ret (some offset)] }

/-- The offset functions of the fields that follow the `earlier` ones. -/
def offsetFunctionsFrom (w : PointerWidth) (l : Layout) (earlier fs : List Field)
    (A : Arithmetic := .exact) : Except BuildError (List Function) :=
  match fs with
  | [] => .ok []
  | f :: fs => do
    let g ← offsetFunction w l earlier f A
    return g :: (← offsetFunctionsFrom w l (earlier ++ [f]) fs A)

/-! ## Reading and writing -/

def callOffset (l : Layout) (f : Field) : Expr :=
  .invoke (Name.offset l.name f.name) (slotArgs f)

def getterFunction (l : Layout) (f : Field) : Function :=
  { name := Name.getter l.name f.name, kind := .get l.name f.name, result := .prim f.type,
    params := slotParams f, body := [.ret (some (.load f.type object (callOffset l f)))] }

def setterFunction (l : Layout) (f : Field) : Function :=
  { name := Name.setter l.name f.name, kind := .set l.name f.name, result := .void,
    params := slotParams f ++ [{ name := Name.value, type := .prim f.type }],
    body := [.store f.type object (callOffset l f) (.var Name.value)] }

/-! ## Sizes -/

/-- The size fields of a layout, in the order in which counts are passed. -/
def sizeFields (l : Layout) : Except BuildError (List Field) :=
  l.sizeFields.mapM (binding l (Name.compSize l.name))

def countParam (f : Field) : Param :=
  { name := f.name, type := .prim f.type }

/-- The count in a size field, passed as a parameter or held in a local. -/
def passedCount (size : Field) : Expr :=
  .var size.name

def compSizeFunction (w : PointerWidth) (l : Layout) (A : Arithmetic := .exact) :
    Except BuildError Function := do
  let sizes ← sizeFields l
  let total ← prefixSum w l passedCount l.fields A
  return { name := Name.compSize l.name, kind := .compSize l.name, result := .prim offsetType,
           params := sizes.map countParam, body := [.ret (some total)] }

def sizeofFunction (l : Layout) : Except BuildError Function := do
  let sizes ← sizeFields l
  let size : Expr := .invoke (Name.compSize l.name) (sizes.map (storedCount l))
  return { name := Name.sizeof l.name, kind := .sizeof l.name, result := .prim offsetType,
           params := [objectParam], body := [.ret (some size)] }

/-! ## Allocation -/

def writeCount (l : Layout) (size : Field) : Stmt :=
  .eval (callSetter l size.name [object, passedCount size])

/-- Writes a value to a field, to every element of an array. -/
def writeInit (l : Layout) (f : Field) (value : Expr) : Except BuildError Stmt := do
  match f.sizeField with
  | none => return .eval (callSetter l f.name [object, value])
  | some i =>
    let size ← binding l f.name i
    return .loop Name.index (passedCount size)
      [.eval (callSetter l f.name [object, index, value])]

/-- The initial value of a field, if fresh memory does not hold it already. -/
def nonzeroInit? (f : Field) : Option InitConst :=
  f.init.filter fun c => !c.isZero

def writeInits (l : Layout) : List Field → Except BuildError (List Stmt)
  | [] => .ok []
  | f :: fs =>
    match nonzeroInit? f with
    | none => writeInits l fs
    | some c => do
      let s ← writeInit l f (initExpr c)
      return s :: (← writeInits l fs)

/-- Allocates zeroed memory, writes the counts, then every initial value that is not zero. -/
def allocFunction (l : Layout) : Except BuildError Function := do
  let sizes ← sizeFields l
  let size : Expr := .invoke (Name.compSize l.name) (sizes.map passedCount)
  let inits ← writeInits l l.fields
  return { name := Name.alloc l.name, kind := .alloc l.name, result := .prim .refptr,
           params := contextParam :: sizes.map countParam,
           body := .bind Name.object .refptr (.alloc size l.category) ::
             sizes.map (writeCount l) ++ inits ++ [.ret (some object)] }

/-! ## Visiting -/

/-- What the collector is handed for a slot: its value and, if it has one, its type tag. -/
def forwardArgs (l : Layout) (f : Field) : Except BuildError (List Expr) := do
  let value := callGetter l f.name (slotArgs f)
  match f.typeField with
  | none => return [.context, value]
  | some i =>
    let type ← binding l f.name i
    return [.context, value, callGetter l type.name (slotArgs type)]

/-- Replaces the value of a slot by what the collector returns for it. -/
def forwardSlot (l : Layout) (f : Field) : Except BuildError Stmt := do
  return .eval (callSetter l f.name (slotArgs f ++ [.gcForward (← forwardArgs l f)]))

/-- The statements that visit a list of traced fields. The counts in `read` are in locals
already. -/
def visitFields (l : Layout) (read : List String) : List Field → Except BuildError (List Stmt)
  | [] => .ok []
  | f :: fs => do
    let forward ← forwardSlot l f
    match f.sizeField with
    | none => return forward :: (← visitFields l read fs)
    | some i =>
      let size ← binding l f.name i
      let loop : Stmt := .loop Name.index (passedCount size) [forward]
      if size.name ∈ read then
        return loop :: (← visitFields l read fs)
      else
        let count : Stmt := .bind size.name offsetType (storedCount l size)
        return count :: loop :: (← visitFields l (size.name :: read) fs)

/-- Passes every traced slot through the collector and writes the result back. -/
def visitGcFunction (l : Layout) : Except BuildError Function := do
  let body ← visitFields l [] (l.fields.filter (·.isTraced))
  return { name := Name.visitGc l.name, kind := .visitGc l.name, result := .void,
           params := [contextParam, objectParam], body }

/-! ## All functions of a layout -/

/-- The declarations of a layout: its tag constant, the accessors of its fields, and the functions
of the whole layout. -/
def layoutDecls (w : PointerWidth) (l : Layout) (A : Arithmetic := .exact) :
    Except BuildError (List Decl) := do
  let offsets ← offsetFunctionsFrom w l [] l.fields A
  let functions := offsets ++ l.fields.map (getterFunction l) ++ l.fields.map (setterFunction l) ++
    [← compSizeFunction w l A, ← sizeofFunction l, ← allocFunction l, ← visitGcFunction l]
  return .const l.tagConstant .uint32 l.id :: functions.map .function

end HeapLayout.Code.Accessor
