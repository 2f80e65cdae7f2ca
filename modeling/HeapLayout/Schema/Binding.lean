import HeapLayout.Schema.Header
import HeapLayout.Schema.Validity

/-!
# Bindings

Size fields and type fields are declared by name; binding replaces the names by positions in the
full list of fields. A size field stands strictly before the field that it governs and is a single
integer of at most four bytes. A type field may stand anywhere, since an array of words usually
precedes the array of its tags, but the two must repeat in the same way, for a tag is read at its
word's own index.
-/

namespace HeapLayout

/-- The position of a field in the full list of a layout. -/
abbrev FieldId := Nat

structure BoundField where
  name : String
  type : Prim
  sizeField : Option FieldId := none
  typeField : Option FieldId := none
  init : Option InitConst := none
  deriving DecidableEq, Repr

structure BoundLayout where
  id : Nat
  name : String
  category : String
  comment : Option String := none
  fields : List BoundField
  /-- The fields that govern others, in the order of their first use. -/
  sizeFields : List FieldId
  deriving DecidableEq, Repr

namespace Schema

/-- Whether a field of this kind can hold an element count. -/
def isCountType (p : Prim) : Bool :=
  p.isInteger && p.fixedSize?.any (· ≤ 4)

/-- The first field of a given name, with its position. -/
def findField? (fields : List FieldDef) (name : String) : Option (FieldDef × FieldId) :=
  fields.zipIdx.find? fun f => f.1.name == name

def bindSizeField (layout : String) (earlier : List FieldDef) (f : FieldDef) :
    Except SchemaError (Option FieldId) :=
  match f.sizeField with
  | none => .ok none
  | some name =>
    match findField? earlier name with
    | none => .error (.unresolvedSizeField layout f.name name)
    | some (size, i) =>
      if size.sizeField.isNone && isCountType size.type then .ok (some i)
      else .error (.invalidSizeField layout f.name name)

def bindTypeField (layout : String) (fields : List FieldDef) (f : FieldDef) :
    Except SchemaError (Option FieldId) :=
  match f.typeField with
  | none => .ok none
  | some name =>
    match findField? fields name with
    | none => .error (.unresolvedTypeField layout f.name name)
    | some (type, i) =>
      if type.sizeField = f.sizeField then .ok (some i)
      else .error (.invalidTypeField layout f.name name)

def bindField (layout : String) (fields earlier : List FieldDef) (f : FieldDef) :
    Except SchemaError BoundField := do
  let sizeField ← bindSizeField layout earlier f
  let typeField ← bindTypeField layout fields f
  let init ← initConst? layout f
  return { name := f.name, type := f.type, sizeField, typeField, init }

/-- Binds the fields of a list that follow the `earlier` ones. -/
def bindFrom (layout : String) (fields earlier : List FieldDef) :
    List FieldDef → Except SchemaError (List BoundField)
  | [] => .ok []
  | f :: fs => do
    let b ← bindField layout fields earlier f
    return b :: (← bindFrom layout fields (earlier ++ [f]) fs)

/-- The members of a list, each at its first occurrence. -/
def firstUses : List FieldId → List FieldId
  | [] => []
  | i :: is => i :: (firstUses is).filter (· != i)

/-- Binds every field of a layout. -/
def bind (l : TaggedLayout) : Except SchemaError BoundLayout := do
  let fields ← bindFrom l.name l.fields [] l.fields
  return { id := l.id, name := l.name, category := l.category, comment := l.comment, fields,
           sizeFields := firstUses (fields.filterMap (·.sizeField)) }

end Schema

end HeapLayout
