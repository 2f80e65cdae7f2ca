import HeapLayout.Name
import HeapLayout.Schema.Definition
import HeapLayout.Schema.Error
import HeapLayout.Text.Identifier

/-!
# Validity of declarations

The checks that need no inheritance: names are identifiers and not reserved, no two layouts share a
tag constant, the fields that a layout declares itself have distinct names, and every initial value
means something. Layouts are checked in order, and the parts of a layout in order, so the first
fault in reading order is the one that is reported.
-/

namespace HeapLayout.Schema

def checkIdentifier (role : NameRole) (name : String) : Except SchemaError Unit :=
  if isIdentifier name then .ok () else .error (.invalidIdentifier role name)

/-- The meaning of a field's initial value, if it declares one. -/
def initConst? (layout : String) (f : FieldDef) : Except SchemaError (Option InitConst) :=
  match f.init with
  | none => .ok none
  | some v =>
    match InitConst.ofValue? v with
    | some c => .ok (some c)
    | none => .error (.unknownInitValue layout f.name v.text)

/-! ## One layout -/

def checkField (layout : String) (earlier : List FieldDef) (f : FieldDef) :
    Except SchemaError Unit := do
  checkIdentifier .fieldName f.name
  if f.name ∈ Name.reserved then
    throw (.reservedName layout f.name)
  if f.name ∈ earlier.map (·.name) then
    throw (.duplicateField layout f.name)
  let _ ← initConst? layout f

def checkFields (layout : String) (earlier : List FieldDef) :
    List FieldDef → Except SchemaError Unit
  | [] => .ok ()
  | f :: fs => do
    checkField layout earlier f
    checkFields layout (earlier ++ [f]) fs

/-- The name of a layout, against the names of the layouts before it. -/
def checkLayoutName (earlier : List String) (name : String) : Except SchemaError Unit :=
  if name ∈ Name.reservedLayouts then
    .error (.reservedLayoutName name)
  else
    match earlier.find? fun e => Name.tagConstant e == Name.tagConstant name with
    | none => .ok ()
    | some e =>
      if e = name then .error (.duplicateLayout name)
      else .error (.conflictingLayoutNames e name (Name.tagConstant name))

def checkLayout (earlier : List String) (l : LayoutDef) : Except SchemaError Unit := do
  checkIdentifier .layoutName l.name
  checkIdentifier .category l.category
  checkLayoutName earlier l.name
  checkFields l.name [] l.fields

/-! ## All layouts -/

def checkLayouts (earlier : List String) : List LayoutDef → Except SchemaError Unit
  | [] => .ok ()
  | l :: ls => do
    checkLayout earlier l
    checkLayouts (earlier ++ [l.name]) ls

/-- Checks a list of declarations. -/
def check (ls : List LayoutDef) : Except SchemaError Unit :=
  checkLayouts [] ls

end HeapLayout.Schema
