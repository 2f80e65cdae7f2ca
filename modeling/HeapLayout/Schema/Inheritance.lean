import HeapLayout.Schema.Definition
import HeapLayout.Schema.Error

/-!
# Inheritance

A layout's full list of fields is its parent's full list followed by its own fields. A parent has to
be declared before its children, so one pass over the declarations suffices, and neither a layout
that extends itself nor a cycle is accepted.
-/

namespace HeapLayout

/-- A layout with its inherited fields. -/
structure FlatLayout where
  name : String
  category : String
  comment : Option String := none
  fields : List FieldDef
  deriving DecidableEq, Repr

namespace Schema

/-- The fields that a layout inherits, given the layouts before it. -/
def inheritedFields (done : List FlatLayout) (l : LayoutDef) :
    Except SchemaError (List FieldDef) :=
  match l.parent with
  | none => .ok []
  | some p =>
    match done.find? fun f => f.name == p with
    | some f => .ok f.fields
    | none => .error (.unknownParent l.name p)

def flattenLayout (done : List FlatLayout) (l : LayoutDef) : Except SchemaError FlatLayout := do
  if l.name ∈ done.map (·.name) then
    throw (.duplicateLayout l.name)
  let inherited ← inheritedFields done l
  return { name := l.name, category := l.category, comment := l.comment,
           fields := inherited ++ l.fields }

def flattenFrom (done : List FlatLayout) : List LayoutDef → Except SchemaError (List FlatLayout)
  | [] => .ok done
  | l :: ls => do flattenFrom (done ++ [← flattenLayout done l]) ls

/-- Prepends inherited fields, one layout after the other. -/
def flatten (ls : List LayoutDef) : Except SchemaError (List FlatLayout) :=
  flattenFrom [] ls

end Schema

end HeapLayout
