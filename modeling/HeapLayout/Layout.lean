import HeapLayout.Name
import HeapLayout.Schema.Binding

/-!
# Resolved layouts

A resolved layout knows for every field how its start is found: after a constant pad
(`Alignment.static`), or by rounding up to the pointer width at run time (`Alignment.dynamic`).
A field also has a static offset if no run-time count can move it.
-/

namespace HeapLayout

inductive Alignment where
  /-- A constant number of bytes stands in front of the field. -/
  | static (pad : Nat)
  /-- The start is rounded up to the pointer width. -/
  | dynamic
  deriving DecidableEq, Repr

structure Field where
  name : String
  type : Prim
  /-- The width of one element. -/
  elemSize : Nat
  sizeField : Option FieldId := none
  typeField : Option FieldId := none
  init : Option InitConst := none
  align : Alignment
  staticOffset : Option Nat := none
  deriving DecidableEq, Repr

namespace Field

/-- Whether the field is an array with a run-time length. -/
def isVariable (f : Field) : Bool :=
  f.sizeField.isSome

/-- Whether the collector has to see the field: a heap reference, or a word with a type tag. -/
def isTraced (f : Field) : Bool :=
  f.type == .refptr || f.typeField.isSome

end Field

structure Layout where
  id : Nat
  name : String
  category : String
  comment : Option String := none
  fields : List Field
  /-- The fields that govern others, in the order of their first use. -/
  sizeFields : List FieldId
  deriving DecidableEq, Repr

namespace Layout

def field? (l : Layout) (i : FieldId) : Option Field :=
  l.fields[i]?

/-- The first field of a given name, with its position. -/
def findField? (l : Layout) (name : String) : Option (Field × FieldId) :=
  l.fields.zipIdx.find? fun f => f.1.name == name

def tagConstant (l : Layout) : String :=
  Name.tagConstant l.name

/-- Whether all objects of the layout have one size. -/
def isFixedSize (l : Layout) : Bool :=
  l.sizeFields.isEmpty

end Layout

end HeapLayout
