import HeapLayout.Schema.Inheritance

/-!
# Tags and headers

A layout's tag is its position in the schema. Every object starts with the same two header fields:
the forwarding pointer that the collector installs, and the tag, which is initialised to the
layout's own. With the header in front, the fields of a layout must have distinct names.
-/

namespace HeapLayout

/-- A layout with its tag, its header and its inherited fields. -/
structure TaggedLayout extends FlatLayout where
  id : Nat
  deriving DecidableEq, Repr

namespace Schema

def forwardField : String := "next"
def tagField : String := "tag"
def tagType : Prim := .uint32

/-- The two fields at the start of every object. -/
def headerFields (id : Nat) : List FieldDef :=
  [{ name := forwardField, type := .refptr, init := some (.named "null") },
    { name := tagField, type := tagType, init := some (.int id) }]

/-- The first name that occurs earlier in a list. -/
def firstRepeated (earlier : List String) : List String → Option String
  | [] => none
  | n :: ns => if n ∈ earlier then some n else firstRepeated (earlier ++ [n]) ns

def tagLayout (id : Nat) (l : FlatLayout) : Except SchemaError TaggedLayout :=
  let fields := headerFields id ++ l.fields
  match firstRepeated [] (fields.map (·.name)) with
  | some n => .error (.shadowedField l.name n)
  | none => .ok { l with id, fields }

def assignIdsFrom (id : Nat) : List FlatLayout → Except SchemaError (List TaggedLayout)
  | [] => .ok []
  | l :: ls => do return (← tagLayout id l) :: (← assignIdsFrom (id + 1) ls)

/-- Numbers the layouts and puts a header in front of each. -/
def assignIds (ls : List FlatLayout) : Except SchemaError (List TaggedLayout) :=
  assignIdsFrom 0 ls

end Schema

end HeapLayout
