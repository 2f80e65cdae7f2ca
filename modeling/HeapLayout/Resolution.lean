import HeapLayout.Layout.Padding
import HeapLayout.Schema.Validity

/-!
# Resolution

Resolving a schema checks it, flattens inheritance, numbers the layouts, binds the fields of all
layouts and only then places them. Placing cannot fail, so the pointer width has no part in whether
a schema is accepted.
-/

namespace HeapLayout.Schema

/-- Binds every layout, stopping at the first fault. -/
def bindAll : List TaggedLayout → Except SchemaError (List BoundLayout)
  | [] => .ok []
  | l :: ls => do return (← bind l) :: (← bindAll ls)

/-- The bound layouts of a list of declarations. -/
def bound (ls : List LayoutDef) : Except SchemaError (List BoundLayout) := do
  check ls
  bindAll (← assignIds (← flatten ls))

/-- The layouts of a list of declarations, for a target. -/
def resolve (w : PointerWidth) (ls : List LayoutDef) : Except SchemaError (List Layout) := do
  return (← bound ls).map (Layout.plan w)

end HeapLayout.Schema
