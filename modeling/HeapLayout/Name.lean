import HeapLayout.Text.Uppercase

/-!
# Names in generated code

Every layout owns a tag constant and a family of functions whose names are glued from the layout,
the kind of function and, for accessors, the field. Parameters and locals of generated functions
have the fixed names below, which no field may take.
-/

namespace HeapLayout.Name

/-! ## Fixed names -/

/-- The object that a function works on. -/
def object : String := "o"

/-- The element index of an accessor of an array field, and every loop counter. -/
def index : String := "i"

/-- The value that a setter stores. -/
def value : String := "v"

/-- The tag that a dispatcher has read. -/
def tag : String := "t"

/-- The heap context of allocators and collector entry points. -/
def context : String := "vm"

/-- The names that no field may take. -/
def reserved : List String :=
  [object, index, value, tag, context]

def dispatchSizeof : String := "layout_sizeof"
def dispatchVisitGc : String := "layout_visit_gc"

/-- The names that no layout may take: the functions of such a layout would be the dispatchers. -/
def reservedLayouts : List String :=
  ["layout"]

/-! ## Names of a layout -/

/-- The constant that holds a layout's tag. -/
def tagConstant (layout : String) : String :=
  "LAYOUT_" ++ Uppercase.ofString layout

def offset (layout field : String) : String := layout ++ "_ofs_" ++ field
def getter (layout field : String) : String := layout ++ "_get_" ++ field
def setter (layout field : String) : String := layout ++ "_set_" ++ field
def compSize (layout : String) : String := layout ++ "_comp_size"
def sizeof (layout : String) : String := layout ++ "_sizeof"
def alloc (layout : String) : String := layout ++ "_alloc"
def visitGc (layout : String) : String := layout ++ "_visit_gc"

end HeapLayout.Name
