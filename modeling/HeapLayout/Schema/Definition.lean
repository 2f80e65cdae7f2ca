import HeapLayout.Bits
import HeapLayout.Prim
import HeapLayout.Text.Numeral

/-!
# Layout definitions

A schema declares heap object layouts. A layout may extend an earlier one, whose fields then come
first. A field holds one value of a primitive kind or, when it names a size field, as many as that
earlier field says; a type field names the sibling that holds the run-time type tag of a word.
-/

namespace HeapLayout

/-! ## Initial values -/

/-- A declared initial value: an integer, or text as it was written. -/
inductive InitValue where
  | int (value : Int)
  | named (text : String)
  deriving DecidableEq, Repr

def InitValue.text : InitValue → String
  | .int v => Numeral.ofInt v
  | .named s => s

/-- What an initial value means. -/
inductive InitConst where
  | int (value : Int)
  | null
  /-- The word half of the runtime's undefined value. -/
  | undefWord
  /-- The type half of the runtime's undefined value. -/
  | undefType
  deriving DecidableEq, Repr

namespace InitConst

/-- A signed 64-bit integer written in decimal. -/
def ofNumeral? (s : String) : Option InitConst :=
  match Numeral.readInt? 10 s.toList with
  | some v => if FitsInt64 v then some (int v) else none
  | none => none

/-- Three names have a meaning; any other text has to be a numeral. -/
def ofText? (s : String) : Option InitConst :=
  if s = "null" then some null
  else if s = "undef_word" then some undefWord
  else if s = "undef_type" then some undefType
  else ofNumeral? s

def ofValue? : InitValue → Option InitConst
  | .int v => some (int v)
  | .named s => ofText? s

/-- Whether fresh memory, which is zero, holds the value already. -/
def isZero : InitConst → Bool
  | int v => v == 0
  | null => true
  | undefWord => false
  | undefType => true

/-- The spelling of a constant in a schema. -/
def text : InitConst → String
  | int v => Numeral.ofInt v
  | null => "null"
  | undefWord => "undef_word"
  | undefType => "undef_type"

end InitConst

/-! ## Fields, layouts, schemas -/

structure FieldDef where
  name : String
  type : Prim
  /-- The earlier field that holds this field's element count. -/
  sizeField : Option String := none
  /-- The sibling that holds the run-time type tag of this word. -/
  typeField : Option String := none
  init : Option InitValue := none
  deriving DecidableEq, Repr

structure LayoutDef where
  name : String
  /-- The earlier layout whose fields come first. -/
  parent : Option String := none
  /-- The allocation category handed to the allocator. -/
  category : String
  fields : List FieldDef := []
  comment : Option String := none
  deriving DecidableEq, Repr

structure SchemaFile where
  description : Option String := none
  /-- The layouts, in the order of their tags. -/
  layouts : List LayoutDef := []
  deriving DecidableEq, Repr

end HeapLayout
