import HeapLayout.Text.Numeral

/-!
# Schema errors

Each way in which a schema can be refused is a constructor that names the culprit. The wording is
in `SchemaError.message` alone.
-/

namespace HeapLayout

/-- What a name is used for. -/
inductive NameRole where
  | layoutName
  | category
  | fieldName
  deriving DecidableEq, Repr

def NameRole.text : NameRole → String
  | layoutName => "layout name"
  | category => "category"
  | fieldName => "field name"

inductive SchemaError where
  | duplicateLayout (layout : String)
  | duplicateField (layout field : String)
  /-- A field repeats an inherited or header field. -/
  | shadowedField (layout field : String)
  | unknownParent (layout parent : String)
  | unresolvedSizeField (layout field sizeField : String)
  | unresolvedTypeField (layout field typeField : String)
  /-- A size field is no fixed-length integer of at most 32 bits. -/
  | invalidSizeField (layout field sizeField : String)
  /-- A type field does not repeat the way its word does. -/
  | invalidTypeField (layout field typeField : String)
  | reservedLayoutName (layout : String)
  /-- Two layouts have one tag constant. -/
  | conflictingLayoutNames (first second constant : String)
  | invalidIdentifier (role : NameRole) (name : String)
  | reservedName (layout field : String)
  | unknownInitValue (layout field value : String)
  | invalidPointerWidth (bytes : Nat)
  deriving DecidableEq, Repr

namespace SchemaError

/-- The text of an error in parts: fixed words and the names in it. -/
def parts : SchemaError → List String
  | duplicateLayout l => ["duplicate layout name '", l, "'"]
  | duplicateField l f => ["duplicate field name '", f, "' in layout '", l, "'"]
  | shadowedField l f =>
    ["field '", f, "' of layout '", l, "' shadows an inherited or header field"]
  | unknownParent l p =>
    ["layout '", l, "' extends '", p, "', which is not declared before it"]
  | unresolvedSizeField l f s =>
    ["size field \"", s, "\" of \"", f, "\" not found in layout '", l, "'"]
  | unresolvedTypeField l f t =>
    ["type field \"", t, "\" of \"", f, "\" not found in layout '", l, "'"]
  | invalidSizeField l f s =>
    ["size field '", s, "' of '", f, "' in layout '", l,
      "' must be a fixed-length integer field of at most 32 bits"]
  | invalidTypeField l f t =>
    ["type field '", t, "' of '", f, "' in layout '", l, "' must share the word's size field"]
  | reservedLayoutName l =>
    ["layout name '", l, "' is reserved for generated dispatch functions"]
  | conflictingLayoutNames a b c =>
    ["layouts '", a, "' and '", b, "' both generate the constant ", c]
  | invalidIdentifier r n => [r.text, " '", n, "' is not a valid identifier"]
  | reservedName l f =>
    ["field name '", f, "' in layout '", l, "' is reserved for generated code"]
  | unknownInitValue l f v =>
    ["unknown initial value '", v, "' for field '", f, "' of layout '", l, "'"]
  | invalidPointerWidth n =>
    ["unsupported pointer width ", Numeral.ofNat n, " (expected 4 or 8)"]

/-- The text of an error. -/
def message (e : SchemaError) : String :=
  String.join e.parts

end SchemaError

end HeapLayout
