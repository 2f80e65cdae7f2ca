import HeapLayout.Layout
import HeapLayout.Text.Blank

/-!
# The report on a layout

A report names a layout, its tag constant and how its objects are sized, and then has a line for
each field: name, kind and offset in columns, followed by what is special about the field.
-/

namespace HeapLayout.Report

def offsetText (f : Field) : String :=
  match f.staticOffset with
  | some n => "@" ++ Numeral.ofNat n
  | none => "@dynamic"

def alignText (f : Field) : String :=
  match f.align with
  | .static 0 => ""
  | .static pad => " pad=" ++ Numeral.ofNat pad
  | .dynamic => " align=ptr"

/-- The name of the field that another one is bound to. -/
def boundName (l : Layout) (i : FieldId) : String :=
  ((l.field? i).map (·.name)).getD "?"

/-- A text for a property that a field may have. -/
def optional {α : Type} (property : Option α) (text : α → String) : String :=
  (property.map text).getD ""

def fieldLine (l : Layout) (f : Field) : String :=
  Blank.padRight 12 f.name ++ " " ++ Blank.padRight 9 f.type.name ++ " " ++
    Blank.padRight 9 (offsetText f) ++ alignText f ++
    optional f.sizeField (fun i => " [" ++ boundName l i ++ "]") ++
    optional f.typeField (fun i => " type=" ++ boundName l i) ++
    optional f.init (fun c => " init=" ++ c.text) ++
    if f.isTraced then " traced" else ""

def sizeText (l : Layout) : String :=
  if l.isFixedSize then "fixed"
  else
    "variable, allocated with (" ++
      String.intercalate ", " (l.sizeFields.filterMap fun i => (l.field? i).map (·.name)) ++ ")"

/-- The lines of a report, the last of which is blank. -/
def lines (l : Layout) : List String :=
  let id := Numeral.ofNat l.id
  ["Layout: " ++ l.name ++ " (id " ++ id ++ ", category " ++ l.category ++ ")",
    "---------------------------------------------"] ++
    (l.comment.map fun c => "  " ++ Blank.trim c).toList ++
    ["  Constant: " ++ l.tagConstant ++ " = " ++ id, "  Size: " ++ sizeText l] ++
    l.fields.map (fun f => "  " ++ fieldLine l f) ++ [""]

end HeapLayout.Report
