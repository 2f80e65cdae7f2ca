import HeapLayout.Json.Schema
import HeapLayout.Layout

/-!
# Layouts as JSON

Bound and resolved layouts, with the bindings as positions. An initial constant is a string, or an
object with the single member `int`.
-/

namespace HeapLayout

def InitConst.toJson : InitConst → Json
  | int v => .obj [("int", .int v)]
  | null => .str "null"
  | undefWord => .str "undef-word"
  | undefType => .str "undef-type"

def InitConst.ofJson? : Json → Option InitConst
  | .obj [("int", v)] => v.int64?.map int
  | .str "null" => some null
  | .str "undef-word" => some undefWord
  | .str "undef-type" => some undefType
  | _ => none

/-! ## Bound layouts -/

def BoundField.toJson (f : BoundField) : Json :=
  .obj [("name", .str f.name), ("ty", f.type.toJson), ("size_field", .ofOption .ofNat f.sizeField),
    ("type_field", .ofOption .ofNat f.typeField), ("init", .ofOption InitConst.toJson f.init)]

def BoundField.ofJson? (j : Json) : Option BoundField := do
  return { name := ← j.get? "name" Json.str?
           type := ← j.get? "ty" Prim.ofJson?
           sizeField := ← j.getOptional? "size_field" Json.uint64?
           typeField := ← j.getOptional? "type_field" Json.uint64?
           init := ← j.getOptional? "init" InitConst.ofJson? }

def BoundLayout.toJson (l : BoundLayout) : Json :=
  .obj [("id", .ofNat l.id), ("name", .str l.name), ("category", .str l.category),
    ("comment", .ofOption .str l.comment), ("fields", .ofList BoundField.toJson l.fields),
    ("size_fields", .ofList .ofNat l.sizeFields)]

def BoundLayout.ofJson? (j : Json) : Option BoundLayout := do
  return { id := ← j.get? "id" Json.uint32?
           name := ← j.get? "name" Json.str?
           category := ← j.get? "category" Json.str?
           comment := ← j.getOptional? "comment" Json.str?
           fields := ← j.get? "fields" (Json.list? BoundField.ofJson?)
           sizeFields := ← j.get? "size_fields" (Json.list? Json.uint64?) }

/-! ## Resolved layouts -/

def Alignment.toJson : Alignment → Json
  | static pad => .obj [("kind", .str "static"), ("pad", .ofNat pad)]
  | dynamic => .obj [("kind", .str "dynamic")]

def Alignment.ofJson? (j : Json) : Option Alignment := do
  match ← j.get? "kind" Json.str? with
  | "static" => return static (← j.get? "pad" Json.uint64?)
  | "dynamic" => return dynamic
  | _ => none

def Field.toJson (f : Field) : Json :=
  .obj [("name", .str f.name), ("ty", f.type.toJson), ("elem_size", .ofNat f.elemSize),
    ("size_field", .ofOption .ofNat f.sizeField), ("type_field", .ofOption .ofNat f.typeField),
    ("init", .ofOption InitConst.toJson f.init), ("align", f.align.toJson),
    ("static_offset", .ofOption .ofNat f.staticOffset)]

def Field.ofJson? (j : Json) : Option Field := do
  return { name := ← j.get? "name" Json.str?
           type := ← j.get? "ty" Prim.ofJson?
           elemSize := ← j.get? "elem_size" Json.uint64?
           sizeField := ← j.getOptional? "size_field" Json.uint64?
           typeField := ← j.getOptional? "type_field" Json.uint64?
           init := ← j.getOptional? "init" InitConst.ofJson?
           align := ← j.get? "align" Alignment.ofJson?
           staticOffset := ← j.getOptional? "static_offset" Json.uint64? }

def Layout.toJson (l : Layout) : Json :=
  .obj [("id", .ofNat l.id), ("name", .str l.name), ("category", .str l.category),
    ("comment", .ofOption .str l.comment), ("fields", .ofList Field.toJson l.fields),
    ("size_fields", .ofList .ofNat l.sizeFields)]

def Layout.ofJson? (j : Json) : Option Layout := do
  return { id := ← j.get? "id" Json.uint32?
           name := ← j.get? "name" Json.str?
           category := ← j.get? "category" Json.str?
           comment := ← j.getOptional? "comment" Json.str?
           fields := ← j.get? "fields" (Json.list? Field.ofJson?)
           sizeFields := ← j.get? "size_fields" (Json.list? Json.uint64?) }

end HeapLayout
