import HeapLayout.Json
import HeapLayout.Schema.Header

/-!
# Schemas as JSON

Keys are in kebab case. Members that may be missing may also be null, and are written as null.
-/

namespace HeapLayout

def Prim.toJson (p : Prim) : Json := .str p.name

def Prim.ofJson? (j : Json) : Option Prim := j.str?.bind Prim.ofName?

/-- An integer is a number, a named value a string. -/
def InitValue.toJson : InitValue → Json
  | int v => .int v
  | named s => .str s

def InitValue.ofJson? : Json → Option InitValue
  | .str s => some (named s)
  | j => j.int64?.map int

def FieldDef.toJson (f : FieldDef) : Json :=
  .obj [("name", .str f.name), ("type", f.type.toJson),
    ("size-field", .ofOption .str f.sizeField), ("type-field", .ofOption .str f.typeField),
    ("init", .ofOption InitValue.toJson f.init)]

def FieldDef.ofJson? (j : Json) : Option FieldDef := do
  return { name := ← j.get? "name" Json.str?
           type := ← j.get? "type" Prim.ofJson?
           sizeField := ← j.getOptional? "size-field" Json.str?
           typeField := ← j.getOptional? "type-field" Json.str?
           init := ← j.getOptional? "init" InitValue.ofJson? }

def LayoutDef.toJson (l : LayoutDef) : Json :=
  .obj [("name", .str l.name), ("extends", .ofOption .str l.parent), ("category", .str l.category),
    ("fields", .ofList FieldDef.toJson l.fields), ("comment", .ofOption .str l.comment)]

def LayoutDef.ofJson? (j : Json) : Option LayoutDef := do
  return { name := ← j.get? "name" Json.str?
           parent := ← j.getOptional? "extends" Json.str?
           category := ← j.get? "category" Json.str?
           fields := ← j.getList? "fields" FieldDef.ofJson?
           comment := ← j.getOptional? "comment" Json.str? }

def SchemaFile.toJson (s : SchemaFile) : Json :=
  .obj [("description", .ofOption .str s.description),
    ("layouts", .ofList LayoutDef.toJson s.layouts)]

def FlatLayout.toJson (l : FlatLayout) : Json :=
  .obj [("name", .str l.name), ("category", .str l.category),
    ("comment", .ofOption .str l.comment), ("fields", .ofList FieldDef.toJson l.fields)]

def TaggedLayout.toJson (l : TaggedLayout) : Json :=
  .obj [("id", .ofNat l.id), ("name", .str l.name), ("category", .str l.category),
    ("comment", .ofOption .str l.comment), ("fields", .ofList FieldDef.toJson l.fields)]

end HeapLayout
