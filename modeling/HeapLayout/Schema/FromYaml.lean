import HeapLayout.Schema.Definition
import HeapLayout.Yaml.Meaning
import HeapLayout.Yaml.Node.OfTokens
import HeapLayout.Yaml.Token.Lexer

/-!
# Schemas from YAML

What a node is read as depends on where it stands. A name takes the text of any scalar, a member
that may be missing is missing if it is plainly null, and only an initial value looks at what a
plain scalar means. Unknown members are skipped, known ones must not be repeated.
-/

namespace HeapLayout.Schema.FromYaml

open Yaml (Node Document Meaning Reading Tag)

/-! ## Scalars -/

/-- The text of any scalar. -/
def text (d : Document) (n : Node) : Reading String := do
  match ← d.follow n with
  | .scalar text _ _ => return text
  | _ => failure

/-- Whether a node is plainly null, that is, nothing at all or one of the spellings of null. A null
tag must stand at such a spelling; any other tag makes the node a value. -/
def isNull? : Node → Option Bool
  | .scalar text true none => some (text.isEmpty || Meaning.isNull text)
  | .scalar text true (some tag) =>
    if tag = .null then
      if Meaning.isNull text then some true else none
    else some false
  | _ => some false

/-- Reads a member that is missing if it is plainly null. -/
def optional {α : Type} (d : Document) (read : Node → Reading α) (n : Node) :
    Reading (Option α) := do
  let n ← d.follow n
  if ← isNull? n then return none else return some (← read n)

/-- An initial value of a plain scalar. Only integers and texts are allowed. -/
def initOfMeaning? (text : String) : Meaning → Option InitValue
  | .int v => if FitsInt64 v then some (.int v) else none
  | .text => some (.named text)
  | .null | .bool _ | .float => none

/-- An initial value of a scalar without a tag. -/
def initOfText? (text : String) (plain : Bool) : Option InitValue :=
  if plain then initOfMeaning? text (.ofPlain text) else some (.named text)

/-- An initial value of a scalar with a tag. A local tag must not stand here, but one that is no
text is overlooked. A tag that says nothing of numbers leaves the text as it is. -/
def initOfTag? (text : String) (plain : Bool) (tag : Tag) : Option InitValue :=
  if tag.localName?.isSome then none
  else if tag.isLocal then initOfText? text plain
  else if tag = .int then do initOfMeaning? text (.int (← Meaning.int? text))
  else if tag = .bool ∨ tag = .float ∨ tag = .null then none
  else some (.named text)

def init (d : Document) (n : Node) : Reading InitValue := do
  match ← d.follow n with
  | .scalar text plain none => initOfText? text plain
  | .scalar text plain (some tag) => initOfTag? text plain tag
  | _ => failure

/-- A primitive kind is written as a scalar, or as a local tag of nothing. -/
def prim (d : Document) (n : Node) : Reading Prim := do
  match ← d.follow n with
  | .scalar text plain tag =>
    match tag.bind Tag.localName? with
    | some name =>
      if plain && (text.isEmpty || Meaning.isNull text) then Prim.ofName? name else failure
    | none => Prim.ofName? text
  | _ => failure

/-! ## Collections -/

/-- Reads a list; an empty node is an empty list. -/
def list {α : Type} (d : Document) (read : Node → Reading α) (n : Node) : Reading (List α) := do
  match ← d.follow n with
  | .sequence items _ => items.mapM read
  | n => if n.isEmpty then return [] else failure

/-- The known members of a mapping. Keys are scalars, and no known key is repeated. -/
def knownMembers (d : Document) (known : List String) :
    List (Node × Node) → Reading (List (String × Node))
  | [] => return []
  | (k, v) :: entries => do
    let key ← text d k
    let members ← knownMembers d known entries
    if !known.contains key then return members
    else if (members.lookup key).isSome then failure
    else return (key, v) :: members

/-- The known members of a node; an empty node has none. -/
def members (d : Document) (known : List String) (n : Node) :
    Reading (List (String × Node)) := do
  match ← d.follow n with
  | .mapping entries _ => knownMembers d known entries
  | n => if n.isEmpty then return [] else failure

/-- Reads a member that has to be there. -/
def required {α : Type} (members : List (String × Node)) (key : String)
    (read : Node → Reading α) : Reading α :=
  match members.lookup key with
  | none => failure
  | some n => read n

/-- Reads a member that may be missing, which stands for `missing`. -/
def orElse {α : Type} (missing : α) (members : List (String × Node)) (key : String)
    (read : Node → Reading α) : Reading α :=
  match members.lookup key with
  | none => return missing
  | some n => read n

/-! ## The schema -/

def field (d : Document) (n : Node) : Reading FieldDef := do
  let ms ← members d ["name", "type", "size-field", "type-field", "init"] n
  return { name := ← required ms "name" (text d)
           type := ← required ms "type" (prim d)
           sizeField := ← orElse none ms "size-field" (optional d (text d))
           typeField := ← orElse none ms "type-field" (optional d (text d))
           init := ← orElse none ms "init" (optional d (init d)) }

def layout (d : Document) (n : Node) : Reading LayoutDef := do
  let ms ← members d ["name", "extends", "category", "fields", "comment"] n
  return { name := ← required ms "name" (text d)
           parent := ← orElse none ms "extends" (optional d (text d))
           category := ← required ms "category" (text d)
           fields := ← orElse [] ms "fields" (list d (field d))
           comment := ← orElse none ms "comment" (optional d (text d)) }

def schema (d : Document) (n : Node) : Reading SchemaFile := do
  let ms ← members d ["description", "layouts"] n
  return { description := ← orElse none ms "description" (optional d (text d))
           layouts := ← orElse [] ms "layouts" (list d (layout d)) }

end HeapLayout.Schema.FromYaml

namespace HeapLayout

/-- Reads a schema; a text without a document is an empty one. -/
def SchemaFile.ofYaml? (text : String) : Option SchemaFile := do
  let d ← Yaml.Document.ofTokens? (← Yaml.Token.scan? text)
  d.read? (Schema.FromYaml.schema d) {}

end HeapLayout
