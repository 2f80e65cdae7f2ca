import HeapLayout.Yaml.Tag

/-!
# YAML tokens

A text is first cut into tokens. Indentation is made explicit on the way: a block collection starts
and ends with a token of its own, and every mapping key is announced, wherever it turns out to be
one.
-/

namespace HeapLayout.Yaml

inductive Token where
  | versionDirective (major minor : Nat)
  /-- A tag handle stands for the start of a tag. -/
  | tagDirective (handle : String) (start : Tag)
  | documentStart
  | documentEnd
  | blockSequenceStart
  | blockMappingStart
  | blockEnd
  | flowSequenceStart
  | flowSequenceEnd
  | flowMappingStart
  | flowMappingEnd
  /-- A hyphen in front of an item of a sequence. -/
  | blockEntry
  /-- A comma in a flow collection. -/
  | flowEntry
  | key
  | value
  | reference (name : String)
  | anchor (name : String)
  /-- A tag with its handle, which is empty in a verbatim tag. -/
  | tag (handle : String) (suffix : Tag)
  /-- A scalar, which is plain if it is written without quotes and not as a block. -/
  | scalar (text : String) (plain : Bool)
  deriving DecidableEq, Repr

end HeapLayout.Yaml
