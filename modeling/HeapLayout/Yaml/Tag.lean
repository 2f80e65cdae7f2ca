/-!
# Tags

A tag is a sequence of bytes rather than a text, since its escapes may spell any bytes at all. Its
first zero byte ends it. A tag that starts with an exclamation mark is local: it stands for a name of
the schema's own, provided that its bytes are a text.
-/

namespace HeapLayout.Yaml

structure Tag where
  bytes : List UInt8
  deriving DecidableEq, Repr

namespace Tag

/-- The bytes in front of the first zero. -/
def ofBytes (bs : List UInt8) : Tag :=
  { bytes := bs.takeWhile (· != 0) }

def ofString (s : String) : Tag :=
  ofBytes s.toUTF8.toList

def append (t u : Tag) : Tag :=
  { bytes := t.bytes ++ u.bytes }

def isEmpty (t : Tag) : Bool :=
  t.bytes.isEmpty

/-- Whether the tag starts with an exclamation mark. -/
def isLocal (t : Tag) : Bool :=
  t.bytes.head? == some 0x21

/-- The name that a local tag stands for. The exclamation mark alone is a name, too. -/
def localName? (t : Tag) : Option String :=
  match t.bytes with
  | [0x21] => some "!"
  | 0x21 :: name => String.fromUTF8? ⟨name.toArray⟩
  | _ => none

/-! ## Tags with a meaning of their own -/

def null : Tag := ofString "tag:yaml.org,2002:null"
def bool : Tag := ofString "tag:yaml.org,2002:bool"
def int : Tag := ofString "tag:yaml.org,2002:int"
def float : Tag := ofString "tag:yaml.org,2002:float"

end Tag

end HeapLayout.Yaml
