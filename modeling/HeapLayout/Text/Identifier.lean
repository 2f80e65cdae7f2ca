/-!
# Identifiers

Names that end up in generated code are ASCII identifiers: a letter or an underscore, followed by
letters, digits and underscores.
-/

namespace HeapLayout.Identifier

def isAsciiLetter (c : Char) : Bool :=
  ('a' ≤ c && c ≤ 'z') || ('A' ≤ c && c ≤ 'Z')

def isAsciiDigit (c : Char) : Bool :=
  '0' ≤ c && c ≤ '9'

def isStart (c : Char) : Bool :=
  isAsciiLetter c || c == '_'

def isRest (c : Char) : Bool :=
  isStart c || isAsciiDigit c

/-- Whether a list of characters spells an identifier. -/
def spells : List Char → Bool
  | [] => false
  | c :: cs => isStart c && cs.all isRest

end HeapLayout.Identifier

namespace HeapLayout

/-- Whether a text is an identifier. -/
def isIdentifier (s : String) : Bool :=
  Identifier.spells s.toList

end HeapLayout
