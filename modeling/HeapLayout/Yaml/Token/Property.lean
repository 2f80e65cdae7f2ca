import HeapLayout.Text.Numeral
import HeapLayout.Yaml.Cursor
import HeapLayout.Yaml.Token

/-!
# Anchors, tags and directives

The properties that may stand in front of a node, and the directives in front of a document. Each
scanner starts behind the indicator and returns the token and the cursor behind it.
-/

namespace HeapLayout.Yaml.Property

/-! ## Anchors and references -/

/-- What may follow the name of an anchor. -/
def endsName (cs : List Char) : Bool :=
  atBlank cs || cs.head?.any ['?', ':', ',', ']', '\x7d', '%', '@', '\x60'].contains

/-- The name of an anchor or of a reference to one. -/
def name? (c : Cursor) : Option (String × Cursor) :=
  let name := c.rest.takeWhile isWordChar
  let c := c.advance name.length
  if name.isEmpty || !endsName c.rest then none else some (String.ofList name, c)

/-! ## Tags -/

/-- The bytes of escapes such as `%C3%A9`. -/
def escapedBytes : List Char → List UInt8
  | '%' :: a :: b :: cs =>
    match Numeral.readNat? 16 [a, b] with
    | some n => n.toUInt8 :: escapedBytes cs
    | none => []
  | _ => []

/-- The length in bytes of a character whose encoding starts with the given byte. -/
def encodedLength? (b : UInt8) : Option Nat :=
  if b &&& 0x80 = 0x00 then some 1
  else if b &&& 0xE0 = 0xC0 then some 2
  else if b &&& 0xF0 = 0xE0 then some 3
  else if b &&& 0xF8 = 0xF0 then some 4
  else none

/-- The bytes of one escaped character. Only the pattern of leading and following bytes is
checked, so they need not be a character that there is. -/
def escape? (cs : List Char) : Option (List UInt8) := do
  let bytes := escapedBytes (cs.take 12)
  let n ← encodedLength? (← bytes.head?)
  let bytes := bytes.take n
  if bytes.length < n || (bytes.drop 1).any (· &&& 0xC0 != 0x80) then none
  else return bytes

/-- The characters of a tag. Flow indicators may stand in a verbatim tag only. -/
def isTagChar (verbatim : Bool) (c : Char) : Bool :=
  isWordChar c || [';', '/', '?', ':', '@', '&', '=', '+', '$', '.', '!', '~', '*', '\'', '(',
    ')'].contains c || (verbatim && [',', '[', ']'].contains c)

/-- One step over a character of a tag, with the bytes so far in reverse. -/
def suffixStep (verbatim : Bool) (bytes : List UInt8) (c : Cursor) :
    Cursor.Step (List UInt8) (List UInt8 × Cursor) :=
  match c.rest with
  | '%' :: _ =>
    match escape? c.rest with
    | some bs => .next (bs.reverse ++ bytes) (c.advance (3 * bs.length))
    | none => .fail
  | x :: _ =>
    if isTagChar verbatim x then .next (x.toUInt8 :: bytes) c.advance else .done (bytes, c)
  | [] => .done (bytes, c)

/-- The bytes of a tag behind its handle. -/
def suffix? (verbatim : Bool) (c : Cursor) : Option (List UInt8 × Cursor) := do
  let (bytes, c) ← Cursor.iterate (suffixStep verbatim) [] c
  return (bytes.reverse, c)

/-- The word behind an exclamation mark, and whether a second mark makes it a handle. -/
def handle? (c : Cursor) : Option (String × Bool × Cursor) :=
  match c.rest with
  | '!' :: rest =>
    let word := rest.takeWhile isWordChar
    let c := c.advance (1 + word.length)
    if c.rest.head? == some '!' then some (String.ofList word, true, c.advance)
    else some (String.ofList word, false, c)
  | _ => none

/-- A tag in angle brackets, from behind the opening one. -/
def verbatimTag? (c : Cursor) : Option (Token × Cursor) := do
  let (bytes, c) ← suffix? true c
  if bytes.isEmpty || c.rest.head? != some '>' then none
  else return (.tag "" (.ofBytes bytes), c.advance)

/-- A tag with a handle. A word without a second mark is the start of the suffix, and a mark on its
own is a tag without a handle. -/
def shorthandTag? (c : Cursor) : Option (Token × Cursor) := do
  let (word, closed, c) ← handle? c
  let (bytes, c) ← suffix? false c
  if closed then
    if bytes.isEmpty then none else return (.tag ("!" ++ word ++ "!") (.ofBytes bytes), c)
  else
    let suffix := (Tag.ofString word).append (.ofBytes bytes)
    return (if suffix.isEmpty then .tag "" (.ofString "!") else .tag "!" suffix, c)

/-- A tag, from its exclamation mark. In a flow collection a comma may follow it. -/
def tag? (inFlow : Bool) (c : Cursor) : Option (Token × Cursor) := do
  let (t, c) ← match c.rest with
    | '!' :: '<' :: _ => verbatimTag? (c.advance 2)
    | _ => shorthandTag? c
  if atBlank c.rest || (inFlow && c.rest.head? == some ',') then return (t, c) else none

/-! ## Directives -/

/-- A version number of at most nine digits. -/
def versionNumber? (c : Cursor) : Option (Nat × Cursor) := do
  let digits := c.rest.takeWhile Char.isDigit
  if digits.length > 9 then none
  else return (← Numeral.readNat? 10 digits, c.advance digits.length)

def versionDirective? (c : Cursor) : Option (Token × Cursor) := do
  let (major, c) ← versionNumber? (c.advanceWhile isBlank)
  if c.rest.head? != some '.' then none
  else
    let (minor, c) ← versionNumber? c.advance
    return (.versionDirective major minor, c)

def tagDirective? (c : Cursor) : Option (Token × Cursor) := do
  let (word, closed, c) ← handle? (c.advanceWhile isBlank)
  if (!closed && !word.isEmpty) || !c.rest.head?.any isBlank then none
  else
    let (bytes, c) ← suffix? true (c.advanceWhile isBlank)
    if bytes.isEmpty || !atBlank c.rest then none
    else return (.tagDirective (if closed then "!" ++ word ++ "!" else "!") (.ofBytes bytes), c)

/-- A directive, from behind its percent sign to the end of its line. -/
def directive? (c : Cursor) : Option (Token × Cursor) := do
  let name := c.rest.takeWhile isWordChar
  let c := c.advance name.length
  if !atBlank c.rest then none
  else
    let (t, c) ← match String.ofList name with
      | "YAML" => versionDirective? c
      | "TAG" => tagDirective? c
      | _ => none
    let c := c.advanceWhile isBlank
    let c := if c.rest.head? == some '#' then c.toLineEnd else c
    if c.atLineEnd then return (t, c.skipLineEnd) else none

end HeapLayout.Yaml.Property
