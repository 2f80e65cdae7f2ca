/-!
# Lines of a text

A line ends in a line feed, in front of which a carriage return belongs to the line end. What
follows the last line end is a line only if there is anything: `Lines.ofString "a\n"` is one line.
-/

namespace HeapLayout.Lines

/-- A line without a carriage return at its end. -/
def trimReturn (line : List Char) : List Char :=
  if line.getLast? = some '\r' then line.dropLast else line

/-- The lines of a text, where `line` has been read already, in reverse. -/
def splitFrom (line : List Char) : List Char → List (List Char)
  | [] => if line.isEmpty then [] else [line.reverse]
  | '\n' :: cs => trimReturn line.reverse :: splitFrom [] cs
  | c :: cs => splitFrom (c :: line) cs

def ofString (s : String) : List String :=
  (splitFrom [] s.toList).map String.ofList

end HeapLayout.Lines
