/-!
# Blank space

`Blank.trim` removes the characters with the Unicode property `White_Space` at both ends of a text,
and `Blank.padRight` fills a column with spaces. Widths count characters.
-/

namespace HeapLayout.Blank

/-- The ranges of the property `White_Space`. -/
def ranges : List (Nat × Nat) :=
  [(0x09, 0x0D), (0x20, 0x20), (0x85, 0x85), (0xA0, 0xA0), (0x1680, 0x1680), (0x2000, 0x200A),
    (0x2028, 0x2029), (0x202F, 0x202F), (0x205F, 0x205F), (0x3000, 0x3000)]

def isBlank (c : Char) : Bool :=
  ranges.any fun r => r.1 ≤ c.toNat && c.toNat ≤ r.2

def trim (s : String) : String :=
  let left := s.toList.dropWhile isBlank
  String.ofList (left.reverse.dropWhile isBlank).reverse

/-- Fills a text with spaces up to a width; a longer text is left alone. -/
def padRight (width : Nat) (s : String) : String :=
  s ++ String.ofList (List.replicate (width - s.length) ' ')

end HeapLayout.Blank
