import HeapLayout.Text.Numeral

/-!
# Synthesis errors

Code can be synthesised for any list of layouts, hand-made ones included, so a binding may point
nowhere. The other two errors say that a dispatcher does not fit its schema.
-/

namespace HeapLayout.Code

inductive BuildError where
  /-- A field is bound to a position that the layout does not have. -/
  | unresolvedBinding (layout field : String) (index : Nat)
  /-- A dispatcher does not test the tags of the schema, each once and in order. -/
  | armsDiffer (function : String) (arms expected : List String)
  /-- A dispatcher does not end in an unreachable marker. -/
  | fallsThrough (function : String)
  deriving DecidableEq, Repr

/-- The text of an error. -/
def BuildError.message : BuildError → String
  | unresolvedBinding l f i =>
    s!"layout '{l}': field '{f}' is bound to missing field #" ++ Numeral.ofNat i
  | armsDiffer f arms expected =>
    let listed (names : List String) := "[" ++ String.intercalate ", " names ++ "]"
    s!"internal invariant violated: {f} dispatches on " ++ listed arms ++
      " but the schema declares " ++ listed expected
  | fallsThrough f =>
    s!"internal invariant violated: {f} falls through without an unreachable marker"

end HeapLayout.Code
