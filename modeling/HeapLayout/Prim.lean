/-!
# Primitive kinds and pointer widths

A field holds one value, or an array of values, of a primitive kind. Nine kinds have a width of
their own. The four pointer kinds are as wide as a pointer of the target, which is four or eight
bytes: `PointerWidth` has exactly these two values, so every size in the library is exact and
positive without a side condition (`Prim.size_pos`), and a power of two.
-/

namespace HeapLayout

/-- What a field can hold. -/
inductive Prim where
  | uint8
  | uint16
  | uint32
  | uint64
  | int8
  | int16
  | int32
  | int64
  | float64
  /-- An untraced pointer into native memory. -/
  | rawptr
  /-- A traced pointer into the managed heap. -/
  | refptr
  /-- A pointer to machine code. -/
  | funptr
  /-- A pointer to an object shape descriptor. -/
  | shapeptr
  deriving DecidableEq, Repr, Inhabited

namespace Prim

/-- Every kind, in the order in which they are declared to the compiled runtime. -/
def all : List Prim :=
  [uint8, uint16, uint32, uint64, int8, int16, int32, int64, float64,
    rawptr, refptr, funptr, shapeptr]

/-- The spelling of a kind in schemas and in generated code. -/
def name : Prim → String
  | uint8 => "uint8"
  | uint16 => "uint16"
  | uint32 => "uint32"
  | uint64 => "uint64"
  | int8 => "int8"
  | int16 => "int16"
  | int32 => "int32"
  | int64 => "int64"
  | float64 => "float64"
  | rawptr => "rawptr"
  | refptr => "refptr"
  | funptr => "funptr"
  | shapeptr => "shapeptr"

/-- The kind of a given spelling. -/
def ofName? (s : String) : Option Prim :=
  all.find? fun p => p.name == s

theorem ofName?_name (p : Prim) : ofName? p.name = some p := by
  cases p <;> decide

/-- The width in bytes of a kind that does not depend on the target. -/
def fixedSize? : Prim → Option Nat
  | uint8 | int8 => some 1
  | uint16 | int16 => some 2
  | uint32 | int32 => some 4
  | uint64 | int64 | float64 => some 8
  | rawptr | refptr | funptr | shapeptr => none

def isPointer (p : Prim) : Bool :=
  p.fixedSize?.isNone

def isInteger (p : Prim) : Bool :=
  !p.isPointer && p != float64

def isSigned : Prim → Bool
  | int8 | int16 | int32 | int64 => true
  | _ => false

end Prim

/-- The width of a pointer of the target. -/
inductive PointerWidth where
  | four
  | eight
  deriving DecidableEq, Repr, Inhabited

namespace PointerWidth

def bytes : PointerWidth → Nat
  | four => 4
  | eight => 8

/-- Only four and eight bytes are supported. -/
def ofBytes? : Nat → Option PointerWidth
  | 4 => some four
  | 8 => some eight
  | _ => none

theorem bytes_pos (w : PointerWidth) : 0 < w.bytes := by
  cases w <;> decide

end PointerWidth

namespace Prim

/-- The width of a kind on a target. -/
def size (w : PointerWidth) (p : Prim) : Nat :=
  p.fixedSize?.getD w.bytes

theorem size_mem (w : PointerWidth) (p : Prim) : p.size w ∈ [1, 2, 4, 8] := by
  cases w <;> cases p <;> decide

theorem size_pos (w : PointerWidth) (p : Prim) : 0 < p.size w := by
  cases w <;> cases p <;> decide

end Prim

end HeapLayout
