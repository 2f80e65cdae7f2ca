import HeapLayout.Layout

/-!
# Padding

Fields are placed one after the other. The model offset `Cursor.offset` counts the bytes since the
last boundary that is aligned at run time, an array counting as a single element: whole elements of
a size at least as large keep what follows aligned.

An array of smaller elements gives no such guarantee, since its length is a run-time count. The
field after it is rounded up to the pointer width, and the model offset starts again, not at zero
but at the size of that field, which occupies the start of the new boundary already.
-/

namespace HeapLayout.Layout

/-- Where the next field may start. -/
structure Cursor where
  /-- The model offset since the last boundary aligned at run time. -/
  offset : Nat := 0
  /-- The true offset, as long as no run-time count has moved it. -/
  known : Option Nat := some 0
  /-- The width of the last field's elements, if that field is an array. -/
  region : Option Nat := none

/-- The bytes missing to the next multiple of `unit`. -/
def padTo (unit offset : Nat) : Nat :=
  (unit - offset % unit) % unit

/-- Whether the last field is an array of elements smaller than the next field. -/
def Cursor.followsSmaller (c : Cursor) (size : Nat) : Bool :=
  c.region.any (· < size)

/-- Where a field of the given size starts. -/
def Cursor.place (c : Cursor) (size : Nat) : Alignment × Option Nat :=
  if c.followsSmaller size then (.dynamic, none)
  else (.static (padTo size c.offset), c.known.map (· + padTo size c.offset))

/-- The cursor after a field that starts at `start`, if that is known. -/
def Cursor.advance (c : Cursor) (size : Nat) (isArray : Bool) (start : Option Nat) : Cursor where
  offset := if c.followsSmaller size then size else c.offset + padTo size c.offset + size
  known := if isArray then none else start.map (· + size)
  region := if isArray then some size else none

def planField (w : PointerWidth) (c : Cursor) (f : BoundField) : Field :=
  let size := f.type.size w
  let place := c.place size
  { name := f.name, type := f.type, elemSize := size, sizeField := f.sizeField,
    typeField := f.typeField, init := f.init, align := place.1, staticOffset := place.2 }

def planFrom (w : PointerWidth) (c : Cursor) : List BoundField → List Field
  | [] => []
  | b :: bs =>
    let f := planField w c b
    f :: planFrom w (c.advance f.elemSize f.isVariable f.staticOffset) bs

/-- Places every field of a bound layout. -/
def plan (w : PointerWidth) (b : BoundLayout) : Layout :=
  { id := b.id, name := b.name, category := b.category, comment := b.comment,
    fields := planFrom w {} b.fields, sizeFields := b.sizeFields }

end HeapLayout.Layout
