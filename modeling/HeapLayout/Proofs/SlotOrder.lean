import HeapLayout.Proofs.Access

/-!
# Slots in order

An object is read through the accessors of its layout. If the getters of its size fields answer with
counts, then the offset functions put the fields one after the other, no two slots overlap, the
field that is placed last ends where the object does, and both size functions say so
(`slotsInOrder_of_resolve`). None of this depends on how the object came about, or on what else the
memory holds.
-/

namespace HeapLayout.Code

open HeapLayout (Layout Field FieldId PointerWidth Counts LayoutDef InitValue InitConst)
open Accessor

/-- The fields of the object at `o` follow one another, and fill its size. -/
structure Program.SlotsInOrder (p : Program) (P : Platform) (l : Layout) (κ : Counts) (o : Int)
    (m : Machine) : Prop where
  /-- The offset functions say where slots are. -/
  offset : ∀ k f i, l.fields[k]? = some f → f.HasIndex i →
    p.Returns P (Name.offset l.name f.name) (slotValues f o i) m
      (some (l.offset P.width κ k f i : Int)) m
  /-- A field starts at or after the end of the one before. -/
  stop_le_start : ∀ k f g, l.fields[k]? = some f → l.fields[k + 1]? = some g →
    l.offset P.width κ k f 0 + f.elemSize * f.length κ ≤ l.offset P.width κ (k + 1) g 0
  disjoint : ∀ j k f g n i, l.fields[j]? = some f → n < f.length κ → l.fields[k]? = some g →
    i < g.length κ → (j, n) ≠ (k, i) →
      l.offset P.width κ j f n + f.elemSize ≤ l.offset P.width κ k g i ∨
        l.offset P.width κ k g i + g.elemSize ≤ l.offset P.width κ j f n
  /-- The last field ends where the object does. -/
  last : ∃ f, l.fields[l.fields.length - 1]? = some f ∧
    l.offset P.width κ (l.fields.length - 1) f 0 + f.elemSize * f.length κ = l.size P.width κ
  sizeof : p.Returns P (Name.sizeof l.name) [.int o] m (some (l.size P.width κ : Int)) m
  compSize : p.Returns P (Name.compSize l.name) (countValues l κ) m
    (some (l.size P.width κ : Int)) m
  inside : ∀ k f i, l.fields[k]? = some f → i < f.length κ →
    l.offset P.width κ k f i + f.elemSize ≤ l.size P.width κ

/-- The end of a field, counted from its start. -/
theorem offset_zero_add {w : PointerWidth} {l : Layout} {κ : Counts} {k : Nat} {f : Field}
    (hk : l.fields[k]? = some f) :
    l.offset w κ k f 0 + f.elemSize * f.length κ = Layout.endOf w κ 0 (l.fields.take (k + 1)) := by
  rw [← Layout.offset_length hk, Layout.offset, Layout.offset, Nat.mul_zero, Nat.add_zero]

theorem slotsInOrder_of_readsCounts {p : Program} {P : Platform} {l : Layout} {κ : Counts} {o : Int}
    {m : Machine} (h : l.WellFormed P.width) (hp : p.Implements P.width l)
    (hread : p.ReadsCounts P l κ o m) : p.SlotsInOrder P l κ o m := by
  have hst := stored_of_readsCounts h hp hread
  refine ⟨?_, ?_, ?_, ?_, ?_, ?_, ?_⟩
  · intro k f i hk hi
    exact ⟨2 * k + 1, call_offset h hp (hst k) hk hi le_rfl⟩
  · intro k f g hf hg
    rw [offset_zero_add hf]
    exact Layout.endOf_take_le_offset
  · intro j k f g n i hj hn hk hi hne
    exact Layout.offset_disjoint hj hn hk hi hne
  · have hpos : 0 < l.fields.length := List.length_pos_iff.mpr h.fields_ne_nil
    refine ⟨_, List.getElem?_eq_getElem (by omega), ?_⟩
    rw [offset_zero_add (List.getElem?_eq_getElem (by omega)), Nat.sub_add_cancel hpos,
      List.take_length, Layout.size]
  · exact ⟨_, call_sizeof h hp (hst _) le_rfl⟩
  · exact ⟨1, call_compSize h hp le_rfl⟩
  · intro k f i hk hi
    exact Layout.offset_add_le_size hk hi

/-- Synthesis succeeds on the layouts of an accepted schema. In every heap, wherever the getters of
all size fields answer with counts, the slots are in order. -/
theorem slotsInOrder_of_resolve {P : Platform} {defs : List LayoutDef} {ls : List Layout}
    (h : Schema.resolve P.width defs = .ok ls) {l : Layout} (hl : l ∈ ls) :
    ∃ decls, layoutDecls P.width l = .ok decls ∧ ∀ (m : Machine) (o : Int) (κ : Counts),
      (Program.ofDecls P.width decls).ReadsCounts P l κ o m →
        (Program.ofDecls P.width decls).SlotsInOrder P l κ o m := by
  have hwf := Schema.wellFormed_of_resolve h hl
  obtain ⟨decls, hdecls, hp⟩ := exists_layoutDecls hwf
  exact ⟨decls, hdecls, fun m o κ hread => slotsInOrder_of_readsCounts hwf hp hread⟩

/-! ## An array behind its length -/

/-- An array of bytes behind its length, with initial values for both. -/
def bufferDef (length elements : Option InitValue) : LayoutDef where
  name := "buf"
  category := "plain"
  fields := [{ name := "n", type := .uint32, init := length },
    { name := "xs", type := .uint8, sizeField := some "n", init := elements }]

/-- The layout of a buffer on a target with pointers of eight bytes. -/
def bufferLayout (length elements : Option InitConst) : Layout where
  id := 0
  name := "buf"
  category := "plain"
  fields := [
    { name := "next", type := .refptr, elemSize := 8, init := some .null, align := .static 0,
      staticOffset := some 0 },
    { name := "tag", type := .uint32, elemSize := 4, init := some (.int 0), align := .static 0,
      staticOffset := some 8 },
    { name := "n", type := .uint32, elemSize := 4, init := length, align := .static 0,
      staticOffset := some 12 },
    { name := "xs", type := .uint8, elemSize := 1, sizeField := some 2, init := elements,
      align := .static 0, staticOffset := some 16 }]
  sizeFields := [2]

/-- A platform that places every region at address 64. -/
def examplePlatform : Platform where
  width := .eight
  undef := fun _ => -1
  place := fun _ _ => 64
  forward := fun _ _ => 0

theorem slotsInOrder_buffer :
    Schema.resolve .eight [bufferDef none none] = .ok [bufferLayout none none] ∧
      ∃ decls, layoutDecls .eight (bufferLayout none none) = .ok decls ∧
        (Program.ofDecls .eight decls).SlotsInOrder examplePlatform (bufferLayout none none)
          (fun _ => 2) 0 { bytes := fun a => if a = 12 then 2 else 0 } := by
  have hresolve : Schema.resolve examplePlatform.width [bufferDef none none] =
      .ok [bufferLayout none none] := by decide
  obtain ⟨decls, hdecls, hall⟩ :=
    slotsInOrder_of_resolve hresolve (List.mem_singleton_self (bufferLayout none none))
  refine ⟨hresolve, decls, hdecls, hall _ 0 (fun _ => 2) ?_⟩
  intro i hi s hs
  cases List.mem_singleton.mp hi
  cases hs
  cases hdecls
  exact ⟨_, 4, rfl⟩

end HeapLayout.Code
