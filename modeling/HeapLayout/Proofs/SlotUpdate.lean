import HeapLayout.Proofs.Contents
import HeapLayout.Proofs.SlotOrder

/-!
# Setting a slot

A setter finds its slot through the counts in the object that it writes to. The place of a slot
depends on size fields further to the front only, so even the setter of a size field stores where
its getter loads (`stored_set`). Slots do not overlap: if the field holds no count, every other slot
and the size of the object stay as they were (`setsSlot_of_resolve`).
-/

namespace HeapLayout.Code

open HeapLayout (Layout Field FieldId PointerWidth Counts LayoutDef)
open Accessor

variable {l : Layout} {κ : Counts} {f : Field} {i k : Nat} {o : Int} {m : Machine} {p : Program}
  {P : Platform}

/-- The setter of slot `i` of the field at position `k` leads from `m` to `m'`: the getter then
answers with the value, cut to the kind of the field. Other slots and the size of the object change
at most if the field is a size field. -/
structure Program.SetsSlot (p : Program) (P : Platform) (l : Layout) (κ : Counts) (o : Int)
    (m : Machine) (k : Nat) (f : Field) (i : Nat) (v : Int) (m' : Machine) : Prop where
  returns : p.Returns P (Name.setter l.name f.name) (slotValues f o i ++ [.int v]) m none m'
  reads : p.Returns P (Name.getter l.name f.name) (slotValues f o i) m'
    (some (f.type.narrow P.width v)) m'
  others : k ∉ l.sizeFields → ∀ j g n, l.fields[j]? = some g → n < g.length κ → (j, n) ≠ (k, i) →
    ∃ x, p.Returns P (Name.getter l.name g.name) (slotValues g o n) m (some x) m ∧
      p.Returns P (Name.getter l.name g.name) (slotValues g o n) m' (some x) m'
  sizeof : k ∉ l.sizeFields → ∃ size,
    p.Returns P (Name.sizeof l.name) [.int o] m (some size) m ∧
      p.Returns P (Name.sizeof l.name) [.int o] m' (some size) m'

/-- Writing a slot moves neither the slot itself nor what stands before its field. -/
theorem stored_set (hwf : l.WellFormed P.width)
    (hst : Stored P.width l κ m.bytes o l.fields.length) (hk : l.fields[k]? = some f)
    (hi : i < f.length κ) (v : Int) :
    Stored P.width l κ (m.bytes.store P.width f.type (o + l.offset P.width κ k f i) v) o k := by
  apply (holds_slotContents.set hwf hk hi v).stored hwf
  intro g hg c s hc hs
  have hck : c ≠ k := (hwf.lt_of_mem_take hg hc).ne
  rw [Contents.set_of_ne fun h => hck (Prod.ext_iff.mp h).1]
  exact (stored_length_iff hwf).mp hst c (hwf.mem_sizeFields_of_mem_take hg hc) s hs

theorem exists_setsSlot (hwf : l.WellFormed P.width) (hp : p.Implements P.width l)
    (hread : p.ReadsCounts P l κ o m) (hk : l.fields[k]? = some f) (hi : i < f.length κ) (v : Int) :
    ∃ m', p.SetsSlot P l κ o m k f i v m' := by
  have hst := stored_of_readsCounts hwf hp hread
  have hindex := Field.hasIndex_of_lt hi
  have hbefore : Holds P.width l κ o (slotContents P.width l κ o m.bytes) m m := holds_slotContents
  have hcounts := (stored_length_iff hwf).mp (hst l.fields.length)
  have hafter := hbefore.set hwf hk hi v
  -- Counts are slots of other fields, unless the field is a size field itself.
  have hcounts' (hmem : k ∉ l.sizeFields) : ∀ c ∈ l.sizeFields, ∀ s, l.fields[c]? = some s →
      (slotContents P.width l κ o m.bytes).set k i (f.type.narrow P.width v) c s 0 = κ c := by
    intro c hc s hs
    have hck : c ≠ k := fun h => hmem (h ▸ hc)
    rw [Contents.set_of_ne fun h => hck (Prod.ext_iff.mp h).1]
    exact hcounts c hc s hs
  refine ⟨_, ⟨_, call_setter hwf hp (hst k) hk hindex le_rfl v⟩, ?reads, ?others, ?sizeof⟩
  case reads =>
    have hget := call_getter (m := { m with
      bytes := m.bytes.store P.width f.type (o + l.offset P.width κ k f i) v }) hwf hp
      (stored_set hwf (hst _) hk hi v) hk hindex le_rfl
    rw [Bytes.load_store_self] at hget
    exact ⟨_, hget⟩
  case others =>
    intro hmem j g n hj hn hne
    have hget := hafter.returns_getter hwf hp (hcounts' hmem) hj hn
    rw [Contents.set_of_ne hne] at hget
    exact ⟨_, hbefore.returns_getter hwf hp hcounts hj hn, hget⟩
  case sizeof =>
    intro hmem
    exact ⟨_, ⟨_, call_sizeof hwf hp (hst _) le_rfl⟩,
      ⟨_, call_sizeof hwf hp (hafter.stored_of_counts hwf (hcounts' hmem) _) le_rfl⟩⟩

/-- On every layout of an accepted schema, wherever the getters of all size fields answer with
counts, each slot can be set, to every value. -/
theorem setsSlot_of_resolve {defs : List LayoutDef} {ls : List Layout}
    (h : Schema.resolve P.width defs = .ok ls) (hl : l ∈ ls) :
    ∃ decls, layoutDecls P.width l = .ok decls ∧ ∀ (m : Machine) (o : Int) (κ : Counts),
      (Program.ofDecls P.width decls).ReadsCounts P l κ o m →
        ∀ k f i v, l.fields[k]? = some f → i < f.length κ →
          ∃ m', (Program.ofDecls P.width decls).SetsSlot P l κ o m k f i v m' := by
  have hwf := Schema.wellFormed_of_resolve h hl
  obtain ⟨decls, hdecls, hp⟩ := exists_layoutDecls hwf
  exact ⟨decls, hdecls, fun m o κ hread k f i v hk hi => exists_setsSlot hwf hp hread hk hi v⟩

theorem setsSlot_buffer :
    Schema.resolve .eight [bufferDef none none] = .ok [bufferLayout none none] ∧
      ∃ decls, layoutDecls .eight (bufferLayout none none) = .ok decls ∧
        ∃ f m', (bufferLayout none none).fields[3]? = some f ∧
          (Program.ofDecls .eight decls).SetsSlot examplePlatform (bufferLayout none none)
            (fun _ => 2) 0 { bytes := fun a => if a = 12 then 2 else 0 } 3 f 1 (-1) m' := by
  have hresolve : Schema.resolve examplePlatform.width [bufferDef none none] =
      .ok [bufferLayout none none] := by decide
  obtain ⟨decls, hdecls, hall⟩ :=
    setsSlot_of_resolve hresolve (List.mem_singleton_self (bufferLayout none none))
  have hread : (Program.ofDecls .eight decls).ReadsCounts examplePlatform (bufferLayout none none)
      (fun _ => 2) 0 { bytes := fun a => if a = 12 then 2 else 0 } := by
    intro i hi s hs
    cases List.mem_singleton.mp hi
    cases hs
    cases hdecls
    exact ⟨_, 4, rfl⟩
  obtain ⟨m', hset⟩ := hall _ 0 (fun _ => 2) hread 3 _ 1 (-1) rfl (by decide)
  exact ⟨hresolve, decls, hdecls, _, m', rfl, hset⟩

end HeapLayout.Code
