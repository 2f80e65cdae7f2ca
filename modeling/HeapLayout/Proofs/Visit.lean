import HeapLayout.Proofs.Contents
import HeapLayout.Proofs.SlotOrder

/-!
# Visiting an object

The visit of the collector goes through the traced slots of an object, field by field and element by
element (`tracedSlots`). A single slot is handed to the collector and overwritten with the answer
(`visitSlot`); the generated function does this for all traced slots in turn (`returns_visitGc`).

A visit overwrites slots while it reads counts, values and type tags from the same object. It finds
everything in place because traced slots are visited once and do not overlap, and because neither
counts nor type tags are traced themselves. So the collector is handed what the object held before
the visit, and afterwards every traced slot holds the answer (`visits_of_resolve`).
-/

namespace HeapLayout

/-! ## Slots -/

/-- An element of a field, which is known by its position. -/
structure Slot where
  position : Nat
  field : Field
  index : Nat

namespace Slot

/-- The order of fields, and of elements within a field. -/
def Before (s t : Slot) : Prop :=
  s.position < t.position ∨ s.position = t.position ∧ s.index < t.index

instance : Std.Irrefl Before where
  irrefl s h := by
    rcases h with h | ⟨-, h⟩
    · exact Nat.lt_irrefl _ h
    · exact Nat.lt_irrefl _ h

end Slot

namespace Layout

variable {w : PointerWidth} {l : Layout} {κ : Counts} {s t : Slot}

/-- The object has the slot. -/
structure HasSlot (l : Layout) (κ : Counts) (s : Slot) : Prop where
  field : l.fields[s.position]? = some s.field
  index : s.index < s.field.length κ

theorem HasSlot.eq_of_eq (hs : l.HasSlot κ s) (ht : l.HasSlot κ t)
    (h : (s.position, s.index) = (t.position, t.index)) : s = t := by
  obtain ⟨k, f, i⟩ := s
  obtain ⟨j, g, n⟩ := t
  cases h
  cases hs.field.symm.trans ht.field
  rfl

/-- The slots of a field that is given with its position. -/
def slotsOf (κ : Counts) (f : Field × Nat) : List Slot :=
  (List.range (f.1.length κ)).map (Slot.mk f.2 f.1)

/-- The slots that the collector has to see. -/
def tracedSlots (l : Layout) (κ : Counts) : List Slot :=
  (l.fields.zipIdx.filter fun f => f.1.isTraced).flatMap (slotsOf κ)

/-- The slot of the type tag that belongs to a slot. -/
def typeSlot? (l : Layout) (s : Slot) : Option Slot :=
  s.field.typeField.bind fun i => l.fields[i]?.map fun t => ⟨i, t, s.index⟩

theorem mem_slotsOf {f : Field × Nat} :
    s ∈ slotsOf κ f ↔ s.field = f.1 ∧ s.position = f.2 ∧ s.index < f.1.length κ := by
  obtain ⟨k, g, i⟩ := s
  obtain ⟨g', k'⟩ := f
  simp only [slotsOf, List.mem_map, List.mem_range, Slot.mk.injEq]
  constructor
  · rintro ⟨i, hi, rfl, rfl, rfl⟩
    exact ⟨rfl, rfl, hi⟩
  · rintro ⟨rfl, rfl, hi⟩
    exact ⟨i, hi, rfl, rfl, rfl⟩

/-- Every slot of a reference, and every slot of a word with a type tag, is a traced one. -/
theorem mem_tracedSlots : s ∈ l.tracedSlots κ ↔ l.HasSlot κ s ∧ s.field.isTraced = true := by
  simp only [tracedSlots, List.mem_flatMap, List.mem_filter, List.mem_zipIdx_iff_getElem?,
    mem_slotsOf]
  constructor
  · rintro ⟨f, ⟨hk, htraced⟩, hfield, hposition, hindex⟩
    rw [← hfield] at hk htraced hindex
    rw [← hposition] at hk
    exact ⟨⟨hk, hindex⟩, htraced⟩
  · rintro ⟨⟨hk, hindex⟩, htraced⟩
    exact ⟨(s.field, s.position), ⟨hk, htraced⟩, rfl, rfl, hindex⟩

/-- Traced slots are listed in the order of fields, then of elements. -/
theorem pairwise_tracedSlots : (l.tracedSlots κ).Pairwise Slot.Before := by
  refine List.pairwise_flatMap.mpr ⟨?_, ?_⟩
  · intro f _
    refine List.pairwise_map.mpr (List.pairwise_lt_range.imp ?_)
    intro i j hij
    exact .inr ⟨rfl, hij⟩
  · have hpositions : (l.fields.zipIdx.map Prod.snd).Pairwise (· < ·) := by
      rw [List.zipIdx_map_snd]
      exact List.pairwise_lt_range' 1
    refine ((List.pairwise_map.mp hpositions).filter _).imp ?_
    intro f g hfg s hs t ht
    rw [mem_slotsOf] at hs ht
    left
    rw [hs.2.1, ht.2.1]
    exact hfg

theorem nodup_tracedSlots : (l.tracedSlots κ).Nodup :=
  pairwise_tracedSlots.nodup

/-- A type tag is found at the index of its word. -/
theorem HasSlot.typeSlot? (hwf : l.WellFormed w) (hs : l.HasSlot κ s)
    (ht : l.typeSlot? s = some t) : l.HasSlot κ t := by
  obtain ⟨i, hi, ht⟩ := Option.bind_eq_some_iff.mp ht
  obtain ⟨f, hf, rfl⟩ := Option.map_eq_some_iff.mp ht
  obtain ⟨f', hf', hsame⟩ := hwf.typeField s.field (List.mem_of_getElem? hs.field) i hi
  cases hf.symm.trans hf'
  have hlength : f.length κ = s.field.length κ := by simp only [Field.length, hsame]
  exact ⟨hf, hlength ▸ hs.index⟩

end Layout

namespace Code

open HeapLayout (Layout Field FieldId PointerWidth Counts LayoutDef Slot)
open Accessor
open Schema (bind_eq_ok pure_eq_ok)

variable {w : PointerWidth} {l : Layout} {κ : Counts} {f : Field} {i k n : Nat} {o : Int}
  {env : Env} {m m' : Machine} {p : Program} {P : Platform} {s t : Slot} {slots : List Slot}

/-! ## The visit of a slot -/

/-- What the collector is handed for a slot: its value and, if it has one, its type tag. -/
def collectorArgs (l : Layout) (ρ : Contents) (s : Slot) : List Int :=
  (s :: (l.typeSlot? s).toList).map fun t => ρ t.position t.field t.index

/-- The collector is called for a slot, which is overwritten with the answer. -/
def visitSlot (P : Platform) (l : Layout) (κ : Counts) (o : Int) (m : Machine) (s : Slot) :
    Machine :=
  let args := collectorArgs l (slotContents P.width l κ o m.bytes) s
  { m with
    bytes := m.bytes.store P.width s.field.type
      (o + l.offset P.width κ s.position s.field s.index) (P.forward m args)
    forwarded := m.forwarded ++ [args] }

/-- The address `x` belongs to no byte of the slot. -/
def OutsideSlot (P : Platform) (l : Layout) (κ : Counts) (o : Int) (s : Slot) (x : Int) : Prop :=
  x < o + l.offset P.width κ s.position s.field s.index ∨
    o + l.offset P.width κ s.position s.field s.index + s.field.elemSize ≤ x

/-- Slots that can be visited one after the other: each one once, and none of them a count or the
type tag of another. -/
structure Visitable (l : Layout) (κ : Counts) (slots : List Slot) : Prop where
  nodup : slots.Nodup
  hasSlot : ∀ s ∈ slots, l.HasSlot κ s
  not_count : ∀ s ∈ slots, s.position ∉ l.sizeFields
  not_type : ∀ s ∈ slots, ∀ t, l.typeSlot? s = some t → t ∉ slots

theorem Visitable.sublist {slots' : List Slot} (h : Visitable l κ slots)
    (hsub : slots'.Sublist slots) : Visitable l κ slots' where
  nodup := h.nodup.sublist hsub
  hasSlot s hs := h.hasSlot s (hsub.subset hs)
  not_count s hs := h.not_count s (hsub.subset hs)
  not_type s hs t ht htmem := h.not_type s (hsub.subset hs) t ht (hsub.subset htmem)

theorem visitable_tracedSlots
    (hsizes : ∀ i ∈ l.sizeFields, ∀ s, l.fields[i]? = some s → s.isTraced = false)
    (htypes : ∀ f ∈ l.fields, ∀ i, f.typeField = some i → ∀ t, l.fields[i]? = some t →
      t.isTraced = false) : Visitable l κ (l.tracedSlots κ) := by
  refine ⟨Layout.nodup_tracedSlots, fun s hs => (Layout.mem_tracedSlots.mp hs).1, ?_, ?_⟩
  · intro s hs hmem
    obtain ⟨hslot, htraced⟩ := Layout.mem_tracedSlots.mp hs
    rw [hsizes _ hmem s.field hslot.field] at htraced
    cases htraced
  · intro s hs t ht htmem
    obtain ⟨hslot, -⟩ := Layout.mem_tracedSlots.mp hs
    obtain ⟨htslot, htraced⟩ := Layout.mem_tracedSlots.mp htmem
    obtain ⟨i, hi, hmap⟩ := Option.bind_eq_some_iff.mp ht
    obtain ⟨g, hg, rfl⟩ := Option.map_eq_some_iff.mp hmap
    rw [htypes s.field (List.mem_of_getElem? hslot.field) i hi g hg] at htraced
    cases htraced

/-! ## What a visit leaves alone -/

section Frame

variable (hwf : l.WellFormed P.width)

include hwf

theorem slotContents_visitSlot_of_ne (hs : l.HasSlot κ s) (ht : l.HasSlot κ t) (hne : t ≠ s) :
    slotContents P.width l κ o (visitSlot P l κ o m s).bytes t.position t.field t.index =
      slotContents P.width l κ o m.bytes t.position t.field t.index := by
  have hset := holds_slotContents.set hwf (o := o) (m := m) hs.field hs.index
    (P.forward m (collectorArgs l (slotContents P.width l κ o m.bytes) s))
  refine (hset.load t.position t.field t.index ht.field ht.index).trans (Contents.set_of_ne ?_)
  exact fun h => hne (ht.eq_of_eq hs h)

theorem slotContents_foldl (hslots : ∀ s ∈ slots, l.HasSlot κ s) (ht : l.HasSlot κ t)
    (hmem : t ∉ slots) :
    slotContents P.width l κ o (slots.foldl (visitSlot P l κ o) m).bytes t.position t.field
      t.index = slotContents P.width l κ o m.bytes t.position t.field t.index := by
  induction slots generalizing m with
  | nil => rfl
  | cons s slots ih =>
    obtain ⟨hs, hslots⟩ := List.forall_mem_cons.mp hslots
    obtain ⟨hne, hmem⟩ := not_or.mp (List.mem_cons.not.mp hmem)
    rw [List.foldl_cons, ih hslots hmem, slotContents_visitSlot_of_ne hwf hs ht hne]

theorem collectorArgs_foldl (hslots : ∀ s ∈ slots, l.HasSlot κ s) (ht : l.HasSlot κ t)
    (hmem : t ∉ slots) (htype : ∀ u, l.typeSlot? t = some u → u ∉ slots) :
    collectorArgs l (slotContents P.width l κ o (slots.foldl (visitSlot P l κ o) m).bytes) t =
      collectorArgs l (slotContents P.width l κ o m.bytes) t := by
  refine List.map_congr_left ?_
  intro u hu
  rcases List.mem_cons.mp hu with rfl | hu
  · exact slotContents_foldl hwf hslots ht hmem
  · rw [Option.mem_toList] at hu
    exact slotContents_foldl hwf hslots (ht.typeSlot? hwf hu) (htype u hu)

theorem stored_foldl (hslots : Visitable l κ slots)
    (hst : Stored P.width l κ m.bytes o l.fields.length) :
    Stored P.width l κ (slots.foldl (visitSlot P l κ o) m).bytes o l.fields.length := by
  rw [stored_length_iff hwf] at hst ⊢
  intro c hc s hs
  have hlength : 0 < s.length κ := by
    rw [Field.length_of_none (hwf.sizeField_eq_none hc hs)]
    exact Nat.one_pos
  have hmem : (⟨c, s, 0⟩ : Slot) ∉ slots := fun h => hslots.not_count _ h hc
  rw [← hst c hc s hs]
  exact slotContents_foldl hwf hslots.hasSlot ⟨hs, hlength⟩ hmem

/-- The collector is called once for every slot, in order, with what the object held before. -/
theorem forwarded_foldl (hslots : Visitable l κ slots) :
    (slots.foldl (visitSlot P l κ o) m).forwarded =
      m.forwarded ++ slots.map (collectorArgs l (slotContents P.width l κ o m.bytes)) := by
  -- The last slot finds the machine that the slots before it leave.
  induction slots using List.reverseRecOn with
  | nil => simp
  | append_singleton slots s ih =>
    have hinit := hslots.sublist (List.sublist_append_left slots [s])
    have hs := hslots.hasSlot s (by simp)
    have hmem : s ∉ slots := fun h =>
      (List.nodup_append.mp hslots.nodup).2.2 s h s (by simp) rfl
    have htype : ∀ u, l.typeSlot? s = some u → u ∉ slots := fun u hu h =>
      hslots.not_type s (by simp) u hu (List.mem_append_left _ h)
    have hargs := collectorArgs_foldl (P := P) (o := o) (m := m) hwf hinit.hasSlot hs hmem htype
    rw [List.foldl_append, List.foldl_cons, List.foldl_nil, visitSlot, ih hinit, hargs,
      List.map_append, List.append_assoc]
    rfl

omit hwf in
/-- A byte of one slot is outside of every other one. -/
theorem outsideSlot_of_ne (hs : l.HasSlot κ s) (ht : l.HasSlot κ t) (hne : s ≠ t) {x : Int}
    (hx : ¬OutsideSlot P l κ o t x) : OutsideSlot P l κ o s x := by
  have hdisjoint := Layout.offset_disjoint (w := P.width) hs.field hs.index ht.field ht.index
    fun h => hne (hs.eq_of_eq ht h)
  unfold OutsideSlot at *
  omega

/-- Bytes outside of the visited slots are left alone. -/
theorem bytes_foldl (hslots : ∀ s ∈ slots, l.HasSlot κ s) {x : Int}
    (hx : ∀ s ∈ slots, OutsideSlot P l κ o s x) :
    (slots.foldl (visitSlot P l κ o) m).bytes x = m.bytes x := by
  induction slots generalizing m with
  | nil => rfl
  | cons s slots ih =>
    obtain ⟨hs, hslots⟩ := List.forall_mem_cons.mp hslots
    obtain ⟨houtside, hx⟩ := List.forall_mem_cons.mp hx
    rw [OutsideSlot, hwf.elemSize_eq s.field (List.mem_of_getElem? hs.field)] at houtside
    rw [List.foldl_cons, ih hslots hx]
    exact Bytes.store_of_outside houtside

omit hwf in
theorem regions_foldl : (slots.foldl (visitSlot P l κ o) m).regions = m.regions := by
  induction slots generalizing m with
  | nil => rfl
  | cons s slots ih => exact ih

/-- A visited slot holds what the collector answered when its turn came. -/
theorem slotContents_visited {before after : List Slot}
    (hslots : Visitable l κ (before ++ s :: after)) :
    slotContents P.width l κ o ((before ++ s :: after).foldl (visitSlot P l κ o) m).bytes
        s.position s.field s.index =
      s.field.type.narrow P.width (P.forward (before.foldl (visitSlot P l κ o) m)
        (collectorArgs l (slotContents P.width l κ o m.bytes) s)) := by
  have hs := hslots.hasSlot s (by simp)
  obtain ⟨hbefore, hrest, hdisjoint⟩ := List.nodup_append.mp hslots.nodup
  have hmem : s ∉ before := fun h => hdisjoint s h s (by simp) rfl
  have htype : ∀ u, l.typeSlot? s = some u → u ∉ before := fun u hu h =>
    hslots.not_type s (by simp) u hu (List.mem_append_left _ h)
  have hhas : ∀ t ∈ before, l.HasSlot κ t := fun t ht =>
    hslots.hasSlot t (List.mem_append_left _ ht)
  rw [List.foldl_append, List.foldl_cons,
    slotContents_foldl hwf (fun t ht => hslots.hasSlot t (by simp [ht])) hs
      (List.nodup_cons.mp hrest).1, ← collectorArgs_foldl (P := P) hwf hhas hs hmem htype]
  exact Bytes.load_store_self

end Frame

/-! ## The run of the visit -/

section Run

variable (hwf : l.WellFormed P.width) (hp : p.Implements P.width l)

include hwf hp

/-- The getters of a slot and of its type tag answer with what the collector is handed. -/
theorem evalArgs_forwardArgs (hn : 2 * l.fields.length ≤ n)
    (hst : Stored P.width l κ m.bytes o l.fields.length) (hs : l.HasSlot κ s)
    (henv : SelectsSlot env s.field o s.index) {es : List Expr}
    (hes : forwardArgs l s.field = .ok es) :
    Expr.evalArgs (p.scope P n) env es m = .ok (.context ::
      (collectorArgs l (slotContents P.width l κ o m.bytes) s).map Value.int, m) := by
  have hget {t : Slot} (ht : l.HasSlot κ t) (hselects : SelectsSlot env t.field o t.index) :
      (callGetter l t.field.name (slotArgs t.field)).eval (p.scope P n) env m =
        .ok (slotContents P.width l κ o m.bytes t.position t.field t.index, m) := by
    have hlt := (List.getElem?_eq_some_iff.mp ht.field).1
    exact Expr.eval_invoke_some (evalArgs_slotArgs hselects) (call_getter hwf hp (hst.mono hlt.le)
      ht.field (Field.hasIndex_of_lt ht.index) (by omega))
  unfold forwardArgs at hes
  cases htype : s.field.typeField with
  | none =>
    simp only [htype] at hes
    cases pure_eq_ok.mp hes
    have hnone : l.typeSlot? s = none := by simp [Layout.typeSlot?, htype]
    rw [collectorArgs, hnone]
    exact Expr.evalArgs_context (Expr.evalArgs_cons rfl (hget hs henv) Expr.evalArgs_nil)
  | some i =>
    simp only [htype] at hes
    obtain ⟨t, hbinding, hes⟩ := bind_eq_ok.mp hes
    cases pure_eq_ok.mp hes
    have ht := getElem?_of_binding hbinding
    have hsome : l.typeSlot? s = some ⟨i, t, s.index⟩ := by simp [Layout.typeSlot?, htype, ht]
    obtain ⟨t', ht', hsame⟩ := hwf.typeField s.field (List.mem_of_getElem? hs.field) i htype
    cases ht.symm.trans ht'
    have hvariable : t.isVariable = s.field.isVariable := by simp only [Field.isVariable, hsame]
    have hselects : SelectsSlot env t o s.index :=
      ⟨henv.object, fun h => henv.index (hvariable ▸ h)⟩
    rw [collectorArgs, hsome]
    exact Expr.evalArgs_context (Expr.evalArgs_cons rfl (hget hs henv)
      (Expr.evalArgs_cons rfl (hget (hs.typeSlot? hwf hsome) hselects) Expr.evalArgs_nil))

theorem exec_forwardSlot (hn : 2 * l.fields.length ≤ n)
    (hst : Stored P.width l κ m.bytes o l.fields.length) (hs : l.HasSlot κ s)
    (henv : SelectsSlot env s.field o s.index) {st : Stmt}
    (hforward : forwardSlot l s.field = .ok st) :
    st.exec (p.scope P n) env m = .ok (.next env, visitSlot P l κ o m s) := by
  obtain ⟨es, hes, hforward⟩ := bind_eq_ok.mp hforward
  cases pure_eq_ok.mp hforward
  have hanswer := Expr.eval_gcForward (evalArgs_forwardArgs hwf hp hn hst hs henv hes)
  have hargs (vs : List Int) : (Value.context :: vs.map Value.int).filterMap Value.int? = vs := by
    rw [List.filterMap_cons_none rfl, List.filterMap_map]
    exact List.filterMap_some
  rw [hargs] at hanswer
  have hlt := (List.getElem?_eq_some_iff.mp hs.field).1
  have hdepth : 2 * s.position + 2 ≤ n := by omega
  refine exec_setSlot hwf hp ?_ hs.field (Field.hasIndex_of_lt hs.index) hdepth henv ⟨rfl, hanswer⟩
  exact hst.mono hlt.le

/-- The locals of a visit: the object, and the counts that have been read so far. -/
structure Visiting (l : Layout) (κ : Counts) (o : Int) (read : List String) (env : Env) : Prop where
  object : env Name.object = some o
  count : ∀ i ∈ l.sizeFields, ∀ s, l.fields[i]? = some s → s.name ∈ read →
    env s.name = some (κ i : Int)

omit hp in
/-- A loop counter hides none of the locals. -/
theorem Visiting.set_index {read : List String} (h : Visiting l κ o read env) (v : Int) :
    Visiting l κ o read (env.set Name.index v) := by
  refine ⟨(Env.set_of_ne (by decide) v).trans h.object, ?_⟩
  intro i hi s hs hread
  have hname : s.name ≠ Name.index := hwf.name_ne hs (by decide)
  exact (Env.set_of_ne hname v).trans (h.count i hi s hs hread)

omit hp in
/-- A count that is read goes under the name of its size field. -/
theorem Visiting.set_count {read : List String} (h : Visiting l κ o read env) {c : FieldId}
    {size : Field} (hsize : l.fields[c]? = some size) :
    Visiting l κ o (size.name :: read) (env.set size.name (κ c)) := by
  have hobject : Name.object ≠ size.name := (hwf.name_ne hsize (by decide)).symm
  refine ⟨(Env.set_of_ne hobject _).trans h.object, ?_⟩
  intro i hi s hs hread
  by_cases hname : s.name = size.name
  · rw [hname, Env.set_self, hwf.eq_of_name_eq hs hsize hname]
  · rw [Env.set_of_ne hname]
    exact h.count i hi s hs (List.mem_of_ne_of_mem hname hread)

/-- The slots of an array are visited in a loop. -/
theorem exec_visitLoop (hn : 2 * l.fields.length ≤ n) (hk : l.fields[k]? = some f) {c : FieldId}
    (hc : f.sizeField = some c) {size : Field} (hsize : l.fields[c]? = some size)
    (hslots : Visitable l κ (Layout.slotsOf κ (f, k)))
    (hst : Stored P.width l κ m.bytes o l.fields.length) {read : List String}
    (henv : Visiting l κ o read env) (hread : size.name ∈ read) {st : Stmt}
    (hforward : forwardSlot l f = .ok st) :
    ∃ env', (Stmt.loop Name.index (passedCount size) [st]).exec (p.scope P n) env m =
        .ok (.next env', (Layout.slotsOf κ (f, k)).foldl (visitSlot P l κ o) m) ∧
      Visiting l κ o read env' := by
  have hmem : c ∈ l.sizeFields := hwf.mem_sizeFields_iff.mpr ⟨f, List.mem_of_getElem? hk, hc⟩
  have hbound := Expr.eval_var (S := p.scope P n) (m := m) (henv.count c hmem size hsize hread)
  -- Before counter `i`, the slots below `i` have been visited.
  let visited (i : Nat) : Machine :=
    ((List.range i).map (Slot.mk k f)).foldl (visitSlot P l κ o) m
  have hbody (i : Nat) (env : Env) (m' : Machine) (hi : i < κ c)
      (hinv : Visiting l κ o read env ∧ m' = visited i) :
      ∃ env' m'', Stmt.execAll (p.scope P n) [st] (env.set Name.index i) m' =
        .ok (.next env', m'') ∧ Visiting l κ o read env' ∧ m'' = visited (i + 1) := by
    obtain ⟨henv, rfl⟩ := hinv
    have hi' : i < f.length κ := Field.length_of_some hc ▸ hi
    have hsub : ((List.range i).map (Slot.mk k f)).Sublist (Layout.slotsOf κ (f, k)) :=
      (List.range_sublist.mpr hi'.le).map _
    have hslot := exec_forwardSlot (s := ⟨k, f, i⟩) hwf hp hn
      (stored_foldl hwf (hslots.sublist hsub) hst) ⟨hk, hi'⟩ (.of_index henv.object) hforward
    refine ⟨_, _, Stmt.execAll_single hslot, henv.set_index hwf i, ?_⟩
    simp only [visited, List.range_succ, List.map_append, List.map_singleton, List.foldl_append,
      List.foldl_cons, List.foldl_nil]
  obtain ⟨env', m', hrun, henv', rfl⟩ := Stmt.exec_loop hbound hbody ⟨henv, rfl⟩
  refine ⟨env', ?_, henv'⟩
  rw [Layout.slotsOf, Field.length_of_some hc]
  exact hrun

/-- The statements of a visit go through the slots of their fields, whatever counts are in locals
already. -/
theorem exec_visitFields (hn : 2 * l.fields.length ≤ n) {fs : List (Field × Nat)}
    (hfs : ∀ f ∈ fs, l.fields[f.2]? = some f.1)
    (hslots : Visitable l κ (fs.flatMap (Layout.slotsOf κ)))
    (hst : Stored P.width l κ m.bytes o l.fields.length) {read : List String}
    (henv : Visiting l κ o read env) {ss : List Stmt}
    (hss : visitFields l read (fs.map Prod.fst) = .ok ss) :
    ∃ env', Stmt.execAll (p.scope P n) ss env m =
      .ok (.next env', (fs.flatMap (Layout.slotsOf κ)).foldl (visitSlot P l κ o) m) := by
  induction fs generalizing read env m ss with
  | nil =>
    cases hss
    exact ⟨env, rfl⟩
  | cons f fs ih =>
    obtain ⟨f, k⟩ := f
    obtain ⟨hk, hfs⟩ := List.forall_mem_cons.mp hfs
    rw [List.flatMap_cons] at hslots
    have hhead := hslots.sublist (List.sublist_append_left _ _)
    have hrest := hslots.sublist (List.sublist_append_right _ _)
    have hst' := stored_foldl hwf hhead hst
    rw [List.flatMap_cons, List.foldl_append]
    obtain ⟨st, hforward, hss⟩ := bind_eq_ok.mp hss
    cases hc : f.sizeField with
    | none =>
      simp only [hc] at hss
      obtain ⟨ss', hss', hss⟩ := bind_eq_ok.mp hss
      cases pure_eq_ok.mp hss
      have hsingle : Layout.slotsOf κ (f, k) = [⟨k, f, 0⟩] := by
        rw [Layout.slotsOf, Field.length_of_none hc]
        rfl
      have hhas := hhead.hasSlot _ (hsingle ▸ List.mem_singleton_self _)
      have hslot := exec_forwardSlot hwf hp hn hst hhas (.of_none henv.object hc) hforward
      rw [hsingle] at hst' ⊢
      obtain ⟨env', hrun⟩ := ih hfs hrest hst' henv hss'
      exact ⟨env', (Stmt.execAll_cons hslot).trans hrun⟩
    | some c =>
      simp only [hc] at hss
      obtain ⟨size, hbinding, hss⟩ := bind_eq_ok.mp hss
      have hsize := getElem?_of_binding hbinding
      have hmem : c ∈ l.sizeFields := hwf.mem_sizeFields_iff.mpr ⟨f, List.mem_of_getElem? hk, hc⟩
      split at hss
      · next hread =>
        obtain ⟨ss', hss', hss⟩ := bind_eq_ok.mp hss
        cases pure_eq_ok.mp hss
        obtain ⟨env₁, hloop, henv₁⟩ :=
          exec_visitLoop hwf hp hn hk hc hsize hhead hst henv hread hforward
        obtain ⟨env', hrun⟩ := ih hfs hrest hst' henv₁ hss'
        exact ⟨env', (Stmt.execAll_cons hloop).trans hrun⟩
      · obtain ⟨ss', hss', hss⟩ := bind_eq_ok.mp hss
        cases pure_eq_ok.mp hss
        -- The count is read into a local of its own first.
        have hlt := (List.getElem?_eq_some_iff.mp hsize).1
        have hget := call_getter (n := n) hwf hp (hst.mono hlt.le) hsize (fun _ => rfl) (by omega)
        rw [slotValues_of_none (hwf.sizeField_eq_none hmem hsize),
          (stored_length_iff hwf).mp hst c hmem size hsize] at hget
        have hcount : (storedCount l size).eval (p.scope P n) env m = .ok ((κ c : Int), m) :=
          eval_storedCount henv.object hget
        have hbind := Stmt.exec_bind (x := size.name) (p := offsetType) hcount
        obtain ⟨env₁, hloop, henv₁⟩ := exec_visitLoop hwf hp hn hk hc hsize hhead hst
          (henv.set_count hwf hsize) List.mem_cons_self hforward
        obtain ⟨env', hrun⟩ := ih hfs hrest hst' henv₁ hss'
        exact ⟨env', (Stmt.execAll_cons hbind).trans ((Stmt.execAll_cons hloop).trans hrun)⟩

/-- The visit of an object goes through its traced slots. -/
theorem returns_visitGc (hslots : Visitable l κ (l.tracedSlots κ))
    (hst : Stored P.width l κ m.bytes o l.fields.length) :
    p.Returns P (Name.visitGc l.name) [.context, .int o] m none
      ((l.tracedSlots κ).foldl (visitSlot P l κ o) m) := by
  obtain ⟨g, hg, hfind⟩ := hp.visitGc
  obtain ⟨body, hbody, hg⟩ := bind_eq_ok.mp hg
  cases pure_eq_ok.mp hg
  have hfields : (l.fields.zipIdx.filter fun f => f.1.isTraced).map Prod.fst =
      l.fields.filter (·.isTraced) := by
    conv_rhs => rw [← List.zipIdx_map_fst 0 l.fields, List.filter_map]
    rfl
  rw [← hfields] at hbody
  have henv : Visiting l κ o [] (Env.set (fun _ => none) Name.object o) :=
    ⟨Env.set_self _ _ _, fun _ _ _ _ h => by simp at h⟩
  obtain ⟨env', hrun⟩ := exec_visitFields hwf hp (n := 2 * l.fields.length) le_rfl
    (fun f hf => List.mem_zipIdx_iff_getElem?.mp (List.mem_of_mem_filter hf)) hslots hst henv hbody
  refine ⟨2 * l.fields.length + 1, ?_⟩
  rw [Program.call_succ hfind]
  exact Function.run_of_next rfl hrun

end Run

/-! ## The effect of the visit -/

/-- The collector is handed what the getter of the slot answers and, if the field has a type field,
what the getter of that one answers at the same index. -/
def Program.HandsOver (p : Program) (P : Platform) (l : Layout) (o : Int) (m : Machine) (s : Slot)
    (args : List Int) : Prop :=
  ∃ v, p.Returns P (Name.getter l.name s.field.name) (slotValues s.field o s.index) m (some v) m ∧
    match s.field.typeField with
    | none => args = [v]
    | some i => ∃ t tag, l.fields[i]? = some t ∧
      p.Returns P (Name.getter l.name t.name) (slotValues t o s.index) m (some tag) m ∧
        args = [v, tag]

/-- The machine in the middle of a visit from `m` to `m'` when the collector is called for slot
number `j`: the slots before it hold their answers already, everything else is as it was. -/
structure CalledOn (P : Platform) (l : Layout) (κ : Counts) (o : Int) (m : Machine)
    (calls : List (List Int)) (m' : Machine) (j : Nat) (now : Machine) : Prop where
  forwarded : now.forwarded = m.forwarded ++ calls.take j
  regions : now.regions = m.regions
  visited : ∀ t ∈ (l.tracedSlots κ).take j, ∀ x, ¬OutsideSlot P l κ o t x →
    now.bytes x = m'.bytes x
  rest : ∀ x, (∀ t ∈ (l.tracedSlots κ).take j, OutsideSlot P l κ o t x) →
    now.bytes x = m.bytes x

/-- The visit of the object at `o` leads from `m` to `m'`, calling the collector with `calls`. -/
structure Program.Visits (p : Program) (P : Platform) (l : Layout) (κ : Counts) (o : Int)
    (m : Machine) (calls : List (List Int)) (m' : Machine) : Prop where
  returns : p.Returns P (Name.visitGc l.name) [.context, .int o] m none m'
  forwarded : m'.forwarded = m.forwarded ++ calls
  /-- There is one call for every traced slot, in order, with what `m` holds. -/
  handsOver : List.Forall₂ (p.HandsOver P l o m) (l.tracedSlots κ) calls
  /-- A traced slot holds the answer to its call, cut to the kind of its field. -/
  answers : ∀ (j : Nat) s args, (l.tracedSlots κ)[j]? = some s → calls[j]? = some args →
    ∃ now, CalledOn P l κ o m calls m' j now ∧
      p.Returns P (Name.getter l.name s.field.name) (slotValues s.field o s.index) m'
        (some (s.field.type.narrow P.width (P.forward now args))) m'
  unchanged : ∀ x, (∀ s ∈ l.tracedSlots κ, OutsideSlot P l κ o s x) → m'.bytes x = m.bytes x
  regions : m'.regions = m.regions

section Effect

variable (hwf : l.WellFormed P.width)

include hwf

/-- Every slot that the object has is read by its getter. -/
theorem returns_slot (hp : p.Implements P.width l)
    (hst : Stored P.width l κ m.bytes o l.fields.length) (hs : l.HasSlot κ s) :
    p.Returns P (Name.getter l.name s.field.name) (slotValues s.field o s.index) m
      (some (slotContents P.width l κ o m.bytes s.position s.field s.index)) m :=
  holds_slotContents.returns_getter hwf hp ((stored_length_iff hwf).mp hst) hs.field hs.index

theorem handsOver_collectorArgs (hp : p.Implements P.width l)
    (hst : Stored P.width l κ m.bytes o l.fields.length) (hs : l.HasSlot κ s) :
    p.HandsOver P l o m s (collectorArgs l (slotContents P.width l κ o m.bytes) s) := by
  refine ⟨_, returns_slot hwf hp hst hs, ?_⟩
  cases htype : s.field.typeField with
  | none =>
    have hnone : l.typeSlot? s = none := by simp [Layout.typeSlot?, htype]
    simp [collectorArgs, hnone]
  | some i =>
    obtain ⟨t, ht, -⟩ := hwf.typeField s.field (List.mem_of_getElem? hs.field) i htype
    have hsome : l.typeSlot? s = some ⟨i, t, s.index⟩ := by simp [Layout.typeSlot?, htype, ht]
    exact ⟨t, _, ht, returns_slot hwf hp hst (hs.typeSlot? hwf hsome),
      by simp [collectorArgs, hsome]⟩

/-- The slots before leave the machine that the collector is called on. -/
theorem calledOn_foldl (hslots : Visitable l κ (l.tracedSlots κ)) (j : Nat) :
    CalledOn P l κ o m
      ((l.tracedSlots κ).map (collectorArgs l (slotContents P.width l κ o m.bytes)))
      ((l.tracedSlots κ).foldl (visitSlot P l κ o) m) j
      (((l.tracedSlots κ).take j).foldl (visitSlot P l κ o) m) := by
  have hbefore := hslots.sublist (List.take_sublist j _)
  have hbehind := hslots.sublist (List.drop_sublist j _)
  refine ⟨?forwarded, regions_foldl, ?visited, fun x hx => bytes_foldl hwf hbefore.hasSlot hx⟩
  case forwarded => rw [forwarded_foldl hwf hbefore, List.map_take]
  case visited =>
    intro t ht x hx
    have hnodup := hslots.nodup
    rw [← List.take_append_drop j (l.tracedSlots κ)] at hnodup
    conv_rhs => rw [← List.take_append_drop j (l.tracedSlots κ), List.foldl_append]
    refine (bytes_foldl hwf hbehind.hasSlot ?_).symm
    intro u hu
    have hne : u ≠ t := ((List.nodup_append.mp hnodup).2.2 t ht u hu).symm
    exact outsideSlot_of_ne (hbehind.hasSlot u hu) (hbefore.hasSlot t ht) hne hx

/-- After the visit a slot holds the answer to the call that was made for it. -/
theorem slotContents_tracedSlots (hslots : Visitable l κ (l.tracedSlots κ)) {j : Nat}
    (hs : (l.tracedSlots κ)[j]? = some s) :
    slotContents P.width l κ o ((l.tracedSlots κ).foldl (visitSlot P l κ o) m).bytes
        s.position s.field s.index =
      s.field.type.narrow P.width
        (P.forward (((l.tracedSlots κ).take j).foldl (visitSlot P l κ o) m)
          (collectorArgs l (slotContents P.width l κ o m.bytes) s)) := by
  have hsplit : l.tracedSlots κ =
      (l.tracedSlots κ).take j ++ s :: (l.tracedSlots κ).drop (j + 1) := by
    conv_lhs => rw [← List.take_append_drop j (l.tracedSlots κ),
      List.drop_eq_getElem?_toList_append, hs]
    rfl
  rw [hsplit] at hslots
  have hvisited := slotContents_visited (o := o) (m := m) hwf hslots
  rwa [← hsplit] at hvisited

/-- The visit of the traced slots has the effect that a single call at a time has. -/
theorem visits_of_stored (hp : p.Implements P.width l)
    (hslots : Visitable l κ (l.tracedSlots κ))
    (hst : Stored P.width l κ m.bytes o l.fields.length) :
    p.Visits P l κ o m
      ((l.tracedSlots κ).map (collectorArgs l (slotContents P.width l κ o m.bytes)))
      ((l.tracedSlots κ).foldl (visitSlot P l κ o) m) := by
  refine ⟨returns_visitGc hwf hp hslots hst, forwarded_foldl hwf hslots, ?handsOver, ?answers,
    fun x hx => bytes_foldl hwf hslots.hasSlot hx, regions_foldl⟩
  case handsOver =>
    rw [List.forall₂_map_right_iff, List.forall₂_same]
    intro s hs
    exact handsOver_collectorArgs hwf hp hst (hslots.hasSlot s hs)
  case answers =>
    intro j s args hs hargs
    rw [List.getElem?_map, hs, Option.map_some, Option.some.injEq] at hargs
    subst hargs
    have hget := returns_slot hwf hp (stored_foldl hwf hslots hst)
      (hslots.hasSlot s (List.mem_of_getElem? hs))
    rw [slotContents_tracedSlots hwf hslots hs] at hget
    exact ⟨_, calledOn_foldl hwf hslots j, hget⟩

end Effect

/-- On every layout of an accepted schema none of whose size fields and type fields is traced
itself, wherever the getters of all size fields answer with counts, the object can be visited,
whatever the collector answers. -/
theorem visits_of_resolve {defs : List LayoutDef} {ls : List Layout}
    (h : Schema.resolve P.width defs = .ok ls) (hl : l ∈ ls)
    (hsizes : ∀ i ∈ l.sizeFields, ∀ s, l.fields[i]? = some s → s.isTraced = false)
    (htypes : ∀ f ∈ l.fields, ∀ i, f.typeField = some i → ∀ t, l.fields[i]? = some t →
      t.isTraced = false) :
    ∃ decls, layoutDecls P.width l = .ok decls ∧ ∀ (m : Machine) (o : Int) (κ : Counts),
      (Program.ofDecls P.width decls).ReadsCounts P l κ o m →
        ∃ calls m', (Program.ofDecls P.width decls).Visits P l κ o m calls m' := by
  have hwf := Schema.wellFormed_of_resolve h hl
  obtain ⟨decls, hdecls, hp⟩ := exists_layoutDecls hwf
  refine ⟨decls, hdecls, ?_⟩
  intro m o κ hread
  exact ⟨_, _, visits_of_stored hwf hp (visitable_tracedSlots hsizes htypes)
    (stored_of_readsCounts hwf hp hread _)⟩

/-! ### An array of tagged words -/

/-- An array of words in front of the array of their type tags. -/
def wordsDef : LayoutDef where
  name := "vec"
  category := "plain"
  fields := [{ name := "n", type := .uint32 },
    { name := "words", type := .uint64, sizeField := some "n", typeField := some "kinds" },
    { name := "kinds", type := .uint8, sizeField := some "n" }]

def wordsLayout : Layout where
  id := 0
  name := "vec"
  category := "plain"
  fields := [
    { name := "next", type := .refptr, elemSize := 8, init := some .null, align := .static 0,
      staticOffset := some 0 },
    { name := "tag", type := .uint32, elemSize := 4, init := some (.int 0), align := .static 0,
      staticOffset := some 8 },
    { name := "n", type := .uint32, elemSize := 4, align := .static 0, staticOffset := some 12 },
    { name := "words", type := .uint64, elemSize := 8, sizeField := some 2, typeField := some 4,
      align := .static 0, staticOffset := some 16 },
    { name := "kinds", type := .uint8, elemSize := 1, sizeField := some 2, align := .static 0 }]
  sizeFields := [2]

theorem visits_words :
    Schema.resolve .eight [wordsDef] = .ok [wordsLayout] ∧
      ∃ decls, layoutDecls .eight wordsLayout = .ok decls ∧
        ∃ calls m', (Program.ofDecls .eight decls).Visits examplePlatform wordsLayout (fun _ => 2) 0
          { bytes := fun a => if a = 12 then 2 else 0 } calls m' ∧ calls.length = 3 := by
  have hresolve : Schema.resolve examplePlatform.width [wordsDef] = .ok [wordsLayout] := by decide
  obtain ⟨decls, hdecls, hall⟩ :=
    visits_of_resolve hresolve (List.mem_singleton_self wordsLayout) (by decide) (by decide)
  have hread : (Program.ofDecls .eight decls).ReadsCounts examplePlatform wordsLayout (fun _ => 2) 0
      { bytes := fun a => if a = 12 then 2 else 0 } := by
    intro i hi s hs
    cases List.mem_singleton.mp hi
    cases hs
    cases hdecls
    exact ⟨_, 4, rfl⟩
  obtain ⟨calls, m', hvisits⟩ := hall _ 0 (fun _ => 2) hread
  exact ⟨hresolve, decls, hdecls, calls, m', hvisits, hvisits.handsOver.length_eq.symm⟩

end Code

end HeapLayout
