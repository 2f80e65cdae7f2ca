import HeapLayout.Proofs.Contents
import HeapLayout.Proofs.SlotOrder

/-!
# Allocation

The allocation function places a region of the size for the given counts, which is filled with
zeros, writes the counts, and then every initial value that is not zero (`returns_alloc`). If no
size field has such an initial value, the new object holds its counts, its initial values and
otherwise zeros (`allocates_of_resolve`).

A size field with an initial value is written twice. The count that the object was allocated with is
lost unless the initial value is that count, and from then on all later fields are looked for in
other places (`keepsCounts_of_resolve`). The way back is proved for size fields that cannot be
negative: what is written after such a field lies behind it. A negative count leads in front of it,
where a later write may happen to restore the count (`keepsCounts_restored`).
-/

namespace HeapLayout.Code

open HeapLayout (Layout Field FieldId PointerWidth Counts InitConst LayoutDef)
open Accessor
open Schema (bind_eq_ok pure_eq_ok)

variable {l : Layout} {κ : Counts} {f s : Field} {i k n : Nat} {o : Int} {env : Env}
  {m₀ m m' : Machine} {p : Program} {P : Platform}

/-! ## The run of the allocation function -/

/-- Where a new object is placed. -/
def newObject (P : Platform) (l : Layout) (κ : Counts) (m : Machine) : Int :=
  P.place m (l.size P.width κ)

/-- The machine with the region of a new object, before anything is written. -/
def withRegion (P : Platform) (l : Layout) (κ : Counts) (m : Machine) : Machine :=
  { m with regions := m.regions ++
      [{ base := newObject P l κ m, size := l.size P.width κ, category := l.category }] }

/-- A fresh object holds zeros. -/
theorem holds_of_clear (hwf : l.WellFormed P.width) :
    Holds P.width l κ (newObject P l κ m) (countContents [] κ) (withRegion P l κ m)
      { withRegion P l κ m with
        bytes := m.bytes.clear (newObject P l κ m) (l.size P.width κ) } := by
  refine ⟨?_, fun x hx => Bytes.clear_of_outside hx, rfl, rfl⟩
  intro k f i hk hi
  apply Bytes.load_of_zero
  intro x hx hx'
  apply Bytes.clear_of_inside
  have hinside := Layout.offset_add_le_size (w := P.width) hk hi
  rw [hwf.elemSize_eq f (List.mem_of_getElem? hk)] at hinside
  omega

/-- An allocation starts with a region for the new object, and then writes one count after the
other. -/
theorem exec_startAlloc (hwf : l.WellFormed P.width) (hp : p.Implements P.width l)
    (hrep : Representable P.width l κ) {sizes : List Field}
    (hrel : List.Forall₂ (fun i s => l.fields[i]? = some s) l.sizeFields sizes)
    (hcounts : ∀ i ∈ l.sizeFields, ∀ s, l.fields[i]? = some s → env s.name = some (κ i : Int))
    (hn : 2 * l.fields.length + 1 ≤ n) (q : Nat) :
    ∃ env' m', Stmt.execAll (p.scope P n) (.bind Name.object .refptr
        (.alloc (.invoke (Name.compSize l.name) (sizes.map passedCount)) l.category) ::
          (sizes.take q).map (writeCount l)) env m = .ok (.next env', m') ∧
      Allocating l κ (newObject P l κ m) env' ∧
      Holds P.width l κ (newObject P l κ m) (countContents (l.sizeFields.take q) κ)
        (withRegion P l κ m) m' := by
  have hargs : Expr.evalArgs (p.scope P n) env (sizes.map passedCount) m =
      .ok (countValues l κ, m) :=
    Expr.evalArgs_map hrel (fun _ => rfl) fun i hi s hs => Expr.eval_var (hcounts i hi s hs)
  have hsize := Expr.eval_invoke_some hargs (call_compSize hwf hp (by omega : 1 ≤ n))
  have hbindObject := Stmt.exec_bind (x := Name.object) (p := .refptr)
    (Expr.eval_alloc hsize l.category)
  have henv : Allocating l κ (newObject P l κ m) (env.set Name.object (newObject P l κ m)) := by
    refine ⟨Env.set_self _ _ _, ?_⟩
    intro i hi s hs
    have hname : s.name ≠ Name.object := hwf.name_ne hs (by decide)
    exact (Env.set_of_ne hname _).trans (hcounts i hi s hs)
  have hstart : [] ++ l.sizeFields.take q <+: l.sizeFields := List.take_prefix q _
  obtain ⟨m', hrun, hm'⟩ := exec_writeCounts (n := n) hwf hp hrep (by omega) henv
    (List.forall₂_take q hrel) hstart (holds_of_clear hwf)
  exact ⟨_, m', (Stmt.execAll_cons hbindObject).trans hrun, henv, hm'⟩

/-- The allocation function returns the new object, after all counts and initial values have been
written. -/
theorem returns_alloc (hwf : l.WellFormed P.width) (hp : p.Implements P.width l)
    (hrep : Representable P.width l κ) {J : Nat → Nat → Machine → Prop}
    (hcarries : ∀ k f, l.fields[k]? = some f → CarriesInit P l κ (newObject P l κ m) J k f)
    (hstart : ∀ m₁, Holds P.width l κ (newObject P l κ m) (countContents l.sizeFields κ)
      (withRegion P l κ m) m₁ → J 0 0 m₁) :
    ∃ m', p.Returns P (Name.alloc l.name) (.context :: countValues l κ) m
      (some (newObject P l κ m)) m' ∧ J l.fields.length 0 m' := by
  obtain ⟨g, hg, hfind⟩ := hp.alloc
  obtain ⟨sizes, hsizes, hg⟩ := bind_eq_ok.mp hg
  have hrel := forall₂_of_sizeFields hsizes
  obtain ⟨inits, hinits, hg⟩ := bind_eq_ok.mp hg
  cases pure_eq_ok.mp hg
  obtain ⟨env, hbind, hcounts, -⟩ :=
    exists_bindParams_counts (κ := κ) hwf hrel hwf.nodup_sizeFields (fun _ => none)
  let n := 2 * l.fields.length + 1
  obtain ⟨env₁, m₁, hrun₁, henv₁, hm₁⟩ :=
    exec_startAlloc (n := n) hwf hp hrep hrel hcounts le_rfl l.sizeFields.length
  rw [List.take_length] at hm₁
  rw [hrel.length_eq, List.take_length] at hrun₁
  obtain ⟨env₂, m₂, hrun₂, henv₂, hJ⟩ := exec_writeInits hwf hp (Nat.le_succ _) henv₁ hcarries
    (Nat.zero_le _) rfl hinits (hstart m₁ hm₁)
  refine ⟨m₂, ⟨n + 1, ?_⟩, hJ⟩
  rw [Program.call_succ hfind]
  have hinit := (Stmt.execAll_append hrun₁).trans hrun₂
  exact Function.run_of_returned hbind
    ((Stmt.execAll_append hinit).trans (Stmt.execAll_ret (Expr.eval_var henv₂.object)))

/-! ## Contents while initial values are written -/

/-- What the slots of a field hold after allocation. -/
def initialValue (P : Platform) (l : Layout) (κ : Counts) (k : Nat) (f : Field) : Int :=
  match nonzeroInit? f with
  | some c => f.type.narrow P.width (P.initValue c)
  | none => if k ∈ l.sizeFields then κ k else 0

/-- The contents once the initial values of `k` fields and of `i` slots of the next one are
written. -/
def initContents (P : Platform) (l : Layout) (κ : Counts) (k i : Nat) : Contents :=
  fun j f n => if j < k ∨ (j = k ∧ n < i) then initialValue P l κ j f
    else countContents l.sizeFields κ j f n

/-- The initial value of a size field, if it has one that is not zero, is its count. -/
def InitIsCount (P : Platform) (l : Layout) (κ : Counts) (i : FieldId) : Prop :=
  ∀ s c, l.fields[i]? = some s → nonzeroInit? s = some c →
    s.type.narrow P.width (P.initValue c) = κ i

theorem initialValue_of_initIsCount (hi : i ∈ l.sizeFields) (h : InitIsCount P l κ i)
    (hs : l.fields[i]? = some s) : initialValue P l κ i s = κ i := by
  cases hc : nonzeroInit? s with
  | none => simp only [initialValue, hc, if_pos hi]
  | some c => simp only [initialValue, hc, h s c hs hc]

/-- As long as no initial value has changed a count, writes go where they should. -/
theorem carriesInit_initContents (hwf : l.WellFormed P.width) (hk : l.fields[k]? = some f)
    (hinits : ∀ i ∈ l.sizeFields, i < k → InitIsCount P l κ i) :
    CarriesInit P l κ o (fun k i => Holds P.width l κ o (initContents P l κ k i) m₀) k f := by
  refine ⟨?_, ?_, ?_⟩
  · intro hnone m h
    apply h.congr
    intro j g n hj hn
    by_cases hjk : j = k
    · subst hjk
      cases hj.symm.trans hk
      rw [initContents, initContents, if_pos (by omega), if_neg (by omega), initialValue, hnone,
        countContents]
    · exact if_congr (by omega) rfl rfl
  · intro c hc i hi m h
    refine ⟨κ, ?_, ?_⟩
    · apply h.stored hwf
      intro g hg d s hd hs
      have hdk := hwf.lt_of_mem_take hg hd
      have hmem := hwf.mem_sizeFields_of_mem_take hg hd
      rw [initContents, if_pos (.inl hdk), initialValue_of_initIsCount hmem (hinits d hmem hdk) hs]
    · apply h.store hwf hk hi
      · rw [initContents, if_pos (by omega), initialValue, hc]
      · intro j g n hj hn hne
        have hnotself : ¬(j = k ∧ n = i) := fun heq => hne (by rw [heq.1, heq.2])
        exact if_congr (by omega) rfl rfl
  · intro c hc m h
    apply h.congr
    intro j g n hj hn
    by_cases hjk : j = k
    · subst hjk
      cases hj.symm.trans hk
      exact if_congr (by omega) rfl rfl
    · exact if_congr (by omega) rfl rfl

/-- If initial values agree with the counts, the new object holds its counts and initial values. -/
theorem exists_holds_initialValue (hwf : l.WellFormed P.width) (hp : p.Implements P.width l)
    (hrep : Representable P.width l κ) (hinits : ∀ i ∈ l.sizeFields, InitIsCount P l κ i)
    (m : Machine) :
    ∃ m', p.Returns P (Name.alloc l.name) (.context :: countValues l κ) m
        (some (newObject P l κ m)) m' ∧
      Holds P.width l κ (newObject P l κ m) (fun k f _ => initialValue P l κ k f)
        (withRegion P l κ m) m' := by
  obtain ⟨m', hreturns, hholds⟩ := returns_alloc (m := m)
    (J := fun k i => Holds P.width l κ (newObject P l κ m) (initContents P l κ k i)
      (withRegion P l κ m)) hwf hp hrep
    (fun k f hk => carriesInit_initContents hwf hk fun i hi _ => hinits i hi)
    (fun m₁ h₁ => h₁.congr fun j g n _ _ => if_neg (by omega))
  refine ⟨m', hreturns, hholds.congr ?_⟩
  intro k f i hk _
  have hlt := (List.getElem?_eq_some_iff.mp hk).1
  rw [initContents, if_pos (.inl hlt)]

/-! ## Objects without initial counts -/

/-- What allocation does if it leaves the counts alone: the object has a region of its own, nothing
else is written, and every slot reads as its count, its initial value or zero. -/
structure Program.Allocates (p : Program) (P : Platform) (l : Layout) (κ : Counts) (m : Machine)
    (o : Int) (m' : Machine) : Prop where
  returns : p.Returns P (Name.alloc l.name) (.context :: countValues l κ) m (some o) m'
  region : ∃ size : Nat, p.Returns P (Name.compSize l.name) (countValues l κ) m (some size) m ∧
    m'.regions = m.regions ++ [{ base := o, size, category := l.category }] ∧
    ∀ x, x < o ∨ o + size ≤ x → m'.bytes x = m.bytes x
  counts : ∀ i ∈ l.sizeFields, ∀ s, l.fields[i]? = some s →
    p.Returns P (Name.getter l.name s.name) [.int o] m' (some (κ i)) m'
  inits : ∀ (k : Nat) (f : Field) (c : InitConst) (i : Nat), l.fields[k]? = some f →
    nonzeroInit? f = some c → i < f.length κ →
    p.Returns P (Name.getter l.name f.name) (slotValues f o i) m'
      (some (f.type.narrow P.width (P.initValue c))) m'
  zeros : ∀ (k : Nat) (f : Field) (i : Nat), l.fields[k]? = some f → k ∉ l.sizeFields →
    nonzeroInit? f = none → i < f.length κ →
    p.Returns P (Name.getter l.name f.name) (slotValues f o i) m' (some 0) m'

theorem allocates_of_holds (hwf : l.WellFormed P.width) (hp : p.Implements P.width l)
    (hnone : ∀ i ∈ l.sizeFields, ∀ s, l.fields[i]? = some s → nonzeroInit? s = none)
    (hreturns : p.Returns P (Name.alloc l.name) (.context :: countValues l κ) m
      (some (newObject P l κ m)) m')
    (h : Holds P.width l κ (newObject P l κ m) (fun k f _ => initialValue P l κ k f)
      (withRegion P l κ m) m') : p.Allocates P l κ m (newObject P l κ m) m' := by
  have hcount : ∀ i ∈ l.sizeFields, ∀ s, l.fields[i]? = some s →
      initialValue P l κ i s = κ i := by
    intro i hi s hs
    rw [initialValue, hnone i hi s hs]
    exact if_pos hi
  refine ⟨hreturns, ⟨l.size P.width κ, ⟨1, call_compSize hwf hp le_rfl⟩, h.regions, h.outside⟩,
    ?_, ?_, ?_⟩
  · intro i hi s hs
    exact h.returns_count hwf hp hcount hi hs
  · intro k f c i hk hc hi
    have hget := h.returns_getter hwf hp hcount hk hi
    rwa [initialValue, hc] at hget
  · intro k f i hk hmem hc hi
    have hget := h.returns_getter hwf hp hcount hk hi
    rw [initialValue, hc] at hget
    rwa [if_neg hmem] at hget

/-- On every layout of an accepted schema none of whose size fields has a non-zero initial value,
allocation with representable counts returns an object with these counts. -/
theorem allocates_of_resolve {defs : List LayoutDef} {ls : List Layout}
    (h : Schema.resolve P.width defs = .ok ls) (hl : l ∈ ls)
    (hnone : ∀ i ∈ l.sizeFields, ∀ s, l.fields[i]? = some s → nonzeroInit? s = none) :
    ∃ decls, layoutDecls P.width l = .ok decls ∧
      ∀ κ, Representable P.width l κ → ∀ m, ∃ o m',
        (Program.ofDecls P.width decls).Allocates P l κ m o m' := by
  have hwf := Schema.wellFormed_of_resolve h hl
  obtain ⟨decls, hdecls, hp⟩ := exists_layoutDecls hwf
  refine ⟨decls, hdecls, ?_⟩
  intro κ hrep m
  have hinits : ∀ i ∈ l.sizeFields, InitIsCount P l κ i := by
    intro i hi s c hs hc
    rw [hnone i hi s hs] at hc
    cases hc
  obtain ⟨m', hreturns, hholds⟩ := exists_holds_initialValue hwf hp hrep hinits m
  exact ⟨_, m', allocates_of_holds hwf hp hnone hreturns hholds⟩

theorem allocates_buffer :
    Schema.resolve .eight [bufferDef none (some (.int 5))] = .ok [bufferLayout none (some (.int 5))] ∧
      ∃ decls, layoutDecls .eight (bufferLayout none (some (.int 5))) = .ok decls ∧
        ∃ o m', (Program.ofDecls .eight decls).Allocates examplePlatform
          (bufferLayout none (some (.int 5))) (fun _ => 3) { bytes := fun _ => 1 } o m' := by
  have hresolve : Schema.resolve examplePlatform.width [bufferDef none (some (.int 5))] =
      .ok [bufferLayout none (some (.int 5))] := by decide
  obtain ⟨decls, hdecls, hall⟩ :=
    allocates_of_resolve hresolve (List.mem_singleton_self _) fun i hi s hs => by
      cases List.mem_singleton.mp hi
      cases hs
      rfl
  refine ⟨hresolve, decls, hdecls, hall _ ?_ _⟩
  intro i hi s hs
  cases List.mem_singleton.mp hi
  cases hs
  rfl

/-! ## Counts that are kept -/

/-- Allocation returns an object of the size for the given counts, whose size fields read as these
counts. -/
def Program.KeepsCounts (p : Program) (P : Platform) (l : Layout) (κ : Counts) (m : Machine) :
    Prop :=
  ∃ o m', p.Returns P (Name.alloc l.name) (.context :: countValues l κ) m (some o) m' ∧
    (∃ size, p.Returns P (Name.sizeof l.name) [.int o] m' (some size) m' ∧
      p.Returns P (Name.compSize l.name) (countValues l κ) m' (some size) m') ∧
    p.ReadsCounts P l κ o m'

theorem keepsCounts_of_initIsCount (hwf : l.WellFormed P.width) (hp : p.Implements P.width l)
    (hrep : Representable P.width l κ) (hinits : ∀ i ∈ l.sizeFields, InitIsCount P l κ i)
    (m : Machine) : p.KeepsCounts P l κ m := by
  obtain ⟨m', hreturns, h⟩ := exists_holds_initialValue hwf hp hrep hinits m
  have hcount : ∀ i ∈ l.sizeFields, ∀ s, l.fields[i]? = some s →
      initialValue P l κ i s = κ i :=
    fun i hi s hs => initialValue_of_initIsCount hi (hinits i hi) hs
  have hst := h.stored_of_counts hwf hcount l.fields.length
  refine ⟨_, m', hreturns, ⟨_, ⟨_, call_sizeof hwf hp hst le_rfl⟩,
    ⟨1, call_compSize hwf hp le_rfl⟩⟩, ?_⟩
  intro i hi s hs
  exact ⟨m', h.returns_count hwf hp hcount hi hs⟩

/-! ### A count that is lost -/

/-- The size field `s` at position `b` holds `v`, and the counts before it are stored. -/
def Lost (P : Platform) (l : Layout) (κ : Counts) (o : Int) (b : Nat) (s : Field) (v : Int)
    (m : Machine) : Prop :=
  Stored P.width l κ m.bytes o b ∧ m.bytes.load P.width s.type (o + l.offset P.width κ b s 0) = v

/-- Writes behind a size field do not change what it holds. -/
theorem Lost.store (hwf : l.WellFormed P.width) {b : Nat} {v : Int} (h : Lost P l κ o b s v m)
    (hb : l.fields[b]? = some s) (hnone : s.sizeField = none) {q : Prim} {a x : Int}
    (ha : o + Layout.endOf P.width κ 0 (l.fields.take (b + 1)) ≤ a) :
    Lost P l κ o b s v { m with bytes := m.bytes.store P.width q a x } := by
  -- Every word in question ends before the written one starts.
  have hword {i : Nat} {t : Field} (hi : i ≤ b) (ht : l.fields[i]? = some t)
      (htnone : t.sizeField = none) :
      (m.bytes.store P.width q a x).load P.width t.type (o + l.offset P.width κ i t 0) =
        m.bytes.load P.width t.type (o + l.offset P.width κ i t 0) := by
    apply Bytes.load_store_of_disjoint
    have hend := Layout.offset_add_le (w := P.width) (κ := κ) ht
      (Field.length_of_none htnone ▸ Nat.one_pos)
    have hmono := Layout.endOf_take_mono (w := P.width) (κ := κ) (l := l) (Nat.succ_le_succ hi)
    rw [hwf.elemSize_eq t (List.mem_of_getElem? ht)] at hend
    simp only [Nat.succ_eq_add_one] at hmono
    omega
  refine ⟨?_, ?_⟩
  · intro f hf i t hi ht
    have hib := hwf.lt_of_mem_take hf hi
    have htnone := hwf.sizeField_eq_none (hwf.mem_sizeFields_of_mem_take hf hi) ht
    rw [hword hib.le ht htnone]
    exact h.1 f hf i t hi ht
  · rw [hword le_rfl hb hnone]
    exact h.2

/-- What counts before a size field say about the places behind it does not depend on other
counts. -/
theorem Lost.endOf_le (hwf : l.WellFormed P.width) {b : Nat} {v : Int} {κ' : Counts}
    (h : Lost P l κ o b s v m) (hb : l.fields[b]? = some s) (hnone : s.sizeField = none)
    (hst : Stored P.width l κ' m.bytes o k) (hbk : b < k) :
    Layout.endOf P.width κ 0 (l.fields.take (b + 1)) ≤ l.offset P.width κ' k f i := by
  have hunique := Stored.unique hwf h.1 (hst.mono hbk.le)
  have hcongr : Layout.endOf P.width κ 0 (l.fields.take (b + 1)) =
      Layout.endOf P.width κ' 0 (l.fields.take (b + 1)) := by
    rw [Layout.endOf_take_succ hb, Layout.endOf_take_succ hb, Layout.endOf_congr hunique]
    exact Field.stop_congr (fun c hc => by rw [hnone] at hc; cases hc) _
  rw [hcongr]
  exact (Layout.endOf_take_mono hbk).trans Layout.endOf_take_le_offset

theorem lost_of_holds (hwf : l.WellFormed P.width) {b : Nat} (hb : l.fields[b]? = some s)
    (hnone : s.sizeField = none) (hfirst : ∀ i ∈ l.sizeFields, i < b → InitIsCount P l κ i)
    (h : Holds P.width l κ o (initContents P l κ b 1) m₀ m) :
    Lost P l κ o b s (initialValue P l κ b s) m := by
  refine ⟨h.stored hwf ?_, ?_⟩
  · intro g hg c t hc ht
    have hcb := hwf.lt_of_mem_take hg hc
    have hmem := hwf.mem_sizeFields_of_mem_take hg hc
    rw [initContents, if_pos (.inl hcb), initialValue_of_initIsCount hmem (hfirst c hmem hcb) ht]
  · rw [h.load b s 0 hb (Field.length_of_none hnone ▸ Nat.one_pos), initContents,
      if_pos (.inr ⟨rfl, Nat.one_pos⟩)]

/-- Up to the write of the size field at `b` the contents are known; from then on that field is. -/
def KnownUntil (P : Platform) (l : Layout) (κ : Counts) (o : Int) (m₀ : Machine) (b : Nat)
    (s : Field) (k i : Nat) (m : Machine) : Prop :=
  if k < b ∨ (k = b ∧ i = 0) then Holds P.width l κ o (initContents P l κ k i) m₀ m
  else Lost P l κ o b s (initialValue P l κ b s) m

theorem knownUntil_before {b : Nat} (h : k < b ∨ (k = b ∧ i = 0)) :
    KnownUntil P l κ o m₀ b s k i m ↔ Holds P.width l κ o (initContents P l κ k i) m₀ m := by
  rw [KnownUntil, if_pos h]

theorem knownUntil_after {b : Nat} (h : b < k ∨ (k = b ∧ 0 < i)) :
    KnownUntil P l κ o m₀ b s k i m ↔ Lost P l κ o b s (initialValue P l κ b s) m := by
  rw [KnownUntil, if_neg (by omega)]

/-- The first size field whose initial value is not its count is written as it should be; what is
written after it lies behind it. -/
theorem carriesInit_knownUntil (hwf : l.WellFormed P.width)
    (hunsigned : ∀ i ∈ l.sizeFields, ∀ s, l.fields[i]? = some s → s.type.isSigned = false)
    {b : Nat} (hb : l.fields[b]? = some s) (hnone : s.sizeField = none) {c : InitConst}
    (hc : nonzeroInit? s = some c) (hfirst : ∀ i ∈ l.sizeFields, i < b → InitIsCount P l κ i)
    (hk : l.fields[k]? = some f) : CarriesInit P l κ o (KnownUntil P l κ o m₀ b s) k f := by
  rcases Nat.lt_trichotomy k b with hkb | rfl | hbk
  · have hcarry : CarriesInit P l κ o
        (fun k i => Holds P.width l κ o (initContents P l κ k i) m₀) k f :=
      carriesInit_initContents hwf hk fun i hi hik => hfirst i hi (hik.trans hkb)
    refine ⟨?_, ?_, ?_⟩
    · intro hinit m h
      rw [knownUntil_before (by omega)] at h ⊢
      exact hcarry.skip hinit m h
    · intro d hd i hi m h
      rw [knownUntil_before (by omega)] at h
      obtain ⟨κ', hst, h'⟩ := hcarry.slot d hd i hi m h
      exact ⟨κ', hst, (knownUntil_before (by omega)).mpr h'⟩
    · intro d hd m h
      rw [knownUntil_before (by omega)] at h ⊢
      exact hcarry.done d hd m h
  · cases hk.symm.trans hb
    have hcarry : CarriesInit P l κ o
        (fun k i => Holds P.width l κ o (initContents P l κ k i) m₀) k f :=
      carriesInit_initContents hwf hb hfirst
    refine ⟨?_, ?_, ?_⟩
    · intro hinit
      rw [hc] at hinit
      cases hinit
    · intro d hd i hi m h
      have hzero : i = 0 := Field.hasIndex_of_lt hi hnone
      subst hzero
      rw [knownUntil_before (by omega)] at h
      obtain ⟨κ', hst, h'⟩ := hcarry.slot d hd 0 hi m h
      exact ⟨κ', hst, (knownUntil_after (by omega)).mpr (lost_of_holds hwf hb hnone hfirst h')⟩
    · intro d _ m h
      rw [Field.length_of_none hnone, knownUntil_after (by omega)] at h
      exact (knownUntil_after (by omega)).mpr h
  · refine ⟨?_, ?_, ?_⟩
    · intro _ m h
      rw [knownUntil_after (by omega)] at h ⊢
      exact h
    · intro d _ i _ m h
      rw [knownUntil_after (by omega)] at h
      obtain ⟨κ', hst⟩ := exists_stored hwf hunsigned m.bytes o k
      have hend := h.endOf_le (f := f) (i := i) hwf hb hnone hst hbk
      exact ⟨κ', hst, (knownUntil_after (by omega)).mpr (h.store hwf hb hnone (by omega))⟩
    · intro d _ m h
      rw [knownUntil_after (by omega)] at h ⊢
      exact h

/-- The first size field whose initial value is not its count holds that value in the end. -/
theorem exists_lost (hwf : l.WellFormed P.width) (hp : p.Implements P.width l)
    (hrep : Representable P.width l κ)
    (hunsigned : ∀ i ∈ l.sizeFields, ∀ s, l.fields[i]? = some s → s.type.isSigned = false)
    {b : Nat} (hb : l.fields[b]? = some s) (hnone : s.sizeField = none) {c : InitConst}
    (hc : nonzeroInit? s = some c) (hfirst : ∀ i ∈ l.sizeFields, i < b → InitIsCount P l κ i)
    (m : Machine) :
    ∃ m', p.Returns P (Name.alloc l.name) (.context :: countValues l κ) m
        (some (newObject P l κ m)) m' ∧
      Lost P l κ (newObject P l κ m) b s (initialValue P l κ b s) m' := by
  have hstart : ∀ m₁, Holds P.width l κ (newObject P l κ m) (countContents l.sizeFields κ)
      (withRegion P l κ m) m₁ →
        KnownUntil P l κ (newObject P l κ m) (withRegion P l κ m) b s 0 0 m₁ := by
    intro m₁ h₁
    rw [knownUntil_before (by omega)]
    exact h₁.congr fun j g n _ _ => if_neg (by omega)
  obtain ⟨m', hreturns, hend⟩ := returns_alloc hwf hp hrep
    (fun k f hk => carriesInit_knownUntil hwf hunsigned hb hnone hc hfirst hk) hstart
  have hlt := (List.getElem?_eq_some_iff.mp hb).1
  exact ⟨m', hreturns, (knownUntil_after (.inl hlt)).mp hend⟩

theorem initIsCount_of_keepsCounts (hwf : l.WellFormed P.width) (hp : p.Implements P.width l)
    (hrep : Representable P.width l κ)
    (hunsigned : ∀ i ∈ l.sizeFields, ∀ s, l.fields[i]? = some s → s.type.isSigned = false)
    (h : p.KeepsCounts P l κ m) (b : Nat) (hb : b ∈ l.sizeFields) : InitIsCount P l κ b := by
  obtain ⟨o, m₁, hreturns₁, -, hread⟩ := h
  induction b using Nat.strong_induction_on with
  | _ b ih =>
    intro s c hs hc
    have hnone := hwf.sizeField_eq_none hb hs
    obtain ⟨m₂, hreturns₂, hst, hload⟩ :=
      exists_lost hwf hp hrep hunsigned hs hnone hc (fun i hi hib => ih i hib hi) m
    obtain ⟨ho, rfl⟩ := Program.Returns.unique hreturns₁ hreturns₂
    cases Option.some.inj ho
    have hget := call_getter hwf hp hst hs (fun _ => rfl) le_rfl
    rw [slotValues_of_none hnone, hload, initialValue, hc] at hget
    obtain ⟨m₃, hcount⟩ := hread b hb s hs
    exact Option.some.inj (Program.Returns.unique ⟨_, hget⟩ hcount).1

/-- On every layout of an accepted schema, allocation keeps the counts if every non-zero initial
value of a size field is its count, and only then if no size field can be negative. -/
theorem keepsCounts_of_resolve {defs : List LayoutDef} {ls : List Layout}
    (h : Schema.resolve P.width defs = .ok ls) (hl : l ∈ ls) :
    ∃ decls, layoutDecls P.width l = .ok decls ∧ ∀ κ, Representable P.width l κ → ∀ m,
      ((∀ i ∈ l.sizeFields, InitIsCount P l κ i) →
        (Program.ofDecls P.width decls).KeepsCounts P l κ m) ∧
      ((∀ i ∈ l.sizeFields, ∀ s, l.fields[i]? = some s → s.type.isSigned = false) →
        (Program.ofDecls P.width decls).KeepsCounts P l κ m →
          ∀ i ∈ l.sizeFields, InitIsCount P l κ i) := by
  have hwf := Schema.wellFormed_of_resolve h hl
  obtain ⟨decls, hdecls, hp⟩ := exists_layoutDecls hwf
  exact ⟨decls, hdecls, fun κ hrep m => ⟨fun hinits => keepsCounts_of_initIsCount hwf hp hrep hinits m,
    fun hunsigned hkeeps i hi => initIsCount_of_keepsCounts hwf hp hrep hunsigned hkeeps i hi⟩⟩

theorem keepsCounts_preset :
    Schema.resolve .eight [bufferDef (some (.int 7)) none] =
        .ok [bufferLayout (some (.int 7)) none] ∧
      ∃ decls, layoutDecls .eight (bufferLayout (some (.int 7)) none) = .ok decls ∧
        (Program.ofDecls .eight decls).KeepsCounts examplePlatform
          (bufferLayout (some (.int 7)) none) (fun _ => 7) { bytes := fun _ => 0 } ∧
        ¬(Program.ofDecls .eight decls).KeepsCounts examplePlatform
          (bufferLayout (some (.int 7)) none) (fun _ => 4) { bytes := fun _ => 0 } := by
  have hresolve : Schema.resolve examplePlatform.width [bufferDef (some (.int 7)) none] =
      .ok [bufferLayout (some (.int 7)) none] := by decide
  obtain ⟨decls, hdecls, hall⟩ := keepsCounts_of_resolve hresolve (List.mem_singleton_self _)
  have hrep (c : Nat) (hc : c < 256 ^ 4) :
      Representable .eight (bufferLayout (some (.int 7)) none) (fun _ => c) := by
    intro i hi s hs
    cases List.mem_singleton.mp hi
    cases hs
    exact Int.emod_eq_of_lt (by omega) (by exact_mod_cast hc)
  refine ⟨hresolve, decls, hdecls, (hall _ (hrep 7 (by decide)) _).1 ?_, ?_⟩
  · intro i hi s c hs hc
    cases List.mem_singleton.mp hi
    cases hs
    cases hc
    rfl
  · intro hkeeps
    have hunsigned : ∀ i ∈ (bufferLayout (some (.int 7)) none).sizeFields, ∀ s,
        (bufferLayout (some (.int 7)) none).fields[i]? = some s → s.type.isSigned = false := by
      intro i hi s hs
      cases List.mem_singleton.mp hi
      cases hs
      rfl
    have hcount := (hall _ (hrep 4 (by decide)) _).2 hunsigned hkeeps 2 (by decide) _ (.int 7) rfl rfl
    revert hcount
    decide

/-- A buffer whose length has the initial value 7 is allocated with length 3: the size for the
count is 19, the size of the object is 23. -/
theorem not_keepsCounts_preset :
    Schema.resolve .eight [bufferDef (some (.int 7)) none] =
        .ok [bufferLayout (some (.int 7)) none] ∧
      ∃ decls, layoutDecls .eight (bufferLayout (some (.int 7)) none) = .ok decls ∧
        Representable .eight (bufferLayout (some (.int 7)) none) (fun _ => 3) ∧
        (∃ m', (Program.ofDecls .eight decls).Returns examplePlatform "buf_alloc"
          [.context, .int 3] { bytes := fun _ => 0 } (some 64) m' ∧
          (Program.ofDecls .eight decls).Returns examplePlatform "buf_sizeof" [.int 64] m'
            (some 23) m' ∧
          (Program.ofDecls .eight decls).Returns examplePlatform "buf_comp_size" [.int 3] m'
            (some 19) m') ∧
        ¬(Program.ofDecls .eight decls).KeepsCounts examplePlatform
          (bufferLayout (some (.int 7)) none) (fun _ => 3) { bytes := fun _ => 0 } := by
  refine ⟨by decide, _, rfl, ?_, ⟨_, ⟨12, rfl⟩, ⟨12, rfl⟩, ⟨12, rfl⟩⟩, ?_⟩
  · intro i hi s hs
    cases List.mem_singleton.mp hi
    cases hs
    rfl
  · rintro ⟨o, m', halloc, -, hread⟩
    obtain ⟨ho, rfl⟩ := Program.Returns.unique halloc ⟨12, rfl⟩
    cases ho
    obtain ⟨m'', hget⟩ := hread 2 (by decide) _ rfl
    have hseven := (Program.Returns.unique hget ⟨12, rfl⟩).1
    revert hseven
    decide

/-- A signed length with a negative initial value, and a field behind the array. -/
def restoredDef : LayoutDef where
  name := "buf"
  category := "plain"
  fields := [{ name := "n", type := .int32, init := some (.int (-1)) },
    { name := "xs", type := .int32, sizeField := some "n" },
    { name := "y", type := .int32, init := some (.int 3) }]

def restoredLayout : Layout where
  id := 0
  name := "buf"
  category := "plain"
  fields := [
    { name := "next", type := .refptr, elemSize := 8, init := some .null, align := .static 0,
      staticOffset := some 0 },
    { name := "tag", type := .uint32, elemSize := 4, init := some (.int 0), align := .static 0,
      staticOffset := some 8 },
    { name := "n", type := .int32, elemSize := 4, init := some (.int (-1)), align := .static 0,
      staticOffset := some 12 },
    { name := "xs", type := .int32, elemSize := 4, sizeField := some 2, align := .static 0,
      staticOffset := some 16 },
    { name := "y", type := .int32, elemSize := 4, init := some (.int 3), align := .static 0 }]
  sizeFields := [2]

/-- With the length -1 the field behind the array lies where the length does, and its initial value
restores the count. So the initial value of a signed size field need not be its count. -/
theorem keepsCounts_restored :
    Schema.resolve .eight [restoredDef] = .ok [restoredLayout] ∧
      ∃ decls, layoutDecls .eight restoredLayout = .ok decls ∧
        (Program.ofDecls .eight decls).KeepsCounts examplePlatform restoredLayout (fun _ => 3)
          { bytes := fun _ => 0 } ∧
        ¬InitIsCount examplePlatform restoredLayout (fun _ => 3) 2 := by
  have hresolve : Schema.resolve examplePlatform.width [restoredDef] = .ok [restoredLayout] := by
    decide
  have hwf := Schema.wellFormed_of_resolve hresolve (List.mem_singleton_self _)
  obtain ⟨decls, hdecls, hp⟩ := exists_layoutDecls hwf
  refine ⟨hresolve, decls, hdecls, ?_, ?_⟩
  · -- The length is read back from the object that allocation returns.
    let p := Program.ofDecls .eight decls
    have hresult : Run.result? (p.call examplePlatform 6 "buf_alloc" [.context, .int 3] >>= fun o =>
        p.call examplePlatform 6 "buf_get_n" [.int (o.getD 0)] >>= fun n => pure (o, n))
          { bytes := fun _ => 0 } = some (some 64, some 3) := by
      cases hdecls
      decide +kernel
    obtain ⟨m₂, hrun⟩ := Run.result?_eq_some.mp hresult
    obtain ⟨o, m₁, halloc, hrest⟩ := Run.bind_eq_ok_iff.mp hrun
    obtain ⟨n, _, hget, hpure⟩ := Run.bind_eq_ok_iff.mp hrest
    cases hpure
    have hread : p.ReadsCounts examplePlatform restoredLayout (fun _ => 3) 64 m₁ := by
      intro i hi s hs
      cases List.mem_singleton.mp hi
      cases hs
      exact ⟨_, 6, hget⟩
    have hst := stored_of_readsCounts hwf hp hread restoredLayout.fields.length
    exact ⟨64, m₁, ⟨6, halloc⟩, ⟨_, ⟨_, call_sizeof hwf hp hst le_rfl⟩,
      ⟨1, call_compSize hwf hp le_rfl⟩⟩, hread⟩
  · intro hcount
    have hthree := hcount _ (.int (-1)) rfl rfl
    revert hthree
    decide

end HeapLayout.Code
