import HeapLayout.Proofs.Access

/-!
# The contents of an object

While an object is being initialised, its counts are fixed, but they reach memory one after the
other. `Holds` says what every slot of the object holds, at the places that the counts determine,
and that nothing outside of the object has been written. Writing a slot changes that slot only
(`Holds.store`).

A setter finds its slot through counts in memory, so a write goes where it should if the counts
before it are stored already. Size fields are written in the order of their first use, and whatever
stands before a size field is governed by size fields listed earlier (`exec_writeCounts`). For the
initial values there is a rule: an invariant that every single write preserves holds at the end
(`exec_writeInits`). It says nothing about which counts a write finds in memory, since initial values
may overwrite them.
-/

namespace HeapLayout.Code

open HeapLayout (Layout Field FieldId PointerWidth Counts InitConst)
open Accessor
open Schema (bind_eq_ok pure_eq_ok)

/-- What the slots of an object hold, by the position of the field and the index of the element. -/
abbrev Contents := Nat → Field → Nat → Int

/-- The contents in which one slot is replaced. -/
def Contents.set (ρ : Contents) (k i : Nat) (v : Int) : Contents :=
  fun j f n => if j = k ∧ n = i then v else ρ j f n

/-- What memory holds in the slots of the object at `o`. -/
def slotContents (w : PointerWidth) (l : Layout) (κ : Counts) (o : Int) (b : Bytes) : Contents :=
  fun k f i => b.load w f.type (o + l.offset w κ k f i)

/-- The object at `o` has the given contents, and `m` differs from `m₀` in bytes of the object
only. -/
structure Holds (w : PointerWidth) (l : Layout) (κ : Counts) (o : Int) (ρ : Contents)
    (m₀ m : Machine) : Prop where
  load : ∀ k f i, l.fields[k]? = some f → i < f.length κ →
    m.bytes.load w f.type (o + l.offset w κ k f i) = ρ k f i
  outside : ∀ x, x < o ∨ o + l.size w κ ≤ x → m.bytes x = m₀.bytes x
  regions : m.regions = m₀.regions
  forwarded : m.forwarded = m₀.forwarded

variable {w : PointerWidth} {l : Layout} {κ : Counts} {f : Field} {i k n : Nat} {o v : Int}
  {ρ ρ' : Contents} {env : Env} {m₀ m : Machine}

theorem Contents.set_self : ρ.set k i v k f i = v :=
  if_pos ⟨rfl, rfl⟩

theorem Contents.set_of_ne {j n : Nat} (h : (j, n) ≠ (k, i)) : ρ.set k i v j f n = ρ j f n :=
  if_neg fun heq => h (by rw [heq.1, heq.2])

theorem holds_slotContents : Holds w l κ o (slotContents w l κ o m.bytes) m m :=
  ⟨fun _ _ _ _ _ => rfl, fun _ _ => rfl, rfl, rfl⟩

namespace Holds

theorem congr (h : Holds w l κ o ρ m₀ m)
    (hρ : ∀ k f i, l.fields[k]? = some f → i < f.length κ → ρ' k f i = ρ k f i) :
    Holds w l κ o ρ' m₀ m :=
  ⟨fun k f i hk hi => (h.load k f i hk hi).trans (hρ k f i hk hi).symm, h.outside, h.regions,
    h.forwarded⟩

/-- Counts that the size fields hold are stored. -/
theorem stored (hwf : l.WellFormed w) (h : Holds w l κ o ρ m₀ m)
    (hρ : ∀ f ∈ l.fields.take k, ∀ c s, f.sizeField = some c → l.fields[c]? = some s →
      ρ c s 0 = κ c) : Stored w l κ m.bytes o k := by
  intro f hf c s hc hs
  have hlength : 0 < s.length κ := by
    rw [Field.length_of_none (hwf.sizeField_eq_none (hwf.mem_sizeFields_of_mem_take hf hc) hs)]
    exact Nat.one_pos
  rw [h.load c s 0 hs hlength, hρ f hf c s hc hs]

/-- Writing a slot changes what that slot holds, and nothing else. -/
theorem store (hwf : l.WellFormed w) (h : Holds w l κ o ρ m₀ m) (hk : l.fields[k]? = some f)
    (hi : i < f.length κ) (hself : ρ' k f i = f.type.narrow w v)
    (hother : ∀ j g n, l.fields[j]? = some g → n < g.length κ → (j, n) ≠ (k, i) →
      ρ' j g n = ρ j g n) :
    Holds w l κ o ρ' m₀
      { m with bytes := m.bytes.store w f.type (o + l.offset w κ k f i) v } := by
  have hsize {j : Nat} {g : Field} (hj : l.fields[j]? = some g) : g.elemSize = g.type.size w :=
    hwf.elemSize_eq g (List.mem_of_getElem? hj)
  refine ⟨?_, ?_, h.regions, h.forwarded⟩
  · intro j g n hj hn
    by_cases hjk : (j, n) = (k, i)
    · cases hjk
      cases hj.symm.trans hk
      rw [hself]
      exact Bytes.load_store_self
    · rw [hother j g n hj hn hjk, ← h.load j g n hj hn]
      apply Bytes.load_store_of_disjoint
      have hdisjoint := Layout.offset_disjoint (w := w) hj hn hk hi hjk
      rw [hsize hj, hsize hk] at hdisjoint
      omega
  · intro x hx
    rw [← h.outside x hx]
    apply Bytes.store_of_outside
    have hinside := Layout.offset_add_le_size (w := w) hk hi
    rw [hsize hk] at hinside
    omega

theorem set (hwf : l.WellFormed w) (h : Holds w l κ o ρ m₀ m) (hk : l.fields[k]? = some f)
    (hi : i < f.length κ) (v : Int) :
    Holds w l κ o (ρ.set k i (f.type.narrow w v)) m₀
      { m with bytes := m.bytes.store w f.type (o + l.offset w κ k f i) v } :=
  h.store hwf hk hi Contents.set_self fun _ _ _ _ _ hne => Contents.set_of_ne hne

end Holds

/-! ## Reading slots -/

section Reads

variable {p : Program} {P : Platform} {s : Field} (hwf : l.WellFormed P.width)
  (hp : p.Implements P.width l) (h : Holds P.width l κ o ρ m₀ m)
  (hρ : ∀ i ∈ l.sizeFields, ∀ s, l.fields[i]? = some s → ρ i s 0 = κ i)

include hwf h hρ

theorem Holds.stored_of_counts (k : Nat) : Stored P.width l κ m.bytes o k :=
  h.stored hwf fun _ hg c s hc hs => hρ c (hwf.mem_sizeFields_of_mem_take hg hc) s hs

include hp

/-- With all counts in place, getters read what slots hold. -/
theorem Holds.returns_getter (hk : l.fields[k]? = some f) (hi : i < f.length κ) :
    p.Returns P (Name.getter l.name f.name) (slotValues f o i) m (some (ρ k f i)) m := by
  have hget := call_getter hwf hp (h.stored_of_counts hwf hρ k) hk (Field.hasIndex_of_lt hi) le_rfl
  rw [h.load k f i hk hi] at hget
  exact ⟨_, hget⟩

theorem Holds.returns_count (hi : i ∈ l.sizeFields) (hs : l.fields[i]? = some s) :
    p.Returns P (Name.getter l.name s.name) [.int o] m (some (κ i)) m := by
  have hnone := hwf.sizeField_eq_none hi hs
  have hget := h.returns_getter hwf hp hρ hs (Field.length_of_none hnone ▸ Nat.one_pos)
  rwa [slotValues_of_none hnone, hρ i hi s hs] at hget

end Reads

/-! ## Writing a slot -/

/-- The locals of an allocation: the new object, and the counts under the names of their size
fields. -/
structure Allocating (l : Layout) (κ : Counts) (o : Int) (env : Env) : Prop where
  object : env Name.object = some o
  count : ∀ i ∈ l.sizeFields, ∀ s, l.fields[i]? = some s → env s.name = some (κ i : Int)

/-- A loop counter hides none of the locals. -/
theorem Allocating.set_index (h : Allocating l κ o env) (hwf : l.WellFormed w) (v : Int) :
    Allocating l κ o (env.set Name.index v) := by
  refine ⟨(Env.set_of_ne (by decide) v).trans h.object, ?_⟩
  intro i hi s hs
  have hname : s.name ≠ Name.index := hwf.name_ne hs (by decide)
  exact (Env.set_of_ne hname v).trans (h.count i hi s hs)

variable {p : Program} {P : Platform}

/-- The value that an initial constant stands for. -/
def Platform.initValue (P : Platform) : InitConst → Int
  | .int v => v
  | .null => 0
  | .undefWord => P.undef .word
  | .undefType => P.undef .type

theorem eval_initExpr (S : Scope) (c : InitConst) :
    (initExpr c).isContext = false ∧
      (initExpr c).eval S env m = .ok (S.platform.initValue c, m) := by
  cases c <;> exact ⟨rfl, rfl⟩

/-- A setter runs on the machine that its last argument leaves. -/
theorem exec_setSlot (hwf : l.WellFormed P.width) (hp : p.Implements P.width l) {m₁ : Machine}
    (hst : Stored P.width l κ m₁.bytes o k) (hk : l.fields[k]? = some f) (hi : f.HasIndex i)
    (hn : 2 * k + 2 ≤ n) (henv : SelectsSlot env f o i) {value : Expr}
    (hvalue : value.isContext = false ∧ value.eval (p.scope P n) env m = .ok (v, m₁)) :
    (Stmt.eval (callSetter l f.name (slotArgs f ++ [value]))).exec (p.scope P n) env m =
      .ok (.next env, { m₁ with
        bytes := m₁.bytes.store P.width f.type (o + l.offset P.width κ k f i) v }) := by
  have hargs := Expr.evalArgs_append (evalArgs_slotArgs henv)
    (Expr.evalArgs_cons hvalue.1 hvalue.2 Expr.evalArgs_nil)
  exact Stmt.exec_eval (Expr.eval_invoke hargs (call_setter hwf hp hst hk hi hn v))

/-! ## Writing counts -/

/-- The counts in the given size fields, and zero in every other slot. -/
def countContents (is : List FieldId) (κ : Counts) : Contents :=
  fun k _ _ => if k ∈ is then κ k else 0

/-- Every count is a value of the kind of its size field. -/
def Representable (w : PointerWidth) (l : Layout) (κ : Counts) : Prop :=
  ∀ i ∈ l.sizeFields, ∀ s, l.fields[i]? = some s → s.type.narrow w (κ i) = κ i

/-- Counts are written in the order of their size fields: the place of the next one depends on those
that have been written. -/
theorem exec_writeCounts (hwf : l.WellFormed P.width) (hp : p.Implements P.width l)
    (hrep : Representable P.width l κ) (hn : 2 * l.fields.length ≤ n)
    (henv : Allocating l κ o env) {ps is : List FieldId} {sizes : List Field}
    (hrel : List.Forall₂ (fun i s => l.fields[i]? = some s) is sizes)
    (hstart : ps ++ is <+: l.sizeFields) (h : Holds P.width l κ o (countContents ps κ) m₀ m) :
    ∃ m', Stmt.execAll (p.scope P n) (sizes.map (writeCount l)) env m = .ok (.next env, m') ∧
      Holds P.width l κ o (countContents (ps ++ is) κ) m₀ m' := by
  induction hrel generalizing ps m with
  | nil =>
    rw [List.append_nil]
    exact ⟨m, rfl, h⟩
  | @cons i s is sizes hs _ ih =>
    obtain ⟨rest, hrest⟩ := hstart
    have hsplit : l.sizeFields = ps ++ i :: (is ++ rest) := by
      rw [← hrest, List.append_assoc, List.cons_append]
    have hi : i ∈ l.sizeFields := hsplit ▸ List.mem_append_right ps List.mem_cons_self
    have hnone := hwf.sizeField_eq_none hi hs
    have hlt := (List.getElem?_eq_some_iff.mp hs).1
    have hst : Stored P.width l κ m.bytes o i := by
      apply h.stored hwf
      intro f hf c t hc _
      rw [countContents, if_pos (hwf.mem_of_append_cons hsplit hf hc)]
    have hpassed : (passedCount s).isContext = false ∧
        (passedCount s).eval (p.scope P n) env m = .ok ((κ i : Int), m) :=
      ⟨rfl, Expr.eval_var (henv.count i hi s hs)⟩
    have hset := exec_setSlot hwf hp hst hs (fun _ => rfl) (by omega) (.of_none henv.object hnone)
      hpassed
    rw [slotArgs_of_none hnone] at hset
    have hstore : Holds P.width l κ o (countContents (ps ++ [i]) κ) m₀ { m with
        bytes := m.bytes.store P.width s.type (o + l.offset P.width κ i s 0) (κ i) } := by
      apply h.store hwf hs (by simp [Field.length_of_none hnone])
      · rw [countContents, if_pos (List.mem_append_right ps (List.mem_singleton_self i)),
          hrep i hi s hs]
      · intro j g n hj hn hne
        have hji : j ≠ i := by
          rintro rfl
          cases hj.symm.trans hs
          rw [Field.length_of_none hnone, Nat.lt_one_iff] at hn
          exact hne (by rw [hn])
        simp [countContents, hji]
    obtain ⟨m', hrun, hm'⟩ := ih ⟨rest, by rwa [← List.append_cons]⟩ hstore
    exact ⟨m', (Stmt.execAll_cons hset).trans hrun, by rwa [List.append_cons]⟩

/-! ## Writing initial values -/

/-- The next write of an initial value: counts in memory say where it goes, and it leads from one
condition to another. -/
def WritesSlot (P : Platform) (l : Layout) (o : Int) (k : Nat) (f : Field) (i : Nat) (v : Int)
    (I I' : Machine → Prop) : Prop :=
  ∀ m, I m → ∃ κ', Stored P.width l κ' m.bytes o k ∧ I' { m with
    bytes := m.bytes.store P.width f.type (o + l.offset P.width κ' k f i) v }

/-- The initial value of a field is written slot by slot. -/
theorem exec_writeInit (hwf : l.WellFormed P.width) (hp : p.Implements P.width l)
    (hk : l.fields[k]? = some f) (hn : 2 * k + 2 ≤ n) (henv : Allocating l κ o env)
    {c : InitConst} {st : Stmt} (hst : writeInit l f (initExpr c) = .ok st)
    {I : Nat → Machine → Prop}
    (hslot : ∀ i < f.length κ, WritesSlot P l o k f i (P.initValue c) (I i) (I (i + 1)))
    (h : I 0 m) :
    ∃ env' m', st.exec (p.scope P n) env m = .ok (.next env', m') ∧ Allocating l κ o env' ∧
      I (f.length κ) m' := by
  unfold writeInit at hst
  cases hs : f.sizeField with
  | none =>
    simp only [hs] at hst
    cases pure_eq_ok.mp hst
    rw [Field.length_of_none hs] at hslot ⊢
    obtain ⟨κ', hstored, hI⟩ := hslot 0 Nat.one_pos m h
    have hset := exec_setSlot hwf hp hstored hk (fun _ => rfl) hn (.of_none henv.object hs)
      (eval_initExpr (p.scope P n) c)
    rw [slotArgs_of_none hs] at hset
    exact ⟨env, _, hset, henv, hI⟩
  | some j =>
    simp only [hs] at hst
    obtain ⟨s, hbinding, hst⟩ := bind_eq_ok.mp hst
    cases pure_eq_ok.mp hst
    have hj : j ∈ l.sizeFields :=
      hwf.mem_sizeFields_iff.mpr ⟨f, List.mem_of_getElem? hk, hs⟩
    have hbound := Expr.eval_var (S := p.scope P n) (m := m)
      (henv.count j hj s (getElem?_of_binding hbinding))
    rw [Field.length_of_some hs] at hslot ⊢
    have hbody (i : Nat) (env : Env) (m : Machine) (hi : i < κ j)
        (hinv : Allocating l κ o env ∧ I i m) :
        ∃ env' m', Stmt.execAll (p.scope P n)
          [.eval (callSetter l f.name [object, index, initExpr c])] (env.set Name.index i) m =
            .ok (.next env', m') ∧ Allocating l κ o env' ∧ I (i + 1) m' := by
      obtain ⟨κ', hstored, hI⟩ := hslot i hi m hinv.2
      have hselects : SelectsSlot (env.set Name.index i) f o i := .of_index hinv.1.object
      have hset := exec_setSlot hwf hp hstored hk (fun hnone => by simp [hs] at hnone) hn hselects
        (eval_initExpr (p.scope P n) c)
      rw [slotArgs_of_some hs] at hset
      exact ⟨_, _, Stmt.execAll_single hset, hinv.1.set_index hwf i, hI⟩
    exact Stmt.exec_loop hbound hbody ⟨henv, h⟩

/-- What an invariant `J k i` has to do for one field: `k` fields are done, and `i` slots of the
next one. -/
structure CarriesInit (P : Platform) (l : Layout) (κ : Counts) (o : Int)
    (J : Nat → Nat → Machine → Prop) (k : Nat) (f : Field) : Prop where
  skip : nonzeroInit? f = none → ∀ m, J k 0 m → J (k + 1) 0 m
  slot : ∀ c, nonzeroInit? f = some c → ∀ i < f.length κ,
    WritesSlot P l o k f i (P.initValue c) (J k i) (J k (i + 1))
  done : ∀ c, nonzeroInit? f = some c → ∀ m, J k (f.length κ) m → J (k + 1) 0 m

/-- An invariant that every write of an initial value preserves holds after all of them. -/
theorem exec_writeInits (hwf : l.WellFormed P.width) (hp : p.Implements P.width l)
    (hn : 2 * l.fields.length ≤ n) (henv : Allocating l κ o env) {J : Nat → Nat → Machine → Prop}
    (hcarries : ∀ k f, l.fields[k]? = some f → CarriesInit P l κ o J k f) {fs : List Field}
    (hle : k ≤ l.fields.length) (hfs : l.fields.drop k = fs) {ss : List Stmt}
    (hss : writeInits l fs = .ok ss) (h : J k 0 m) :
    ∃ env' m', Stmt.execAll (p.scope P n) ss env m = .ok (.next env', m') ∧
      Allocating l κ o env' ∧ J l.fields.length 0 m' := by
  induction fs generalizing k ss env m with
  | nil =>
    cases hss
    have hlength := List.drop_eq_nil_iff.mp hfs
    exact ⟨env, m, rfl, henv, Nat.le_antisymm hle hlength ▸ h⟩
  | cons f fs ih =>
    have hk : l.fields[k]? = some f := by
      have := congrArg (·[0]?) hfs
      simpa using this
    have hrest : l.fields.drop (k + 1) = fs := by
      have := congrArg List.tail hfs
      simpa using this
    have hlt : k < l.fields.length := (List.getElem?_eq_some_iff.mp hk).1
    have hc := hcarries k f hk
    rw [writeInits] at hss
    cases hinit : nonzeroInit? f with
    | none =>
      simp only [hinit] at hss
      exact ih henv hlt hrest hss (hc.skip hinit m h)
    | some c =>
      simp only [hinit] at hss
      obtain ⟨st, hst, hss⟩ := bind_eq_ok.mp hss
      obtain ⟨ss', hss', hss⟩ := bind_eq_ok.mp hss
      cases pure_eq_ok.mp hss
      have hdepth : 2 * k + 2 ≤ n := by omega
      obtain ⟨env₁, m₁, hrun, henv₁, hJ⟩ :=
        exec_writeInit hwf hp hk hdepth henv hst (hc.slot c hinit) h
      obtain ⟨env₂, m₂, hruns, hend⟩ := ih henv₁ hlt hrest hss' (hc.done c hinit m₁ hJ)
      exact ⟨env₂, m₂, (Stmt.execAll_cons hrun).trans hruns, hend⟩

end HeapLayout.Code
