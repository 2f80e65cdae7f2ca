import HeapLayout.Proofs.Synthesis

/-!
# What accessors compute

The offset function of a field answers with the place of the slot, if the getters of the size fields
before it answer with the counts (`run_offset`). A getter in turn asks for the offset of its own
field, which lies further to the front. So the recursion ends, and what carries it is `Stored`: the
counts before a position are in memory, at the places that these counts determine. From there on
getters and setters are a load and a store at the place of the slot, and the two size functions
agree.

Conversely, if all getters of size fields answer with the counts, then these are stored
(`stored_of_readsCounts`).
-/

namespace HeapLayout.Code

open HeapLayout (Layout Field FieldId PointerWidth Counts)
open Accessor
open Schema (bind_eq_ok pure_eq_ok)

variable {w : PointerWidth} {l : Layout} {κ : Counts} {f s : Field} {i k n : Nat} {o v : Int}
  {S : Scope} {env : Env} {m : Machine}

/-! ## Arguments -/

/-- The arguments that select a slot of a field. -/
def slotValues (f : Field) (o : Int) (i : Nat) : List Value :=
  if f.isVariable then [.int o, .int i] else [.int o]

/-- The arguments that stand for a count in every size field. -/
def countValues (l : Layout) (κ : Counts) : List Value :=
  l.sizeFields.map fun i => .int (κ i)

theorem slotValues_of_none (h : f.sizeField = none) : slotValues f o i = [.int o] := by
  simp [slotValues, Field.isVariable, h]

theorem slotArgs_of_none (h : f.sizeField = none) : slotArgs f = [object] := by
  simp [slotArgs, Field.isVariable, h]

theorem slotArgs_of_some {c : FieldId} (h : f.sizeField = some c) :
    slotArgs f = [object, index] := by
  simp [slotArgs, Field.isVariable, h]

/-- The parameters of an accessor select the slot. -/
structure SelectsSlot (env : Env) (f : Field) (o : Int) (i : Nat) : Prop where
  object : env Name.object = some o
  index : f.isVariable = true → env Name.index = some (i : Int)

theorem Env.set_self (env : Env) (x : String) (v : Int) : env.set x v x = some v :=
  Function.update_self x _ env

theorem Env.set_of_ne {x y : String} (h : y ≠ x) (v : Int) : env.set x v y = env y :=
  Function.update_of_ne h _ env

theorem SelectsSlot.set (h : SelectsSlot env f o i) {x : String} (hobject : Name.object ≠ x)
    (hindex : Name.index ≠ x) (v : Int) : SelectsSlot (env.set x v) f o i :=
  ⟨(Env.set_of_ne hobject v).trans h.object, fun hf => (Env.set_of_ne hindex v).trans (h.index hf)⟩

theorem SelectsSlot.of_none (hobject : env Name.object = some o) (hf : f.sizeField = none) :
    SelectsSlot env f o 0 :=
  ⟨hobject, fun h => by simp [Field.isVariable, hf] at h⟩

/-- A loop selects the slot of its counter. -/
theorem SelectsSlot.of_index (hobject : env Name.object = some o) :
    SelectsSlot (env.set Name.index i) f o i :=
  ⟨(Env.set_of_ne (by decide) _).trans hobject, fun _ => Env.set_self _ _ _⟩

theorem exists_bindParams_slot (f : Field) (o : Int) (i : Nat) :
    ∃ env, bindParams (fun _ => none) (slotParams f) (slotValues f o i) = some env ∧
      SelectsSlot env f o i := by
  by_cases hf : f.isVariable
  · rw [slotParams, slotValues, if_pos hf, if_pos hf]
    refine ⟨_, rfl, ?_, fun _ => Env.set_self _ _ _⟩
    rw [Env.set_of_ne (by decide)]
    exact Env.set_self _ _ _
  · rw [slotParams, slotValues, if_neg hf, if_neg hf]
    exact ⟨_, rfl, Env.set_self _ _ _, fun h => absurd h hf⟩

theorem evalArgs_object (hobject : env Name.object = some o) :
    Expr.evalArgs S env [object] m = .ok ([.int o], m) :=
  Expr.evalArgs_cons rfl (Expr.eval_var hobject) Expr.evalArgs_nil

theorem evalArgs_slotArgs (h : SelectsSlot env f o i) :
    Expr.evalArgs S env (slotArgs f) m = .ok (slotValues f o i, m) := by
  by_cases hf : f.isVariable
  · rw [slotArgs, slotValues, if_pos hf, if_pos hf]
    have hindex : Expr.evalArgs S env [index] m = .ok ([.int i], m) :=
      Expr.evalArgs_cons rfl (Expr.eval_var (h.index hf)) Expr.evalArgs_nil
    exact Expr.evalArgs_cons rfl (Expr.eval_var h.object) hindex
  · rw [slotArgs, slotValues, if_neg hf, if_neg hf]
    exact evalArgs_object h.object

/-- Counts are passed under the names of their size fields; other names are left alone. -/
theorem exists_bindParams_counts (h : l.WellFormed w) {is : List FieldId} {sizes : List Field}
    (hrel : List.Forall₂ (fun i s => l.fields[i]? = some s) is sizes) (hnodup : is.Nodup)
    (env : Env) :
    ∃ env', bindParams env (sizes.map countParam) (is.map fun i => .int (κ i)) = some env' ∧
      (∀ i ∈ is, ∀ s, l.fields[i]? = some s → env' s.name = some (κ i : Int)) ∧
      ∀ x, (∀ i ∈ is, ∀ s, l.fields[i]? = some s → x ≠ s.name) → env' x = env x := by
  induction hrel generalizing env with
  | nil => exact ⟨env, rfl, by simp, fun _ _ => rfl⟩
  | @cons i s is sizes hs hrel ih =>
    obtain ⟨hi, hnodup⟩ := List.nodup_cons.mp hnodup
    obtain ⟨env', hbind, hcounts, hother⟩ := ih hnodup (env.set s.name (κ i))
    refine ⟨env', hbind, ?_, ?_⟩
    · intro j hj t ht
      rcases List.mem_cons.mp hj with rfl | hj
      · cases hs.symm.trans ht
        rw [hother s.name fun j hj t ht hname => hi (h.eq_of_name_eq hs ht hname ▸ hj),
          Env.set_self]
      · exact hcounts j hj t ht
    · intro x hx
      rw [hother x fun j hj => hx j (List.mem_cons_of_mem i hj),
        Env.set_of_ne (hx i List.mem_cons_self s hs)]

/-! ## Sums of spans -/

theorem eval_aligned (h : l.WellFormed w) (hf : f ∈ l.fields) {sum : Expr}
    (hsum : sum.eval S env m = .ok ((n : Int), m)) :
    (aligned w sum f).eval S env m = .ok ((f.start w n : Int), m) := by
  unfold aligned Field.start
  cases halign : f.align with
  | dynamic => exact Expr.eval_alignUp_of_ok w hsum
  | static pad =>
    have hpad : signed64 pad = pad := signed64_of_lt (by have := h.pad_lt f hf pad halign; omega)
    have hadd := Expr.eval_add_of_ok hsum (Expr.eval_const (signed64 pad))
    rw [hpad] at hadd
    simpa [hpad] using hadd

theorem signed64_elemSize (h : l.WellFormed w) (hf : f ∈ l.fields) :
    signed64 f.elemSize = f.elemSize := by
  have hmem := f.type.size_mem w
  simp only [List.mem_cons, List.not_mem_nil, or_false] at hmem
  exact signed64_of_lt (by rw [h.elemSize_eq f hf]; omega)

/-- What the expressions for counts have to evaluate to, as far as the given fields need them. -/
def CountsEval (l : Layout) (κ : Counts) (count : Field → Expr) (S : Scope) (env : Env)
    (m : Machine) (fs : List Field) : Prop :=
  ∀ f ∈ fs, ∀ i s, f.sizeField = some i → l.fields[i]? = some s →
    (count s).eval S env m = .ok ((κ i : Int), m)

theorem eval_span (h : l.WellFormed w) (hf : f ∈ l.fields) {count : Field → Expr} {e : Expr}
    (he : span l count f = .ok e) (hcount : CountsEval l κ count S env m [f]) :
    e.eval S env m = .ok ((f.elemSize * f.length κ : Nat), m) := by
  unfold span at he
  cases hs : f.sizeField with
  | none =>
    simp only [hs] at he
    cases he
    rw [signed64_elemSize h hf, Field.length_of_none hs, Nat.mul_one]
    rfl
  | some i =>
    simp only [hs] at he
    obtain ⟨s, hbinding, he⟩ := bind_eq_ok.mp he
    cases pure_eq_ok.mp he
    have hi := hcount f (List.mem_singleton_self f) i s hs (getElem?_of_binding hbinding)
    rw [signed64_elemSize h hf, Field.length_of_some hs, Nat.cast_mul]
    exact Expr.eval_mul_of_ok (Expr.eval_const _) hi

/-- The sum of spans is where the last field ends. -/
theorem eval_prefixSumFrom (h : l.WellFormed w) {fs : List Field} (hfs : ∀ f ∈ fs, f ∈ l.fields)
    {count : Field → Expr} {sum e : Expr} (he : prefixSumFrom w l count sum fs = .ok e)
    (hsum : sum.eval S env m = .ok ((n : Int), m)) (hcount : CountsEval l κ count S env m fs) :
    e.eval S env m = .ok ((Layout.endOf w κ n fs : Int), m) := by
  induction fs generalizing sum n with
  | nil =>
    cases he
    exact hsum
  | cons f fs ih =>
    obtain ⟨hf, hfs⟩ := List.forall_mem_cons.mp hfs
    obtain ⟨hcf, hcfs⟩ := List.forall_mem_cons.mp hcount
    obtain ⟨bytes, hbytes, he⟩ := bind_eq_ok.mp he
    have hspan := eval_span h hf hbytes (List.forall_mem_singleton.mpr hcf)
    have hstop := Expr.eval_add_of_ok (eval_aligned h hf hsum) hspan
    rw [← Nat.cast_add] at hstop
    exact ih hfs he hstop hcfs

/-! ## Offsets -/

/-- The getters of the size fields that govern the given fields answer with the counts, without a
trace on the machine. -/
def Answers (c : Calls) (l : Layout) (κ : Counts) (o : Int) (m : Machine) (fs : List Field) :
    Prop :=
  ∀ f ∈ fs, ∀ i s, f.sizeField = some i → l.fields[i]? = some s →
    c (Name.getter l.name s.name) [.int o] m = .ok (some (κ i : Int), m)

theorem eval_storedCount (hobject : env Name.object = some o)
    (hget : S.calls (Name.getter l.name s.name) [.int o] m = .ok (some v, m)) :
    (storedCount l s).eval S env m = .ok (v, m) :=
  Expr.eval_invoke_some (evalArgs_object hobject) hget

theorem Answers.countsEval {fs : List Field} (h : Answers S.calls l κ o m fs)
    (ho : env Name.object = some o) : CountsEval l κ (storedCount l) S env m fs := by
  intro f hf i s hi hs
  exact eval_storedCount ho (h f hf i s hi hs)

/-- An offset function answers with the place of the slot. -/
theorem run_offset (h : l.WellFormed w) (hk : l.fields[k]? = some f) (hi : f.HasIndex i)
    {g : Function} (hg : offsetFunction w l (l.fields.take k) f = .ok g)
    (hc : Answers S.calls l κ o m (l.fields.take k)) :
    g.run S (slotValues f o i) m = .ok (some (l.offset w κ k f i : Int), m) := by
  obtain ⟨offset, hoffset, hg⟩ := bind_eq_ok.mp hg
  cases pure_eq_ok.mp hg
  obtain ⟨sum, hsum, hoffset⟩ := bind_eq_ok.mp hoffset
  cases pure_eq_ok.mp hoffset
  obtain ⟨env, hbind, henv⟩ := exists_bindParams_slot f o i
  refine Function.run_of_returned hbind (Stmt.execAll_ret ?_)
  have hf : f ∈ l.fields := List.mem_of_getElem? hk
  have hend := eval_prefixSumFrom h (fun f hf => List.mem_of_mem_take hf) hsum
    (Expr.eval_const (0 : Nat)) (hc.countsEval henv.object)
  have hstart := eval_aligned h hf hend
  by_cases hvar : f.isVariable
  · have helem : (Expr.mul (.const (signed64 f.elemSize)) index).eval S env m =
        .ok ((f.elemSize * i : Nat), m) := by
      rw [signed64_elemSize h hf, Nat.cast_mul]
      exact Expr.eval_mul_of_ok (Expr.eval_const _) (Expr.eval_var (henv.index hvar))
    rw [if_pos hvar, Layout.offset, Nat.cast_add]
    exact Expr.eval_add_of_ok hstart helem
  · have hzero : i = 0 := hi (by simpa [Field.isVariable] using hvar)
    rw [if_neg hvar, Layout.offset, hzero, Nat.mul_zero, Nat.add_zero]
    exact hstart

/-! ## Counts in memory -/

/-- The counts of the fields before position `k` are in memory, where they say themselves. -/
def Stored (w : PointerWidth) (l : Layout) (κ : Counts) (b : Bytes) (o : Int) (k : Nat) : Prop :=
  ∀ f ∈ l.fields.take k, ∀ i s, f.sizeField = some i → l.fields[i]? = some s →
    b.load w s.type (o + l.offset w κ i s 0) = κ i

theorem Stored.mono {b : Bytes} {j : Nat} (h : Stored w l κ b o k) (hjk : j ≤ k) :
    Stored w l κ b o j :=
  fun f hf => h f ((List.take_sublist_take_left hjk).subset hf)

/-- Memory holds one count at most for a size field. -/
theorem Stored.unique (hwf : l.WellFormed w) {κ' : Counts} {b : Bytes} (h : Stored w l κ b o k)
    (h' : Stored w l κ' b o k) :
    ∀ f ∈ l.fields.take k, ∀ i, f.sizeField = some i → κ i = κ' i := by
  induction k using Nat.strong_induction_on with
  | _ k ih =>
    intro f hf i hi
    obtain ⟨s, hs, -⟩ := hwf.exists_of_mem_sizeFields (hwf.mem_sizeFields_of_mem_take hf hi)
    have hik := hwf.lt_of_mem_take hf hi
    have hoffset : l.offset w κ i s 0 = l.offset w κ' i s 0 :=
      Layout.offset_congr (ih i hik (h.mono hik.le) (h'.mono hik.le))
    have hload := h f hf i s hi hs
    rw [hoffset, h' f hf i s hi hs] at hload
    exact_mod_cast hload.symm

/-- The size fields before position `n` hold the counts. -/
def CountsBefore (w : PointerWidth) (l : Layout) (κ : Counts) (b : Bytes) (o : Int) (n : Nat) :
    Prop :=
  ∀ i < n, i ∈ l.sizeFields → ∀ s, l.fields[i]? = some s →
    b.load w s.type (o + l.offset w κ i s 0) = κ i

/-- The count at a position depends on counts further to the front only. -/
theorem CountsBefore.update (hwf : l.WellFormed w) {b : Bytes} (h : CountsBefore w l κ b o n)
    {c : Nat} (hc : n ∈ l.sizeFields → ∀ s, l.fields[n]? = some s →
      b.load w s.type (o + l.offset w κ n s 0) = c) :
    CountsBefore w l (Function.update κ n c) b o (n + 1) := by
  intro i hi hmem s hs
  have hoffset : l.offset w (Function.update κ n c) i s 0 = l.offset w κ i s 0 := by
    apply Layout.offset_congr
    intro f hf j hj
    have hji := hwf.lt_of_mem_take hf hj
    exact Function.update_of_ne (hji.trans_le (Nat.le_of_lt_succ hi)).ne _ _
  rw [hoffset]
  rcases Nat.lt_succ_iff_lt_or_eq.mp hi with hlt | rfl
  · rw [h i hlt hmem s hs, Function.update_of_ne hlt.ne]
  · rw [hc hmem s hs, Function.update_self]

theorem exists_countsBefore (hwf : l.WellFormed w)
    (hunsigned : ∀ i ∈ l.sizeFields, ∀ s, l.fields[i]? = some s → s.type.isSigned = false)
    (b : Bytes) (o : Int) (n : Nat) : ∃ κ, CountsBefore w l κ b o n := by
  induction n with
  | zero => exact ⟨fun _ => 0, fun i hi => absurd hi (Nat.not_lt_zero i)⟩
  | succ n ih =>
    obtain ⟨κ, hκ⟩ := ih
    cases hn : l.fields[n]? with
    | none =>
      refine ⟨Function.update κ n 0, hκ.update hwf ?_⟩
      intro _ s hs
      rw [hn] at hs
      cases hs
    | some t =>
      let c := b.load w t.type (o + l.offset w κ n t 0)
      refine ⟨Function.update κ n c.toNat, hκ.update hwf ?_⟩
      intro hmem s hs
      cases hn.symm.trans hs
      have hnonneg : 0 ≤ c := Prim.narrow_nonneg (hunsigned n hmem t hn) _
      rw [Int.toNat_of_nonneg hnonneg]

/-- Whatever memory holds, it holds counts, if no size field can be negative. -/
theorem exists_stored (hwf : l.WellFormed w)
    (hunsigned : ∀ i ∈ l.sizeFields, ∀ s, l.fields[i]? = some s → s.type.isSigned = false)
    (b : Bytes) (o : Int) (k : Nat) : ∃ κ, Stored w l κ b o k := by
  obtain ⟨κ, hκ⟩ := exists_countsBefore hwf hunsigned b o k
  refine ⟨κ, ?_⟩
  intro f hf i s hi hs
  exact hκ i (hwf.lt_of_mem_take hf hi) (hwf.mem_sizeFields_of_mem_take hf hi) s hs

variable {p : Program} {P : Platform}

/-- A getter loads from where the offset function says. -/
theorem call_getter_of_offset (hp : p.Implements P.width l) (hf : f ∈ l.fields) {a : Int}
    (h : p.call P n (Name.offset l.name f.name) (slotValues f o i) m = .ok (some a, m)) :
    p.call P (n + 1) (Name.getter l.name f.name) (slotValues f o i) m =
      .ok (some (m.bytes.load P.width f.type (o + a)), m) := by
  rw [Program.call_succ (hp.getter f hf)]
  obtain ⟨env, hbind, henv⟩ := exists_bindParams_slot f o i
  refine Function.run_of_returned hbind (Stmt.execAll_ret ?_)
  have hoffset : (callOffset l f).eval (p.scope P n) env m = .ok (a, m) :=
    Expr.eval_invoke_some (evalArgs_slotArgs henv) h
  exact Expr.eval_load f.type (Expr.eval_var henv.object) hoffset

/-- A setter stores to where the offset function says. -/
theorem call_setter_of_offset (hp : p.Implements P.width l) (hf : f ∈ l.fields) {a : Int}
    (h : p.call P n (Name.offset l.name f.name) (slotValues f o i) m = .ok (some a, m)) (v : Int) :
    p.call P (n + 1) (Name.setter l.name f.name) (slotValues f o i ++ [.int v]) m =
      .ok (none, { m with bytes := m.bytes.store P.width f.type (o + a) v }) := by
  rw [Program.call_succ (hp.setter f hf)]
  obtain ⟨env, hbind, henv⟩ := exists_bindParams_slot f o i
  have hbind' : bindParams (fun _ => none) (setterFunction l f).params
      (slotValues f o i ++ [.int v]) = some (env.set Name.value v) := bindParams_append hbind
  have hslot : SelectsSlot (env.set Name.value v) f o i := henv.set (by decide) (by decide) v
  have hoffset : (callOffset l f).eval (p.scope P n) (env.set Name.value v) m = .ok (a, m) :=
    Expr.eval_invoke_some (evalArgs_slotArgs hslot) h
  have hstore := Stmt.exec_store (p := f.type) (Expr.eval_var hslot.object) hoffset
    (Expr.eval_var (Env.set_self env Name.value v))
  exact Function.run_of_next hbind' (Stmt.execAll_single hstore)

theorem call_offset_of_answers (h : l.WellFormed P.width) (hp : p.Implements P.width l)
    (hk : l.fields[k]? = some f) (hi : f.HasIndex i)
    (hc : Answers (p.call P n) l κ o m (l.fields.take k)) :
    p.call P (n + 1) (Name.offset l.name f.name) (slotValues f o i) m =
      .ok (some (l.offset P.width κ k f i : Int), m) := by
  obtain ⟨g, hg, hfind⟩ := hp.offset hk
  rw [Program.call_succ hfind]
  exact run_offset h hk hi hg hc

/-- With the counts in memory, offset functions answer with the places of slots. The depth of calls
is bounded by the position of the field. -/
theorem call_offset (h : l.WellFormed P.width) (hp : p.Implements P.width l)
    (hst : Stored P.width l κ m.bytes o k) (hk : l.fields[k]? = some f) (hi : f.HasIndex i)
    (hn : 2 * k + 1 ≤ n) :
    p.call P n (Name.offset l.name f.name) (slotValues f o i) m =
      .ok (some (l.offset P.width κ k f i : Int), m) := by
  induction k using Nat.strong_induction_on generalizing f i n with
  | _ k ih =>
    obtain ⟨n, rfl⟩ : ∃ n', n = n' + 1 := ⟨n - 1, by omega⟩
    apply call_offset_of_answers h hp hk hi
    intro g hg (j : Nat) s hj hs
    have hjk := h.lt_of_mem_take hg hj
    have hnone := h.sizeField_eq_none (h.mem_sizeFields_of_mem_take hg hj) hs
    obtain ⟨n, rfl⟩ : ∃ n', n = n' + 1 := ⟨n - 1, by omega⟩
    have hdepth : 2 * j + 1 ≤ n := by omega
    have hoffset := ih j hjk (hst.mono hjk.le) hs (fun _ => rfl) hdepth
    have hget := call_getter_of_offset hp (List.mem_of_getElem? hs) hoffset
    rwa [slotValues_of_none hnone, hst g hg j s hj hs] at hget

theorem call_getter (h : l.WellFormed P.width) (hp : p.Implements P.width l)
    (hst : Stored P.width l κ m.bytes o k) (hk : l.fields[k]? = some f) (hi : f.HasIndex i)
    (hn : 2 * k + 2 ≤ n) :
    p.call P n (Name.getter l.name f.name) (slotValues f o i) m =
      .ok (some (m.bytes.load P.width f.type (o + l.offset P.width κ k f i)), m) := by
  obtain ⟨n, rfl⟩ : ∃ n', n = n' + 1 := ⟨n - 1, by omega⟩
  exact call_getter_of_offset hp (List.mem_of_getElem? hk)
    (call_offset h hp hst hk hi (Nat.le_of_succ_le_succ hn))

theorem call_setter (h : l.WellFormed P.width) (hp : p.Implements P.width l)
    (hst : Stored P.width l κ m.bytes o k) (hk : l.fields[k]? = some f) (hi : f.HasIndex i)
    (hn : 2 * k + 2 ≤ n) (v : Int) :
    p.call P n (Name.setter l.name f.name) (slotValues f o i ++ [.int v]) m =
      .ok (none, { m with
        bytes := m.bytes.store P.width f.type (o + l.offset P.width κ k f i) v }) := by
  obtain ⟨n, rfl⟩ : ∃ n', n = n' + 1 := ⟨n - 1, by omega⟩
  exact call_setter_of_offset hp (List.mem_of_getElem? hk)
    (call_offset h hp hst hk hi (Nat.le_of_succ_le_succ hn)) v

/-- Where all counts are in memory. -/
theorem stored_length_iff (h : l.WellFormed w) {b : Bytes} :
    Stored w l κ b o l.fields.length ↔ ∀ i ∈ l.sizeFields, ∀ s, l.fields[i]? = some s →
      b.load w s.type (o + l.offset w κ i s 0) = κ i := by
  rw [Stored, List.take_length]
  constructor
  · intro hst i hi s hs
    obtain ⟨f, hf, hfi⟩ := h.mem_sizeFields_iff.mp hi
    exact hst f hf i s hfi hs
  · intro hst f hf i s hi hs
    exact hst i (h.mem_sizeFields_iff.mpr ⟨f, hf, hi⟩) s hs

/-- The getters of all size fields of the object at `o` answer with the counts. -/
def Program.ReadsCounts (p : Program) (P : Platform) (l : Layout) (κ : Counts) (o : Int)
    (m : Machine) : Prop :=
  ∀ i ∈ l.sizeFields, ∀ s, l.fields[i]? = some s →
    ∃ m', p.Returns P (Name.getter l.name s.name) [.int o] m (some (κ i)) m'

/-- Getters that answer with counts read them from memory. -/
theorem stored_of_readsCounts (h : l.WellFormed P.width) (hp : p.Implements P.width l)
    (hread : p.ReadsCounts P l κ o m) (k : Nat) : Stored P.width l κ m.bytes o k := by
  induction k using Nat.strong_induction_on with
  | _ k ih =>
    intro f hf i s hi hs
    have hmem := h.mem_sizeFields_of_mem_take hf hi
    have hload := call_getter h hp (ih i (h.lt_of_mem_take hf hi)) hs (fun _ => rfl) le_rfl
    rw [slotValues_of_none (h.sizeField_eq_none hmem hs)] at hload
    obtain ⟨m', hget⟩ := hread i hmem s hs
    exact Option.some.inj (Program.Returns.unique ⟨_, hload⟩ hget).1

/-! ## Sizes -/

theorem call_compSize (h : l.WellFormed P.width) (hp : p.Implements P.width l) (hn : 1 ≤ n) :
    p.call P n (Name.compSize l.name) (countValues l κ) m =
      .ok (some (l.size P.width κ : Int), m) := by
  obtain ⟨n, rfl⟩ : ∃ n', n = n' + 1 := ⟨n - 1, by omega⟩
  obtain ⟨g, hg, hfind⟩ := hp.compSize
  obtain ⟨sizes, hsizes, hg⟩ := bind_eq_ok.mp hg
  have hrel := forall₂_of_sizeFields hsizes
  obtain ⟨total, htotal, hg⟩ := bind_eq_ok.mp hg
  cases pure_eq_ok.mp hg
  rw [Program.call_succ hfind]
  obtain ⟨env, hbind, hcounts, -⟩ :=
    exists_bindParams_counts h hrel h.nodup_sizeFields (fun _ => none)
  refine Function.run_of_returned hbind (Stmt.execAll_ret ?_)
  refine eval_prefixSumFrom h (fun _ hf => hf) htotal (Expr.eval_const (0 : Nat)) ?_
  intro f hf i s hi hs
  exact Expr.eval_var (hcounts i (h.mem_sizeFields_iff.mpr ⟨f, hf, hi⟩) s hs)

/-- The size of an object is the size for its counts. -/
theorem call_sizeof (h : l.WellFormed P.width) (hp : p.Implements P.width l)
    (hst : Stored P.width l κ m.bytes o l.fields.length) (hn : 2 * l.fields.length + 2 ≤ n) :
    p.call P n (Name.sizeof l.name) [.int o] m = .ok (some (l.size P.width κ : Int), m) := by
  obtain ⟨n, rfl⟩ : ∃ n', n = n' + 1 := ⟨n - 1, by omega⟩
  obtain ⟨g, hg, hfind⟩ := hp.sizeof
  obtain ⟨sizes, hsizes, hg⟩ := bind_eq_ok.mp hg
  have hrel := forall₂_of_sizeFields hsizes
  cases pure_eq_ok.mp hg
  rw [Program.call_succ hfind]
  refine Function.run_of_returned rfl (Stmt.execAll_ret ?_)
  have hobject : (Env.set (fun _ => none) Name.object o) Name.object = some o := Env.set_self _ _ _
  have hargs : ∀ i ∈ l.sizeFields, ∀ s, l.fields[i]? = some s → (storedCount l s).eval (p.scope P n)
      (Env.set (fun _ => none) Name.object o) m = .ok ((κ i : Int), m) := by
    intro (i : Nat) hi s hs
    have hlt := (List.getElem?_eq_some_iff.mp hs).1
    have hget := call_getter h hp (hst.mono hlt.le) hs (fun _ => rfl) (by omega : 2 * i + 2 ≤ n)
    rw [slotValues_of_none (h.sizeField_eq_none hi hs),
      (stored_length_iff h).mp hst i hi s hs] at hget
    exact eval_storedCount hobject hget
  exact Expr.eval_invoke_some (Expr.evalArgs_map hrel (fun _ => rfl) hargs)
    (call_compSize h hp (by omega))

end HeapLayout.Code
