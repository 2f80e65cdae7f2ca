import HeapLayout.Proofs.Allocation
import HeapLayout.Proofs.References
import HeapLayout.Proofs.Termwise

/-!
# The order in which counts are written

Allocation writes the counts one after the other, while the place of a size field depends on the
counts of the arrays before it. Nothing sorts the size fields by this dependence: they are listed in
the order of their first use. That order will do, because what governs an array is used there at the
latest, and a size field is used only behind itself (`Schema.mem_take_of_firstUses`).

So a layout has the order (`Layout.CountsInOrder`) as soon as it is bound, with no condition on its
names or its header. A run of the allocation function on counts that fit finds each size field where
the counts before it put it (`Program.ArrivesAt`), unless a name of its own hides a count.

Any code may write a count later on, also a negative number, and then the places of `Layout.offset`
mean nothing. There it is enough that an offset function has one answer wherever the getters that it
calls have one (`exists_run_offset`).
-/

namespace HeapLayout

/-- The size fields are single values, each listed once, and what governs an array before one of
them is listed before it. -/
structure Layout.CountsInOrder (l : Layout) : Prop where
  nodup : l.sizeFields.Nodup
  single : ∀ i ∈ l.sizeFields, ∀ s, l.fields[i]? = some s → s.sizeField = none
  earlier : ∀ (q i : Nat), l.sizeFields[q]? = some i → ∀ f ∈ l.fields.take i, ∀ c,
    f.sizeField = some c → c ∈ l.sizeFields.take q

namespace Schema

variable {t : TaggedLayout} {b : BoundLayout}

/-- What the members before a listed position use is listed before that position. -/
theorem mem_take_of_firstUses {α : Type} {xs : List α} {use : α → Option FieldId}
    (hlt : ∀ (k : Nat) (x : α) (i : FieldId), xs[k]? = some x → use x = some i → i < k)
    {is : List FieldId} (his : is = firstUses (xs.filterMap use)) {q : Nat} {s c : FieldId}
    (hs : is[q]? = some s) {x : α} (hx : x ∈ xs.take s) (hc : use x = some c) :
    c ∈ is.take q := by
  obtain ⟨hq, hqs⟩ := List.getElem?_eq_some_iff.mp hs
  have hsplit : firstUses (xs.filterMap use) = is.take q ++ s :: is.drop (q + 1) := by
    rw [← his, ← hqs, List.getElem_cons_drop, List.take_append_drop]
  exact mem_of_firstUses hlt hsplit hx hc

theorem countsInOrder_plan (w : PointerWidth) (h : bind t = .ok b) :
    (Layout.plan w b).CountsInOrder := by
  have hsizes := Layout.sizeFields_plan (w := w) h
  refine ⟨hsizes ▸ nodup_firstUses _, ?single, ?earlier⟩
  case single =>
    intro i hi s hs
    rw [hsizes, mem_firstUses, List.mem_filterMap] at hi
    obtain ⟨f, hf, hfi⟩ := hi
    obtain ⟨k, hk⟩ := List.mem_iff_getElem?.mp hf
    obtain ⟨-, s', hs', hnone, -⟩ := Layout.sizeField_plan h hk hfi
    cases hs.symm.trans hs'
    exact hnone
  case earlier =>
    intro q i hq f hf c hc
    have hlt {k : Nat} {f : Field} {i : FieldId} (hk : (Layout.plan w b).fields[k]? = some f)
        (hi : f.sizeField = some i) : i < k := (Layout.sizeField_plan h hk hi).1
    exact mem_take_of_firstUses (fun _ _ _ => hlt) hsizes hq hf hc

end Schema

namespace Code

open Accessor
open Schema (bind_eq_ok pure_eq_ok)

variable {w : PointerWidth} {l : Layout} {f : Field} {i k : Nat} {o : Int} {p : Program}
  {P : Platform} {m : Machine} {is : List FieldId} {c : FieldId → Int}

/-! ## Expressions with one value -/

/-- Under the condition the expression has one and the same value, and leaves the machine alone. -/
def Expr.SteadyOn (A : Scope → Machine → Prop) (env : Env) (e : Expr) : Prop :=
  ∃ v, ∀ S m, A S m → e.eval S env m = .ok (v, m)

theorem Expr.foldClosed_steadyOn (A : Scope → Machine → Prop) (env : Env) :
    FoldClosed (Expr.SteadyOn A env) where
  const v := ⟨v, fun _ _ _ => rfl⟩
  add := by
    rintro a b ⟨x, hx⟩ ⟨y, hy⟩
    exact ⟨x + y, fun S m h => Expr.eval_add_of_ok (hx S m h) (hy S m h)⟩
  mul := by
    rintro a b ⟨x, hx⟩ ⟨y, hy⟩
    exact ⟨x * y, fun S m h => Expr.eval_mul_of_ok (hx S m h) (hy S m h)⟩
  and := by
    rintro a b ⟨x, hx⟩ ⟨y, hy⟩
    refine ⟨bitAnd x y, fun S m h => ?_⟩
    rw [Expr.eval_and]
    exact Expr.eval_bin .and (hx S m h) (hy S m h)

/-- Where the getters of the size fields in front have one answer each, an offset function has one
too. -/
theorem exists_run_offset {earlier : List Field} {g : Function}
    (hg : offsetFunction w l earlier f = .ok g) (A : Scope → Machine → Prop) (o : Int) (i : Nat)
    (hcounts : ∀ f ∈ earlier, ∀ j s, f.sizeField = some j → l.fields[j]? = some s →
      ∃ v, ∀ S m, A S m → S.calls (Name.getter l.name s.name) [.int o] m = .ok (some v, m)) :
    ∃ a, ∀ S m, A S m → g.run S (slotValues f o i) m = .ok (some a, m) := by
  obtain ⟨e, he, hg⟩ := bind_eq_ok.mp hg
  cases pure_eq_ok.mp hg
  obtain ⟨env, hbind, henv⟩ := exists_bindParams_slot f o i
  have hsteady : e.SteadyOn A env := by
    refine (Expr.foldClosed_steadyOn A env).offsetExpr ?_ ?_ he
    · intro f hf j s hj hs
      obtain ⟨v, hv⟩ := hcounts f hf j s hj hs
      exact ⟨v, fun S m h => eval_storedCount henv.object (hv S m h)⟩
    · exact fun hf => ⟨i, fun S m _ => Expr.eval_var (henv.index hf)⟩
  obtain ⟨a, ha⟩ := hsteady
  exact ⟨a, fun S m h => Function.run_of_returned hbind (Stmt.execAll_ret (ha S m h))⟩

/-! ## Reading counts -/

/-- The getters of the listed fields of the object at `o` answer with the given numbers, and leave
the machine alone. -/
def Program.Reads (p : Program) (P : Platform) (l : Layout) (is : List FieldId) (c : FieldId → Int)
    (o : Int) (m : Machine) : Prop :=
  ∀ i ∈ is, ∀ s, l.fields[i]? = some s →
    p.Returns P (Name.getter l.name s.name) [.int o] m (some (c i)) m

/-- Some depth of calls is enough for all of the getters. -/
theorem Program.Reads.exists_depth (h : p.Reads P l is c o m) :
    ∃ n, ∀ i ∈ is, ∀ s, l.fields[i]? = some s →
      p.call P n (Name.getter l.name s.name) [.int o] m = .ok (some (c i), m) := by
  induction is with
  | nil => exact ⟨0, List.forall_mem_nil _⟩
  | cons i is ih =>
    obtain ⟨hi, his⟩ := List.forall_mem_cons.mp h
    obtain ⟨n, hn⟩ := ih his
    cases hs : l.fields[i]? with
    | none => exact ⟨n, List.forall_mem_cons.mpr ⟨fun s h => by simp [hs] at h, hn⟩⟩
    | some s =>
      obtain ⟨n', hn'⟩ := hi s hs
      refine ⟨max n n', List.forall_mem_cons.mpr ⟨?_, fun j hj t ht => ?_⟩⟩
      · intro t ht
        cases hs.symm.trans ht
        exact Program.call_mono (Nat.le_max_right n n') _ _ _ _ hn'
      · exact Program.call_mono (Nat.le_max_left n n') _ _ _ _ (hn j hj t ht)

/-- The place of a slot is known from the counts of the arrays before it. -/
theorem exists_returns_offset (hp : p.Implements P.width l) (hk : l.fields[k]? = some f)
    (his : ∀ g ∈ l.fields.take k, ∀ j, g.sizeField = some j → j ∈ is) (c : FieldId → Int) (o : Int)
    (i : Nat) : ∃ a, ∀ m, p.Reads P l is c o m →
      p.Returns P (Name.offset l.name f.name) (slotValues f o i) m (some a) m := by
  obtain ⟨g, hg, hfind⟩ := hp.offset hk
  -- The condition of `Program.Reads` for calls of any depth.
  let A (S : Scope) (m : Machine) : Prop := ∀ j ∈ is, ∀ s, l.fields[j]? = some s →
    S.calls (Name.getter l.name s.name) [.int o] m = .ok (some (c j), m)
  obtain ⟨a, ha⟩ := exists_run_offset hg A o i
    fun g hg j s hj hs => ⟨c j, fun S m h => h j (his g hg j hj) s hs⟩
  refine ⟨a, fun m hread => ?_⟩
  obtain ⟨n, hn⟩ := hread.exists_depth
  exact ⟨n + 1, (Program.call_succ hfind _).symm ▸ ha (p.scope P n) m hn⟩

/-! ## Allocation -/

/-- An allocation on the counts `κ` gets to the write for position `q` of the size fields with the
counts before it in place, and finds the size field `s` where these counts put it. -/
def Program.ArrivesAt (p : Program) (P : Platform) (l : Layout) (κ : Counts) (m : Machine)
    (q i : Nat) (s : Field) : Prop :=
  ∃ g env n env' m', p.function? (Name.alloc l.name) = some g ∧
    bindParams (fun _ => none) g.params (.context :: countValues l κ) = some env ∧
    Stmt.execAll (p.scope P n) (g.body.take (q + 1)) env m = .ok (.next env', m') ∧
    p.Reads P l (l.sizeFields.take q) (fun c => κ c) (newObject P l κ m) m' ∧
    p.Returns P (Name.offset l.name s.name) [.int (newObject P l κ m)] m'
      (some (l.offset P.width κ i s 0)) m'

/-- Allocation writes the counts in an order in which the place of each depends on those before it
only. -/
structure Program.WritesInOrder (p : Program) (P : Platform) (l : Layout) : Prop where
  /-- Once it has memory, it writes the counts one after the other, before anything else. -/
  alloc : ∃ g sizes size rest, p.function? (Name.alloc l.name) = some g ∧
    List.Forall₂ (fun i s => l.fields[i]? = some s) l.sizeFields sizes ∧
    g.body = .bind Name.object .refptr (.alloc size l.category) :: sizes.map (writeCount l) ++ rest
  /-- Counts that agree in the size fields before one give the same place for it. -/
  offset : ∀ (q i : Nat) s, l.sizeFields[q]? = some i → l.fields[i]? = some s → ∀ κ κ' : Counts,
    (∀ c ∈ l.sizeFields.take q, κ c = κ' c) → l.offset P.width κ i s 0 = l.offset P.width κ' i s 0
  /-- A run on counts that fit has the counts before each one in place when it writes that one. No
  count may hide a local of the run. -/
  arrives : (∀ f ∈ l.fields, f.name ∉ Name.reserved) → ∀ κ, Representable P.width l κ →
    ∀ (q i : Nat) s, l.sizeFields[q]? = some i → l.fields[i]? = some s → ∀ m,
      p.ArrivesAt P l κ m q i s
  /-- Whatever memory holds, the getters of all size fields answer. -/
  answers : ∀ o m, ∃ c, p.Reads P l l.sizeFields c o m
  /-- Where the getters of the size fields before one answer with given numbers, the place of that
  one is given as well, and so is what a write of its count does. -/
  place : ∀ (q i : Nat) s, l.sizeFields[q]? = some i → l.fields[i]? = some s → ∀ c o, ∃ a, ∀ m,
    p.Reads P l (l.sizeFields.take q) c o m →
      p.Returns P (Name.offset l.name s.name) [.int o] m (some a) m ∧
      ∀ v, p.Returns P (Name.setter l.name s.name) [.int o, .int v] m none
        { m with bytes := m.bytes.store P.width s.type (o + a) v }

/-- The counts written so far are enough to find the size fields up to the next one. -/
theorem Holds.stored_of_take (hwf : l.WellFormed w) (hl : l.CountsInOrder) {κ : Counts} {q r : Nat}
    {m₀ : Machine} (h : Holds w l κ o (countContents (l.sizeFields.take q) κ) m₀ m) (hrq : r ≤ q)
    (hr : l.sizeFields[r]? = some i) : Stored w l κ m.bytes o i := by
  apply h.stored hwf
  intro f hf c s hc _
  have hmem : c ∈ l.sizeFields.take q :=
    (List.take_sublist_take_left hrq).subset (hl.earlier r i hr f hf c hc)
  rw [countContents, if_pos hmem]

theorem Holds.reads_take (hwf : l.WellFormed P.width) (hl : l.CountsInOrder)
    (hp : p.Implements P.width l) {κ : Counts} {q : Nat} {m₀ : Machine}
    (h : Holds P.width l κ o (countContents (l.sizeFields.take q) κ) m₀ m) :
    p.Reads P l (l.sizeFields.take q) (fun c => κ c) o m := by
  intro i hi s hs
  obtain ⟨r, hr⟩ := List.mem_iff_getElem?.mp hi
  rw [List.getElem?_take] at hr
  split at hr
  · next hrq =>
    have hnone := hl.single i (List.mem_of_getElem? hr) s hs
    have hget := call_getter hwf hp (h.stored_of_take hwf hl hrq.le hr) hs (fun _ => rfl) le_rfl
    have hlength : 0 < s.length κ := by
      rw [Field.length_of_none hnone]
      exact Nat.one_pos
    rw [slotValues_of_none hnone, h.load i s 0 hs hlength, countContents, if_pos hi] at hget
    exact ⟨_, hget⟩
  · cases hr

theorem arrivesAt_of_implements (hwf : l.WellFormed P.width) (hl : l.CountsInOrder)
    (hp : p.Implements P.width l) {κ : Counts} (hrep : Representable P.width l κ) {q : Nat}
    {s : Field} (hq : l.sizeFields[q]? = some i) (hs : l.fields[i]? = some s) (m : Machine) :
    p.ArrivesAt P l κ m q i s := by
  obtain ⟨g, hg, hfind⟩ := hp.alloc
  obtain ⟨sizes, hsizes, hg⟩ := bind_eq_ok.mp hg
  have hrel := forall₂_of_sizeFields hsizes
  obtain ⟨inits, -, hg⟩ := bind_eq_ok.mp hg
  cases pure_eq_ok.mp hg
  obtain ⟨env, hbind, hcounts, -⟩ :=
    exists_bindParams_counts (κ := κ) hwf hrel hwf.nodup_sizeFields (fun _ => none)
  obtain ⟨env', m', hrun, -, hm'⟩ := exec_startAlloc (m := m) hwf hp hrep hrel hcounts le_rfl q
  have hlength : q ≤ (sizes.map (writeCount l)).length := by
    rw [List.length_map, ← hrel.length_eq]
    exact (List.getElem?_eq_some_iff.mp hq).1.le
  have hoffset := call_offset hwf hp (hm'.stored_of_take hwf hl le_rfl hq) hs (fun _ => rfl) le_rfl
  rw [slotValues_of_none (hl.single i (List.mem_of_getElem? hq) s hs)] at hoffset
  refine ⟨_, env, 2 * l.fields.length + 1, env', m', hfind, hbind, ?_, hm'.reads_take hwf hl hp, _,
    hoffset⟩
  rwa [List.append_assoc, List.cons_append, List.take_succ_cons,
    List.take_append_of_le_length hlength, ← List.map_take]

/-- The size fields before one decide where it is. -/
theorem exists_returns_place (hl : l.CountsInOrder) (hp : p.Implements P.width l) {q : Nat}
    (hq : l.sizeFields[q]? = some i) {s : Field} (hs : l.fields[i]? = some s) (c : FieldId → Int)
    (o : Int) : ∃ a, ∀ m, p.Reads P l (l.sizeFields.take q) c o m →
      p.Returns P (Name.offset l.name s.name) (slotValues s o 0) m (some a) m :=
  exists_returns_offset hp hs (hl.earlier q i hq) c o 0

/-- So each getter answers after those before it. -/
theorem exists_returns_getter (hl : l.CountsInOrder) (hp : p.Implements P.width l) {q : Nat}
    (hq : l.sizeFields[q]? = some i) (hread : p.Reads P l (l.sizeFields.take q) c o m) :
    ∃ v, ∀ s, l.fields[i]? = some s →
      p.Returns P (Name.getter l.name s.name) [.int o] m (some v) m := by
  cases hs : l.fields[i]? with
  | none => exact ⟨0, fun s h => by cases h⟩
  | some s =>
    obtain ⟨a, ha⟩ := exists_returns_place hl hp hq hs c o
    obtain ⟨n, hn⟩ := ha m hread
    have hget := call_getter_of_offset hp (List.mem_of_getElem? hs) hn
    rw [slotValues_of_none (hl.single i (List.mem_of_getElem? hq) s hs)] at hget
    refine ⟨m.bytes.load P.width s.type (o + a), fun t ht => ?_⟩
    cases ht
    exact ⟨n + 1, hget⟩

theorem Program.Reads.concat (h : p.Reads P l is c o m) (hi : i ∉ is) {v : Int}
    (hv : ∀ s, l.fields[i]? = some s →
      p.Returns P (Name.getter l.name s.name) [.int o] m (some v) m) :
    p.Reads P l (is ++ [i]) (Function.update c i v) o m := by
  refine List.forall_mem_append.mpr ⟨?_, List.forall_mem_singleton.mpr ?_⟩
  · intro j hj s hs
    rw [Function.update_of_ne (ne_of_mem_of_not_mem hj hi)]
    exact h j hj s hs
  · intro s hs
    rw [Function.update_self]
    exact hv s hs

theorem exists_reads_take (hl : l.CountsInOrder) (hp : p.Implements P.width l) (o : Int)
    (m : Machine) (q : Nat) : ∃ c, p.Reads P l (l.sizeFields.take q) c o m := by
  induction q with
  | zero => exact ⟨fun _ => 0, List.forall_mem_nil _⟩
  | succ q ih =>
    obtain ⟨c, hc⟩ := ih
    rw [List.take_add_one]
    cases hq : l.sizeFields[q]? with
    | none => exact ⟨c, by rwa [Option.toList_none, List.append_nil]⟩
    | some i =>
      obtain ⟨v, hv⟩ := exists_returns_getter hl hp hq hc
      -- No size field is listed twice, so the new answer replaces none of the others.
      have hdrop : i ∈ l.sizeFields.drop q := List.mem_of_getElem? (i := 0) (by simpa using hq)
      have hi : i ∉ l.sizeFields.take q := fun htake =>
        List.disjoint_take_drop hl.nodup le_rfl htake hdrop
      exact ⟨_, hc.concat hi hv⟩

theorem writesInOrder_of_implements (hl : l.CountsInOrder) (hp : p.Implements P.width l)
    (hwf : l.fields ≠ [] → (∀ f ∈ l.fields, f.name ∉ Name.reserved) → l.WellFormed P.width) :
    p.WritesInOrder P l := by
  refine ⟨?alloc, ?offset, ?arrives, ?answers, ?place⟩
  case alloc =>
    obtain ⟨g, hg, hfind⟩ := hp.alloc
    obtain ⟨sizes, hsizes, hg⟩ := bind_eq_ok.mp hg
    obtain ⟨inits, -, hg⟩ := bind_eq_ok.mp hg
    cases pure_eq_ok.mp hg
    exact ⟨_, sizes, _, inits ++ [.ret (some object)], hfind, forall₂_of_sizeFields hsizes,
      List.append_assoc _ _ _⟩
  case offset =>
    intro q i s hq _ κ κ' hκ
    exact Layout.offset_congr fun f hf c hc => hκ c (hl.earlier q i hq f hf c hc)
  case arrives =>
    intro hreserved κ hrep q i s hq hs m
    have hne : l.fields ≠ [] := List.ne_nil_of_mem (List.mem_of_getElem? hs)
    exact arrivesAt_of_implements (hwf hne hreserved) hl hp hrep hq hs m
  case answers =>
    intro o m
    simpa using exists_reads_take hl hp o m l.sizeFields.length
  case place =>
    intro q i s hq hs c o
    obtain ⟨a, ha⟩ := exists_returns_place hl hp hq hs c o
    refine ⟨a, fun m hread => ?_⟩
    obtain ⟨n, hn⟩ := ha m hread
    have hset := call_setter_of_offset hp (List.mem_of_getElem? hs) hn
    rw [slotValues_of_none (hl.single i (List.mem_of_getElem? hq) s hs)] at hn hset
    exact ⟨⟨n, hn⟩, fun v => ⟨n + 1, hset v⟩⟩

/-! ## Bound layouts -/

variable {t : TaggedLayout} {b : BoundLayout}

/-- A bound layout refers to fields that it has. -/
theorem exists_layoutDecls_plan (w : PointerWidth) (h : Schema.bind t = .ok b) :
    ∃ decls, layoutDecls w (Layout.plan w b) = .ok decls := by
  have hsizeField : ∀ f ∈ (Layout.plan w b).fields, ∀ i ∈ f.sizeField,
      i < (Layout.plan w b).fields.length := by
    intro f hf i hi
    obtain ⟨k, hk⟩ := List.mem_iff_getElem?.mp hf
    obtain ⟨-, s, hs, -⟩ := Layout.sizeField_plan h hk hi
    exact (List.getElem?_eq_some_iff.mp hs).1
  refine exists_layoutDecls_iff.mpr
    ((forall_mem_references (p := (· < (Layout.plan w b).fields.length))).mpr ⟨?_, ?_⟩)
  · intro i hi
    rw [Layout.sizeFields_plan h, Schema.mem_firstUses, List.mem_filterMap] at hi
    obtain ⟨f, hf, hfi⟩ := hi
    exact hsizeField f hf i hfi
  · intro f hf
    refine ⟨hsizeField f hf, fun i hi => ?_⟩
    obtain ⟨s, hs, -⟩ := Layout.typeField_plan h hf hi
    exact (List.getElem?_eq_some_iff.mp hs).1

/-- In a bound layout, whatever governs an array before a size field is listed before it. So the
generated code can write the counts in that order, if the names of the fields are distinct. -/
theorem writesInOrder_of_bind (h : Schema.bind t = .ok b)
    (hnames : (t.fields.map (·.name)).Nodup) :
    (∀ (q s : Nat), b.sizeFields[q]? = some s → ∀ f ∈ b.fields.take s, ∀ c,
      f.sizeField = some c → ∃ r < q, b.sizeFields[r]? = some c) ∧
    ∀ P : Platform, ∃ decls, layoutDecls P.width (Layout.plan P.width b) = .ok decls ∧
      (Program.ofDecls P.width decls).WritesInOrder P (Layout.plan P.width b) := by
  constructor
  · intro q s hq f hf c hc
    have hlt {k : Nat} {f : BoundField} {i : FieldId} (hk : b.fields[k]? = some f)
        (hi : f.sizeField = some i) : i < k := (Schema.sizeField_of_bind h hk hi).1
    have htake := Schema.mem_take_of_firstUses (fun _ _ _ => hlt) (Schema.sizeFields_of_bind h) hq
      hf hc
    obtain ⟨r, hr⟩ := List.mem_iff_getElem?.mp htake
    rw [List.getElem?_take] at hr
    split at hr
    · next hrq => exact ⟨r, hrq, hr⟩
    · cases hr
  · intro P
    obtain ⟨decls, hdecls⟩ := exists_layoutDecls_plan P.width h
    have hsame := Layout.map_name_plan (w := P.width) h
    have hp := implements_of_layoutDecls (hsame.symm ▸ hnames) hdecls
    refine ⟨decls, hdecls, writesInOrder_of_implements (Schema.countsInOrder_plan P.width h) hp ?_⟩
    intro hne hreserved
    refine Layout.wellFormed_plan h ?_ hnames ?_
    · rintro hnil
      rw [hnil] at hsame
      exact hne (List.map_eq_nil_iff.mp hsame)
    · have hall : ∀ n ∈ (Layout.plan P.width b).fields.map (·.name), n ∉ Name.reserved :=
        List.forall_mem_map.mpr hreserved
      rw [hsame] at hall
      exact fun f hf => hall f.name (List.mem_map_of_mem hf)

/-- Lengths between arrays, the first of them used last. -/
def interleaved : TaggedLayout where
  id := 0
  name := "mixed"
  category := "plain"
  fields := [{ name := "a", type := .uint32 },
    { name := "b", type := .uint32 },
    { name := "xs", type := .uint8, sizeField := some "b" },
    { name := "c", type := .uint16 },
    { name := "ys", type := .uint8, sizeField := some "c" },
    { name := "zs", type := .uint8, sizeField := some "a" }]

/-- The length `c` stands behind an array, whose own length has been written before. -/
theorem writesInOrder_interleaved :
    (interleaved.fields.map (·.name)).Nodup ∧
      ∃ b, Schema.bind interleaved = .ok b ∧ b.sizeFields = [1, 3, 0] ∧
        (∃ r < 1, b.sizeFields[r]? = some 1) ∧
        ∃ decls, layoutDecls .eight (Layout.plan .eight b) = .ok decls ∧
          (Program.ofDecls .eight decls).WritesInOrder examplePlatform (Layout.plan .eight b) ∧
          ∃ s, s.name = "c" ∧ ∀ m, (Program.ofDecls .eight decls).ArrivesAt examplePlatform
            (Layout.plan .eight b) (fun _ => 2) m 1 3 s := by
  have hnames : (interleaved.fields.map (·.name)).Nodup := by decide
  obtain ⟨b, hb⟩ : ∃ b, Schema.bind interleaved = .ok b := ⟨_, rfl⟩
  obtain ⟨horder, hwrites⟩ := writesInOrder_of_bind hb hnames
  obtain ⟨decls, hdecls, hall⟩ := hwrites examplePlatform
  cases hb
  refine ⟨hnames, _, rfl, rfl, ?_, decls, hdecls, hall, ?_⟩
  · exact horder 1 3 rfl _ (List.mem_of_getElem? (i := 2) rfl) 1 rfl
  · refine ⟨_, ?_, fun m => hall.arrives (by decide) _ ?_ 1 3 _ rfl rfl m⟩
    · rfl
    · intro i hi s hs
      change i ∈ [1, 3, 0] at hi
      rw [List.mem_cons, List.mem_cons, List.mem_singleton] at hi
      rcases hi with rfl | rfl | rfl <;> cases hs <;> rfl

end Code

end HeapLayout
