import HeapLayout.Json.Code
import HeapLayout.Json.Layout
import Mathlib.Tactic.Common

/-!
# What is written as JSON is read back

Programs, resolved layouts and schemas are exported as JSON and read again by other tools. A value
comes back exactly when every number in it fits the machine type that its member is declared with
(`InRange`); there is no further condition, on texts or on how deep programs nest.

**One notion.** `Json.Recovers read write P` says that `read` undoes `write` on the values with `P`
and on no others. It carries over to lists, to members of an object and to members that may be null,
provided that nothing but `none` is written as null.

**Records.** A reader of a record succeeds with `a` when each member reads as the field of `a`
(`ofJson?_eq_some`), so a record is in range when its fields are.

**Trees.** Expressions and statements follow their constructors. Their readers recurse on members
together with a proof that these are smaller, hence `Json.exists_child?`.

Main result: `exports_recovered_iff`.
-/

namespace HeapLayout

namespace Json

variable {α : Type} {read : Json → Option α} {write : α → Json} {P : α → Prop} {key : String}
  {v j : Json}

/-! ## Members of smaller size -/

theorem exists_child? (h : j.member? key = some v) : ∃ hlt, j.child? key = some ⟨v, hlt⟩ := by
  cases j with
  | obj ms =>
    have hval := child?_obj ms key
    rw [show ms.lookup key = some v from h, Option.map_eq_some_iff] at hval
    obtain ⟨c, hc, rfl⟩ := hval
    exact ⟨c.property, hc⟩
  | _ => simp [member?] at h

theorem exists_children? {xs : List Json} (h : j.member? key = some (arr xs)) :
    ∃ hlt, j.children? key = some ⟨xs, hlt⟩ := by
  obtain ⟨hlt, hc⟩ := exists_child? h
  rw [arr.sizeOf_spec] at hlt
  exact ⟨by omega, by simp [children?, hc]⟩

/-! ## Readers that undo writers -/

/-- Reading what was written gives the value back when it has the property, and only then. -/
def Recovers (read : Json → Option α) (write : α → Json) (P : α → Prop) : Prop :=
  ∀ a, read (write a) = some a ↔ P a

theorem recovers_str : Recovers str? str fun _ => True := by
  simp [Recovers, str?]

theorem recovers_int64 : Recovers int64? int FitsInt64 := by
  simp [Recovers, int64?]

theorem recovers_uint64 : Recovers uint64? ofNat FitsUInt64 := by
  simp [Recovers, uint64?, ofNat, natUpTo?]

theorem recovers_uint32 : Recovers uint32? ofNat FitsUInt32 := by
  simp [Recovers, uint32?, ofNat, natUpTo?]

theorem ofNat_ne_null (n : Nat) : ofNat n ≠ null := nofun

theorem Recovers.list (h : Recovers read write P) :
    Recovers (list? read) (ofList write) fun as => ∀ a ∈ as, P a := by
  intro as
  simp only [ofList, list?, List.mapM_map]
  induction as with
  | nil => simp
  | cons a as ih => simp [h a, ih, Option.bind_eq_some_iff]

theorem Recovers.get? (h : Recovers read write P) {a : α} (hj : j.member? key = some (write a)) :
    j.get? key read = some a ↔ P a := by
  rw [Json.get?, hj, Option.bind_some, h a]

theorem Recovers.getList? (h : Recovers read write P) {as : List α}
    (hj : j.member? key = some (ofList write as)) :
    j.getList? key read = some as ↔ ∀ a ∈ as, P a := by
  rw [Json.getList?, hj]
  exact h.list as

/-- A value that is written as null would come back as one that is missing. -/
theorem Recovers.getOptional? (h : Recovers read write P) (hnull : ∀ a, write a ≠ null)
    {x : Option α} (hj : j.member? key = some (ofOption write x)) :
    j.getOptional? key read = some x ↔ ∀ a ∈ x, P a := by
  rw [Json.getOptional?, hj]
  cases x with
  | none => simp [ofOption]
  | some a =>
    have := hnull a
    simp [ofOption, h a]

end Json

open Json

/-! ## Schemas -/

theorem Prim.recovers : Recovers ofJson? toJson fun _ => True := by
  simp [Recovers, ofJson?, toJson, str?, ofName?_name]

def InitValue.InRange : InitValue → Prop
  | int v => FitsInt64 v
  | named _ => True

theorem InitValue.recovers : Recovers ofJson? toJson InRange := by
  intro v
  cases v <;> simp [ofJson?, toJson, InRange, int64?]

theorem InitValue.toJson_ne_null (v : InitValue) : v.toJson ≠ .null := by
  cases v <;> simp [toJson]

def FieldDef.InRange (f : FieldDef) : Prop :=
  ∀ v ∈ f.init, v.InRange

theorem FieldDef.ofJson?_eq_some {j : Json} {f : FieldDef} :
    ofJson? j = some f ↔ j.get? "name" str? = some f.name ∧
      j.get? "type" Prim.ofJson? = some f.type ∧
      j.getOptional? "size-field" str? = some f.sizeField ∧
      j.getOptional? "type-field" str? = some f.typeField ∧
      j.getOptional? "init" InitValue.ofJson? = some f.init := by
  cases f
  simp [ofJson?, Option.bind_eq_some_iff]

theorem FieldDef.recovers : Recovers ofJson? toJson InRange := by
  intro f
  rw [ofJson?_eq_some, recovers_str.get?, Prim.recovers.get?, recovers_str.getOptional? (by simp),
    recovers_str.getOptional? (by simp), InitValue.recovers.getOptional? InitValue.toJson_ne_null]
  · simp [InRange]
  all_goals rfl

def LayoutDef.InRange (l : LayoutDef) : Prop :=
  ∀ f ∈ l.fields, f.InRange

theorem LayoutDef.ofJson?_eq_some {j : Json} {l : LayoutDef} :
    ofJson? j = some l ↔ j.get? "name" str? = some l.name ∧
      j.getOptional? "extends" str? = some l.parent ∧ j.get? "category" str? = some l.category ∧
      j.getList? "fields" FieldDef.ofJson? = some l.fields ∧
      j.getOptional? "comment" str? = some l.comment := by
  cases l
  simp [ofJson?, Option.bind_eq_some_iff]

theorem LayoutDef.recovers : Recovers ofJson? toJson InRange := by
  intro l
  rw [ofJson?_eq_some, recovers_str.get?, recovers_str.getOptional? (by simp), recovers_str.get?,
    FieldDef.recovers.getList?, recovers_str.getOptional? (by simp)]
  · simp [InRange]
  all_goals rfl

/-! ## Resolved layouts -/

def InitConst.InRange : InitConst → Prop
  | int v => FitsInt64 v
  | null | undefWord | undefType => True

theorem InitConst.recovers : Recovers ofJson? toJson InRange := by
  intro c
  cases c <;> simp [ofJson?, toJson, InRange, int64?]

/-- The constant null is written as a text. -/
theorem InitConst.toJson_ne_null (c : InitConst) : c.toJson ≠ .null := by
  cases c <;> simp [toJson]

def Alignment.InRange : Alignment → Prop
  | static pad => FitsUInt64 pad
  | dynamic => True

theorem Alignment.recovers : Recovers ofJson? toJson InRange := by
  intro a
  cases a with
  | static pad =>
    have hkind : (static pad).toJson.get? "kind" str? = some "static" := rfl
    have hpad : (static pad).toJson.get? "pad" uint64? = some pad ↔ _ := recovers_uint64.get? rfl
    simp [ofJson?, Option.bind_eq_some_iff, hkind, hpad, InRange]
  | dynamic => simp [ofJson?, toJson, Json.get?, member?, str?, InRange]

structure Field.InRange (f : Field) : Prop where
  elemSize : FitsUInt64 f.elemSize
  sizeField : ∀ i ∈ f.sizeField, FitsUInt64 i
  typeField : ∀ i ∈ f.typeField, FitsUInt64 i
  init : ∀ c ∈ f.init, c.InRange
  align : f.align.InRange
  staticOffset : ∀ n ∈ f.staticOffset, FitsUInt64 n

theorem Field.ofJson?_eq_some {j : Json} {f : Field} :
    ofJson? j = some f ↔ j.get? "name" str? = some f.name ∧
      j.get? "ty" Prim.ofJson? = some f.type ∧ j.get? "elem_size" uint64? = some f.elemSize ∧
      j.getOptional? "size_field" uint64? = some f.sizeField ∧
      j.getOptional? "type_field" uint64? = some f.typeField ∧
      j.getOptional? "init" InitConst.ofJson? = some f.init ∧
      j.get? "align" Alignment.ofJson? = some f.align ∧
      j.getOptional? "static_offset" uint64? = some f.staticOffset := by
  cases f
  simp [ofJson?, Option.bind_eq_some_iff]

theorem Field.recovers : Recovers ofJson? toJson InRange := by
  intro f
  rw [ofJson?_eq_some, recovers_str.get?, Prim.recovers.get?, recovers_uint64.get?,
    recovers_uint64.getOptional? ofNat_ne_null, recovers_uint64.getOptional? ofNat_ne_null,
    InitConst.recovers.getOptional? InitConst.toJson_ne_null, Alignment.recovers.get?,
    recovers_uint64.getOptional? ofNat_ne_null]
  · constructor
    · rintro ⟨-, -, hsize, hcount, htype, hinit, halign, hoffset⟩
      exact ⟨hsize, hcount, htype, hinit, halign, hoffset⟩
    · intro h
      exact ⟨trivial, trivial, h.elemSize, h.sizeField, h.typeField, h.init, h.align,
        h.staticOffset⟩
  all_goals rfl

structure Layout.InRange (l : Layout) : Prop where
  id : FitsUInt32 l.id
  fields : ∀ f ∈ l.fields, f.InRange
  sizeFields : ∀ c ∈ l.sizeFields, FitsUInt64 c

theorem Layout.ofJson?_eq_some {j : Json} {l : Layout} :
    ofJson? j = some l ↔ j.get? "id" uint32? = some l.id ∧ j.get? "name" str? = some l.name ∧
      j.get? "category" str? = some l.category ∧ j.getOptional? "comment" str? = some l.comment ∧
      j.get? "fields" (list? Field.ofJson?) = some l.fields ∧
      j.get? "size_fields" (list? uint64?) = some l.sizeFields := by
  cases l
  simp [ofJson?, Option.bind_eq_some_iff]

theorem Layout.recovers : Recovers ofJson? toJson InRange := by
  intro l
  rw [ofJson?_eq_some, recovers_uint32.get?, recovers_str.get?, recovers_str.get?,
    recovers_str.getOptional? (by simp), Field.recovers.list.get?, recovers_uint64.list.get?]
  · constructor
    · rintro ⟨hid, -, -, -, hfields, hsizes⟩
      exact ⟨hid, hfields, hsizes⟩
    · intro h
      exact ⟨h.id, trivial, trivial, by simp, h.fields, h.sizeFields⟩
  all_goals rfl

namespace Code

/-! ## Expressions -/

theorem BinOp.ofText?_text (op : BinOp) : ofText? op.text = some op := by
  cases op <;> rfl

theorem UndefKind.ofText?_text (k : UndefKind) : ofText? k.text = some k := by
  cases k <;> rfl

theorem Callee.recovers : Recovers ofJson? toJson fun _ => True := by
  intro c
  cases c <;> simp [ofJson?, toJson, Json.get?, member?, str?, List.lookup_cons]

mutual

def Expr.InRange : Expr → Prop
  | .const v => FitsInt64 v
  | .bin _ lhs rhs => lhs.InRange ∧ rhs.InRange
  | .load _ base offset => base.InRange ∧ offset.InRange
  | .call _ args => Expr.AllInRange args
  | .alloc size _ => size.InRange
  | .var _ | .layoutId _ | .undef _ | .context => True

def Expr.AllInRange : List Expr → Prop
  | [] => True
  | e :: es => e.InRange ∧ Expr.AllInRange es

end

mutual

theorem Expr.ofJson?_toJson (e : Expr) : Expr.ofJson? e.toJson = some e ↔ e.InRange := by
  rw [Expr.ofJson?]
  cases e with
  | var name | layoutId name | context =>
    simp [Expr.toJson, Json.get?, member?, List.lookup_cons, str?, Expr.InRange]
  | const v =>
    have hop : (Expr.const v).toJson.get? "op" str? = some "const" := rfl
    have hvalue : (Expr.const v).toJson.get? "value" int64? = some v ↔ _ := recovers_int64.get? rfl
    simp [Option.bind_eq_some_iff, hop, hvalue, Expr.InRange]
  | undef kind =>
    simp [Expr.toJson, Json.get?, member?, List.lookup_cons, str?, Expr.InRange,
      UndefKind.ofText?_text]
  | bin op lhs rhs =>
    have hop : (Expr.bin op lhs rhs).toJson.get? "op" str? = some "bin" := rfl
    have hbin : (Expr.bin op lhs rhs).toJson.get? "bin" str? = some op.text := rfl
    obtain ⟨_, hlhs⟩ : ∃ h, (Expr.bin op lhs rhs).toJson.child? "lhs" = some ⟨lhs.toJson, h⟩ :=
      exists_child? rfl
    obtain ⟨_, hrhs⟩ : ∃ h, (Expr.bin op lhs rhs).toJson.child? "rhs" = some ⟨rhs.toJson, h⟩ :=
      exists_child? rfl
    simp [Option.bind_eq_some_iff, hop, hbin, BinOp.ofText?_text, hlhs, hrhs, Expr.InRange,
      Expr.ofJson?_toJson lhs, Expr.ofJson?_toJson rhs]
  | load type base offset =>
    have hop : (Expr.load type base offset).toJson.get? "op" str? = some "load" := rfl
    have htype : (Expr.load type base offset).toJson.get? "ty" Prim.ofJson? = some type :=
      (Prim.recovers.get? rfl).mpr trivial
    obtain ⟨_, hbase⟩ :
        ∃ h, (Expr.load type base offset).toJson.child? "base" = some ⟨base.toJson, h⟩ :=
      exists_child? rfl
    obtain ⟨_, hoffset⟩ :
        ∃ h, (Expr.load type base offset).toJson.child? "offset" = some ⟨offset.toJson, h⟩ :=
      exists_child? rfl
    simp [Option.bind_eq_some_iff, hop, htype, hbase, hoffset, Expr.InRange,
      Expr.ofJson?_toJson base, Expr.ofJson?_toJson offset]
  | call callee args =>
    have hop : (Expr.call callee args).toJson.get? "op" str? = some "call" := rfl
    have hcallee : (Expr.call callee args).toJson.get? "callee" Callee.ofJson? = some callee :=
      (Callee.recovers.get? rfl).mpr trivial
    obtain ⟨_, hargs⟩ :
        ∃ h, (Expr.call callee args).toJson.children? "args" = some ⟨Expr.listToJson args, h⟩ :=
      exists_children? rfl
    simp [Option.bind_eq_some_iff, hop, hcallee, hargs, Expr.InRange,
      Expr.listOfJson?_listToJson args]
  | alloc size category =>
    have hop : (Expr.alloc size category).toJson.get? "op" str? = some "alloc" := rfl
    have hcategory : (Expr.alloc size category).toJson.get? "category" str? = some category := rfl
    obtain ⟨_, hsize⟩ :
        ∃ h, (Expr.alloc size category).toJson.child? "size" = some ⟨size.toJson, h⟩ :=
      exists_child? rfl
    simp [Option.bind_eq_some_iff, hop, hcategory, hsize, Expr.InRange, Expr.ofJson?_toJson size]

theorem Expr.listOfJson?_listToJson :
    ∀ es : List Expr, Expr.listOfJson? (Expr.listToJson es) = some es ↔ Expr.AllInRange es
  | [] => by simp [Expr.listOfJson?, Expr.listToJson, Expr.AllInRange]
  | e :: es => by
    rw [Expr.listToJson, Expr.listOfJson?]
    simp [Option.bind_eq_some_iff, Expr.AllInRange, Expr.ofJson?_toJson e,
      Expr.listOfJson?_listToJson es]

end

theorem Expr.recovers : Recovers ofJson? toJson InRange :=
  Expr.ofJson?_toJson

theorem Expr.toJson_ne_null (e : Expr) : e.toJson ≠ .null := by
  cases e <;> simp [toJson]

/-! ## Statements -/

mutual

def Stmt.InRange : Stmt → Prop
  | .bind _ _ value => value.InRange
  | .store _ base offset value => base.InRange ∧ offset.InRange ∧ value.InRange
  | .eval e => e.InRange
  | .ret value => ∀ e ∈ value, e.InRange
  | .cond test body => test.InRange ∧ Stmt.AllInRange body
  | .loop _ bound body => bound.InRange ∧ Stmt.AllInRange body
  | .unreachable _ => True

def Stmt.AllInRange : List Stmt → Prop
  | [] => True
  | s :: ss => s.InRange ∧ Stmt.AllInRange ss

end

mutual

theorem Stmt.ofJson?_toJson (s : Stmt) : Stmt.ofJson? s.toJson = some s ↔ s.InRange := by
  rw [Stmt.ofJson?]
  cases s with
  | bind name type value =>
    have hstmt : (Stmt.bind name type value).toJson.get? "stmt" str? = some "let" := rfl
    have hname : (Stmt.bind name type value).toJson.get? "name" str? = some name := rfl
    have htype : (Stmt.bind name type value).toJson.get? "ty" Prim.ofJson? = some type :=
      (Prim.recovers.get? rfl).mpr trivial
    have hvalue : (Stmt.bind name type value).toJson.get? "value" Expr.ofJson? = some value ↔ _ :=
      Expr.recovers.get? rfl
    simp [Option.bind_eq_some_iff, hstmt, hname, htype, hvalue, Stmt.InRange]
  | store type base offset value =>
    have hstmt : (Stmt.store type base offset value).toJson.get? "stmt" str? = some "store" := rfl
    have htype : (Stmt.store type base offset value).toJson.get? "ty" Prim.ofJson? = some type :=
      (Prim.recovers.get? rfl).mpr trivial
    have hbase :
        (Stmt.store type base offset value).toJson.get? "base" Expr.ofJson? = some base ↔ _ :=
      Expr.recovers.get? rfl
    have hoffset :
        (Stmt.store type base offset value).toJson.get? "offset" Expr.ofJson? = some offset ↔ _ :=
      Expr.recovers.get? rfl
    have hvalue :
        (Stmt.store type base offset value).toJson.get? "value" Expr.ofJson? = some value ↔ _ :=
      Expr.recovers.get? rfl
    simp [Option.bind_eq_some_iff, hstmt, htype, hbase, hoffset, hvalue, Stmt.InRange]
  | eval e =>
    have hstmt : (Stmt.eval e).toJson.get? "stmt" str? = some "expr" := rfl
    have hexpr : (Stmt.eval e).toJson.get? "expr" Expr.ofJson? = some e ↔ _ :=
      Expr.recovers.get? rfl
    simp [Option.bind_eq_some_iff, hstmt, hexpr, Stmt.InRange]
  | ret value =>
    have hstmt : (Stmt.ret value).toJson.get? "stmt" str? = some "return" := rfl
    have hvalue : (Stmt.ret value).toJson.getOptional? "value" Expr.ofJson? = some value ↔ _ :=
      Expr.recovers.getOptional? Expr.toJson_ne_null rfl
    simp [Option.bind_eq_some_iff, hstmt, hvalue, Stmt.InRange]
  | cond test body =>
    have hstmt : (Stmt.cond test body).toJson.get? "stmt" str? = some "if" := rfl
    have htest : (Stmt.cond test body).toJson.get? "cond" Expr.ofJson? = some test ↔ _ :=
      Expr.recovers.get? rfl
    obtain ⟨_, hbody⟩ :
        ∃ h, (Stmt.cond test body).toJson.children? "then" = some ⟨Stmt.listToJson body, h⟩ :=
      exists_children? rfl
    simp [Option.bind_eq_some_iff, hstmt, htest, hbody, Stmt.InRange,
      Stmt.listOfJson?_listToJson body]
  | loop counter bound body =>
    have hstmt : (Stmt.loop counter bound body).toJson.get? "stmt" str? = some "for" := rfl
    have hcounter : (Stmt.loop counter bound body).toJson.get? "var" str? = some counter := rfl
    have hbound :
        (Stmt.loop counter bound body).toJson.get? "bound" Expr.ofJson? = some bound ↔ _ :=
      Expr.recovers.get? rfl
    obtain ⟨_, hbody⟩ : ∃ h, (Stmt.loop counter bound body).toJson.children? "body" =
        some ⟨Stmt.listToJson body, h⟩ := exists_children? rfl
    simp [Option.bind_eq_some_iff, hstmt, hcounter, hbound, hbody, Stmt.InRange,
      Stmt.listOfJson?_listToJson body]
  | unreachable message =>
    simp [Stmt.toJson, Json.get?, member?, List.lookup_cons, str?, Stmt.InRange]

theorem Stmt.listOfJson?_listToJson :
    ∀ ss : List Stmt, Stmt.listOfJson? (Stmt.listToJson ss) = some ss ↔ Stmt.AllInRange ss
  | [] => by simp [Stmt.listOfJson?, Stmt.listToJson, Stmt.AllInRange]
  | s :: ss => by
    rw [Stmt.listToJson, Stmt.listOfJson?]
    simp [Option.bind_eq_some_iff, Stmt.AllInRange, Stmt.ofJson?_toJson s,
      Stmt.listOfJson?_listToJson ss]

end

theorem Stmt.recovers_block :
    Recovers (fun b => b.items?.bind listOfJson?) (fun body => .arr (listToJson body))
      AllInRange :=
  Stmt.listOfJson?_listToJson

/-! ## Functions and programs -/

theorem ValueType.recovers : Recovers ofJson? toJson fun _ => True := by
  intro t
  cases t with
  | prim p => simp [ofJson?, toJson, Prim.recovers p]
  | context | void => simp [ofJson?, toJson]

theorem Param.recovers : Recovers ofJson? toJson fun _ => True := by
  intro p
  have hname : p.toJson.get? "name" str? = some p.name := rfl
  have htype : p.toJson.get? "ty" ValueType.ofJson? = some p.type :=
    (ValueType.recovers.get? rfl).mpr trivial
  simp [ofJson?, hname, htype]

theorem FunctionKind.recovers : Recovers ofJson? toJson fun _ => True := by
  intro k
  cases k <;> simp [ofJson?, toJson, Json.get?, member?, str?, List.lookup_cons]

def Function.InRange (f : Function) : Prop :=
  Stmt.AllInRange f.body

theorem Function.ofJson?_eq_some {j : Json} {f : Function} :
    ofJson? j = some f ↔ j.get? "name" str? = some f.name ∧
      j.get? "kind" FunctionKind.ofJson? = some f.kind ∧
      j.get? "ret" ValueType.ofJson? = some f.result ∧
      j.get? "params" (list? Param.ofJson?) = some f.params ∧
      j.get? "body" (fun b => b.items?.bind Stmt.listOfJson?) = some f.body := by
  cases f
  simp [ofJson?, Option.bind_eq_some_iff]

/-- As a declaration, a function has its members behind the one that tells declarations apart. -/
theorem Function.ofJson?_decl (f : Function) :
    ofJson? (Decl.function f).toJson = some f ↔ f.InRange := by
  rw [ofJson?_eq_some, recovers_str.get?, FunctionKind.recovers.get?, ValueType.recovers.get?,
    Param.recovers.list.get?, Stmt.recovers_block.get?]
  · simp [InRange]
  all_goals rfl

def Decl.InRange : Decl → Prop
  | const _ _ value => FitsInt64 value
  | function f => f.InRange

theorem Decl.recovers : Recovers ofJson? toJson InRange := by
  intro d
  cases d with
  | const name type value =>
    have hdecl : (const name type value).toJson.get? "decl" str? = some "const" := rfl
    have hname : (const name type value).toJson.get? "name" str? = some name := rfl
    have htype : (const name type value).toJson.get? "ty" Prim.ofJson? = some type :=
      (Prim.recovers.get? rfl).mpr trivial
    have hvalue : (const name type value).toJson.get? "value" int64? = some value ↔ _ :=
      recovers_int64.get? rfl
    simp [ofJson?, Option.bind_eq_some_iff, hdecl, hname, htype, hvalue, InRange]
  | function f =>
    have hdecl : (function f).toJson.get? "decl" str? = some "function" := rfl
    simp [ofJson?, Option.bind_eq_some_iff, hdecl, f.ofJson?_decl, InRange]

structure Program.InRange (p : Program) : Prop where
  version : FitsUInt32 p.version
  pointerBytes : FitsUInt64 p.pointerBytes
  decls : ∀ d ∈ p.decls, d.InRange

theorem Program.ofJson?_eq_some {j : Json} {p : Program} :
    ofJson? j = some p ↔ j.get? "version" uint32? = some p.version ∧
      j.get? "ptr_width" uint64? = some p.pointerBytes ∧
      j.get? "decls" (list? Decl.ofJson?) = some p.decls := by
  cases p
  simp [ofJson?, Option.bind_eq_some_iff]

theorem Program.recovers : Recovers ofJson? toJson InRange := by
  intro p
  rw [ofJson?_eq_some, recovers_uint32.get?, recovers_uint64.get?, Decl.recovers.list.get?]
  · constructor
    · rintro ⟨hversion, hbytes, hdecls⟩
      exact ⟨hversion, hbytes, hdecls⟩
    · intro h
      exact ⟨h.version, h.pointerBytes, h.decls⟩
  all_goals rfl

end Code

/-! ## All that is exported -/

/-- **An exported program, list of layouts or schema is read back as it was**, for all numbers of
the machine types, and only for those. -/
theorem exports_recovered_iff :
    (∀ p : Code.Program, Code.Program.ofJson? p.toJson = some p ↔ p.InRange) ∧
    (∀ ls : List Layout,
      list? Layout.ofJson? (ofList Layout.toJson ls) = some ls ↔ ∀ l ∈ ls, l.InRange) ∧
    (∀ ds : List LayoutDef,
      list? LayoutDef.ofJson? (ofList LayoutDef.toJson ds) = some ds ↔ ∀ d ∈ ds, d.InRange) :=
  ⟨Code.Program.recovers, Layout.recovers.list, LayoutDef.recovers.list⟩

end HeapLayout
