import HeapLayout.Proofs.Acceptance
import HeapLayout.Proofs.Dispatch

/-!
# Independence of other layouts

What becomes of a declaration is decided by itself and its ancestors. The rest of the schema, and
the order in which all of it is declared, has a say in a single number: the tag
(`independent_of_resolve`).

**Layouts.** The ancestors of a declaration are flattened to one list of fields, which is the same
in both schemas. The header adds the tag to it, and neither binding nor placing turns on initial
values. So the two layouts agree once they are given the same tag (`exists_withTag_of_resolve`).

**Declarations.** Every generated function but one reads names, widths, bindings and pads only
(the lemmas `.._withTag`). Allocation writes initial values, and the tag is among them, unless
it is zero. What it does before and after does not depend on the tag (`Template`).
-/

namespace HeapLayout

/-- The same layout in a schema that gives it the tag `id`. -/
def Layout.withTag (id : Nat) (l : Layout) : Layout :=
  { l with id, fields := l.fields.map (Field.withTag id) }

namespace Schema

open Layout (plan planFrom_map_withTag)

/-! ## Two runs of resolution -/

section TwoRuns

variable {w : PointerWidth} {defs defs' : List LayoutDef} {ls ls' : List Layout} {i j k : Nat}
  {ds : List LayoutDef} {fl : FlatLayout} {t t' : TaggedLayout} {b b' : BoundLayout}

theorem Lineage.getLast? (h : Lineage defs k ds) : ds.getLast? = defs[k]? := by
  cases h with
  | root hd _ => exact hd.symm
  | child hd _ _ _ _ => simp [hd]

/-- The layout at the end of a lineage is made from the fields along the lineage and its own
position, and from nothing else. -/
theorem exists_plan_of_lineage (h : resolve w defs = .ok ls) (hds : Lineage defs k ds) :
    ∃ d t b, ds.getLast? = some d ∧
      tagLayout k { name := d.name, category := d.category, comment := d.comment,
                    fields := ds.flatMap (·.fields) } = .ok t ∧
      bind t = .ok b ∧ ls[k]? = some (plan w b) := by
  obtain ⟨-, -, flat, hflat, hstages⟩ := exists_stages_of_resolve h
  obtain ⟨d, hd⟩ := hds.exists_getElem?
  obtain ⟨fl, t, b, hst, hl⟩ := hstages k d hd
  obtain ⟨ds', hds', hfl⟩ := exists_lineage_of_flatten hflat hd
  obtain ⟨hnodup, -⟩ := exists_flatten_iff.mp ⟨flat, hflat⟩
  cases hds.unique hnodup hds'
  cases hst.getElem_flat.symm.trans hfl
  exact ⟨d, t, b, hds.getLast?.trans hd, hst.tag, hst.bind, hl⟩

theorem eq_of_tagLayout (h : tagLayout i fl = .ok t) (h' : tagLayout j fl = .ok t') :
    t' = { t with id := j, fields := t.fields.map (FieldDef.withTag j) } := by
  rw [map_withTag_of_tagLayout h]
  simp only [tagLayout] at h h'
  split at h
  · cases h
  · split at h'
    · cases h'
    · cases h
      cases h'
      rfl

/-- Binding carries the difference in the tag along. -/
theorem eq_of_bind (h : bind t = .ok b) (h' : bind t' = .ok b')
    (ht : t' = { t with id := j, fields := t.fields.map (FieldDef.withTag j) }) :
    b' = { b with id := j, fields := b.fields.map (BoundField.withTag j) } := by
  subst ht
  have hnames : (t.fields.map (FieldDef.withTag j)).map (·.name) <+: t.fields.map (·.name) := by
    rw [List.map_map]
    exact List.prefix_rfl
  have hfields : b'.fields = b.fields.map (BoundField.withTag j) := by
    rw [fields_of_bind h' hnames, fields_of_bind h List.prefix_rfl, List.map_map, List.map_map]
    refine List.map_congr_left ?_
    intro f _
    exact boundField_withTag _ f j
  have hsizes : b'.sizeFields = b.sizeFields := by
    rw [sizeFields_of_bind h', sizeFields_of_bind h, hfields, List.filterMap_map]
    rfl
  obtain ⟨bs, -, hb⟩ := bind_eq_ok.mp h
  obtain ⟨bs', -, hb'⟩ := bind_eq_ok.mp h'
  cases pure_eq_ok.mp hb
  cases pure_eq_ok.mp hb'
  simp_all

/-- Schemas that share a lineage resolve it to layouts that differ in the tag alone. -/
theorem exists_withTag_of_resolve (h : resolve w defs = .ok ls) (h' : resolve w defs' = .ok ls')
    (hds : Lineage defs i ds) (hds' : Lineage defs' j ds) :
    ∃ l, ls[i]? = some l ∧ ls'[j]? = some (l.withTag j) := by
  obtain ⟨d, t, b, hd, ht, hb, hl⟩ := exists_plan_of_lineage h hds
  obtain ⟨d', t', b', hd', ht', hb', hl'⟩ := exists_plan_of_lineage h' hds'
  cases hd.symm.trans hd'
  refine ⟨plan w b, hl, ?_⟩
  rw [hl', eq_of_bind hb hb' (eq_of_tagLayout ht ht'), plan, planFrom_map_withTag]
  rfl

end TwoRuns

end Schema

namespace Code

open Accessor
open Schema (bind_eq_ok pure_eq_ok tagField)

/-! ## Functions that ignore the tag -/

namespace Accessor

variable {w : PointerWidth} {l : Layout} {f : Field} {count : Field → Expr} {fs : List Field}
  (id : Nat)

theorem binding_withTag (name : String) (i : FieldId) :
    binding (l.withTag id) name i = Field.withTag id <$> binding l name i := by
  simp only [binding, Layout.field?, Layout.withTag, List.getElem?_map]
  cases l.fields[i]? <;> rfl

theorem span_withTag (hcount : ∀ s, count (s.withTag id) = count s) :
    span (l.withTag id) count (f.withTag id) = span l count f := by
  simp only [span, binding_withTag, bind_map_left, hcount]
  rfl

theorem prefixSumFrom_withTag (hcount : ∀ s, count (s.withTag id) = count s) (sum : Expr) :
    prefixSumFrom w (l.withTag id) count sum (fs.map (Field.withTag id)) =
      prefixSumFrom w l count sum fs := by
  induction fs generalizing sum with
  | nil => rfl
  | cons f fs ih =>
    simp only [List.map_cons, prefixSumFrom, span_withTag id hcount, ih]
    rfl

theorem offsetFunction_withTag :
    offsetFunction w (l.withTag id) (fs.map (Field.withTag id)) (f.withTag id) =
      offsetFunction w l fs f := by
  have hsum : prefixSumFrom w (l.withTag id) (storedCount l) (.const 0)
      (fs.map (Field.withTag id)) = prefixSumFrom w l (storedCount l) (.const 0) fs :=
    prefixSumFrom_withTag id (fun _ => rfl) _
  unfold offsetFunction offsetExpr prefixSum
  rw [← hsum]
  rfl

theorem offsetFunctionsFrom_withTag (earlier : List Field) :
    offsetFunctionsFrom w (l.withTag id) (earlier.map (Field.withTag id))
        (fs.map (Field.withTag id)) = offsetFunctionsFrom w l earlier fs := by
  induction fs generalizing earlier with
  | nil => rfl
  | cons f fs ih =>
    have := ih (earlier ++ [f])
    rw [List.map_append] at this
    simp only [List.map_cons, offsetFunctionsFrom, offsetFunction_withTag, ← this]
    rfl

theorem sizeFields_withTag :
    sizeFields (l.withTag id) = List.map (Field.withTag id) <$> sizeFields l := by
  show l.sizeFields.mapM _ = List.map _ <$> l.sizeFields.mapM _
  induction l.sizeFields with
  | nil => rfl
  | cons i is ih =>
    simp only [List.mapM_cons, ih, binding_withTag, bind_map_left, map_bind]
    rfl

theorem compSizeFunction_withTag : compSizeFunction w (l.withTag id) = compSizeFunction w l := by
  have hsum : prefixSumFrom w (l.withTag id) passedCount (.const 0)
      (l.fields.map (Field.withTag id)) = prefixSumFrom w l passedCount (.const 0) l.fields :=
    prefixSumFrom_withTag id (fun _ => rfl) _
  simp only [compSizeFunction, sizeFields_withTag, bind_map_left, prefixSum, List.map_map]
  rw [← hsum]
  rfl

theorem sizeofFunction_withTag : sizeofFunction (l.withTag id) = sizeofFunction l := by
  simp only [sizeofFunction, sizeFields_withTag, bind_map_left, List.map_map]
  rfl

theorem forwardSlot_withTag : forwardSlot (l.withTag id) (f.withTag id) = forwardSlot l f := by
  simp only [forwardSlot, forwardArgs, Field.withTag, binding_withTag, bind_map_left]
  rfl

theorem visitFields_withTag (read : List String) :
    visitFields (l.withTag id) read (fs.map (Field.withTag id)) = visitFields l read fs := by
  induction fs generalizing read with
  | nil => rfl
  | cons f fs ih =>
    simp only [List.map_cons, visitFields, forwardSlot_withTag, ih, binding_withTag, bind_map_left]
    rfl

theorem visitGcFunction_withTag : visitGcFunction (l.withTag id) = visitGcFunction l := by
  have hvisit : visitFields (l.withTag id) [] ((l.fields.filter (·.isTraced)).map
      (Field.withTag id)) = visitFields l [] (l.fields.filter (·.isTraced)) :=
    visitFields_withTag id []
  unfold visitGcFunction
  rw [← hvisit, Layout.withTag, List.filter_map]
  rfl

/-! ## Initial values -/

theorem writeInit_withTag (value : Expr) :
    writeInit (l.withTag id) f value = writeInit l f value := by
  simp only [writeInit, binding_withTag, bind_map_left]
  rfl

/-- Initial values of other fields are written alike. -/
theorem writeInits_withTag (hfs : ∀ f ∈ fs, f.name ≠ tagField) :
    writeInits (l.withTag id) (fs.map (Field.withTag id)) = writeInits l fs := by
  induction fs with
  | nil => rfl
  | cons f fs ih =>
    obtain ⟨hf, hfs⟩ := List.forall_mem_cons.mp hfs
    have hsame : f.withTag id = f := by rw [Field.withTag, if_neg hf]
    simp only [List.map_cons, hsame, writeInits, writeInit_withTag, ih hfs]

theorem writeInits_append {xs ys : List Field} {ss ts : List Stmt} (hxs : writeInits l xs = .ok ss)
    (hys : writeInits l ys = .ok ts) : writeInits l (xs ++ ys) = .ok (ss ++ ts) := by
  induction xs generalizing ss with
  | nil =>
    cases hxs
    exact hys
  | cons x xs ih =>
    rw [List.cons_append, writeInits]
    rw [writeInits] at hxs
    split at hxs
    · exact ih hxs
    · obtain ⟨s, hs, hxs⟩ := bind_eq_ok.mp hxs
      obtain ⟨ss, hss, hxs⟩ := bind_eq_ok.mp hxs
      cases pure_eq_ok.mp hxs
      rw [hs, ih hss]
      rfl

/-- The statements that write a tag into fresh memory, where it is zero. -/
def writeTag (l : Layout) (id : Nat) : List Stmt :=
  if id = 0 then [] else [.eval (callSetter l tagField [object, .const id])]

theorem writeInits_tag {tag : Field} (hname : tag.name = tagField)
    (hsingle : tag.sizeField = none) :
    writeInits (l.withTag id) [tag.withTag id] = .ok (writeTag l id) := by
  have hinit : (tag.withTag id).init = some (.int id) := by rw [Field.withTag, if_pos hname]
  have hwrite : nonzeroInit? (tag.withTag id) = if id = 0 then none else some (.int id) := by
    rw [nonzeroInit?, hinit]
    cases id <;> rfl
  have hset : writeInit (l.withTag id) (tag.withTag id) (.const id) =
      .ok (.eval (callSetter l tagField [object, .const id])) := by
    rw [writeInit, Field.withTag, hname, hsingle]
    rfl
  rw [writeInits, hwrite, writeTag]
  by_cases h : id = 0
  · rw [if_pos h, if_pos h]
    rfl
  · rw [if_neg h, if_neg h]
    exact bind_eq_ok.mpr ⟨_, hset, rfl⟩

end Accessor

/-! ## Declarations with the tag left open -/

/-- The declarations of a layout without its tag. -/
structure Template where
  /-- The functions in front of allocation. -/
  accessors : List Function
  /-- Allocation up to the point where the tag is written. -/
  alloc : Function
  /-- What allocation does afterwards. -/
  rest : List Stmt
  visitGc : Function

/-- The declarations with a tag filled in. -/
def Template.decls (T : Template) (l : Layout) (id : Nat) : List Decl :=
  .const l.tagConstant .uint32 id ::
    (T.accessors ++ [{ T.alloc with body := T.alloc.body ++ writeTag l id ++ T.rest },
      T.visitGc]).map .function

section Tag

variable {w : PointerWidth} {l : Layout} {before after : List Field} {tag : Field}

/-- Names are distinct, so the tag is written in one place, and what is written around it does not
depend on it. -/
theorem exists_allocFunction_withTag (hwf : l.WellFormed w)
    (hfields : l.fields = before ++ tag :: after) (hname : tag.name = tagField)
    (hsingle : tag.sizeField = none) :
    ∃ (g : Function) (rest : List Stmt), g.kind = .alloc l.name ∧
      ∀ id, allocFunction (l.withTag id) =
        .ok { g with body := g.body ++ writeTag l id ++ rest } := by
  obtain ⟨sizes, hsizes⟩ := exists_sizeFields hwf
  have hmem : (∀ f ∈ before, f ∈ l.fields) ∧ ∀ f ∈ after, f ∈ l.fields := by
    simp +contextual [hfields]
  obtain ⟨front, hfront⟩ := exists_writeInits hwf hmem.1
  obtain ⟨rest, hrest⟩ := exists_writeInits hwf hmem.2
  have hnodup := hwf.names_nodup
  rw [hfields, List.map_append, List.map_cons, hname, List.nodup_append, List.nodup_cons] at hnodup
  have hbefore : ∀ f ∈ before, f.name ≠ tagField := by
    intro f hf
    exact hnodup.2.2 _ (List.mem_map_of_mem hf) _ List.mem_cons_self
  have hafter : ∀ f ∈ after, f.name ≠ tagField := by
    intro f hf h
    exact hnodup.2.1.1 (h ▸ List.mem_map_of_mem hf)
  have hinits (id : Nat) : writeInits (l.withTag id) (l.withTag id).fields =
      .ok (front ++ writeTag l id ++ rest) := by
    show writeInits _ (l.fields.map _) = _
    rw [hfields, List.append_cons, List.map_append, List.map_append]
    exact writeInits_append (writeInits_append ((writeInits_withTag id hbefore).trans hfront)
      (writeInits_tag id hname hsingle)) ((writeInits_withTag id hafter).trans hrest)
  let size : Expr := .invoke (Name.compSize l.name) (sizes.map passedCount)
  refine ⟨{ name := Name.alloc l.name, kind := .alloc l.name, result := .prim .refptr
            params := contextParam :: sizes.map countParam
            body := .bind Name.object .refptr (.alloc size l.category) ::
              sizes.map (writeCount l) ++ front }, rest ++ [.ret (some object)], rfl, ?_⟩
  intro id
  have hsizes' : sizeFields (l.withTag id) = .ok (sizes.map (Field.withTag id)) := by
    rw [sizeFields_withTag, hsizes]
    rfl
  refine bind_eq_ok.mpr ⟨_, hsizes', bind_eq_ok.mpr ⟨_, hinits id, ?_⟩⟩
  simp only [List.map_map, List.append_assoc, List.cons_append]
  rfl

theorem exists_template (hwf : l.WellFormed w) (hfields : l.fields = before ++ tag :: after)
    (hname : tag.name = tagField) (hsingle : tag.sizeField = none) :
    ∃ T : Template, T.alloc.kind = .alloc l.name ∧
      ∀ id, layoutDecls w (l.withTag id) = .ok (T.decls l id) := by
  obtain ⟨decls, hdecls, -⟩ := exists_layoutDecls hwf
  obtain ⟨offsets, compSize, sizeof, -, visitGc, hoffsets, hcompSize, hsizeof, -, hvisitGc,
    -⟩ := parts_of_layoutDecls hdecls
  obtain ⟨alloc, rest, hkind, halloc⟩ := exists_allocFunction_withTag hwf hfields hname hsingle
  refine ⟨{ accessors := offsets ++ l.fields.map (getterFunction l) ++
              l.fields.map (setterFunction l) ++ [compSize, sizeof]
            alloc, rest, visitGc }, hkind, ?_⟩
  intro id
  have hoffsets' : offsetFunctionsFrom w (l.withTag id) [] (l.withTag id).fields = .ok offsets :=
    (offsetFunctionsFrom_withTag id []).trans hoffsets
  have haccess (g : Layout → Field → Function) (hg : ∀ f, g (l.withTag id) (f.withTag id) = g l f) :
      (l.withTag id).fields.map (g (l.withTag id)) = l.fields.map (g l) := by
    show (l.fields.map _).map _ = _
    rw [List.map_map]
    exact List.map_congr_left fun f _ => hg f
  simp only [layoutDecls, hoffsets', haccess getterFunction fun _ => rfl,
    haccess setterFunction fun _ => rfl, compSizeFunction_withTag, hcompSize,
    sizeofFunction_withTag, hsizeof, halloc, visitGcFunction_withTag, hvisitGc, Template.decls,
    List.append_assoc, List.cons_append, List.nil_append]
  rfl

end Tag

section Resolve

variable {w : PointerWidth} {defs defs' : List LayoutDef} {ls ls' : List Layout} {i j : Nat}
  {ds : List LayoutDef}

/-- **Other layouts decide the tag of a layout and nothing else**: two schemas with the same chain
of declarations give it one layout and one list of declarations, with the tag filled in. -/
theorem independent_of_resolve (h : Schema.resolve w defs = .ok ls)
    (h' : Schema.resolve w defs' = .ok ls') (hds : Schema.Lineage defs i ds)
    (hds' : Schema.Lineage defs' j ds) :
    ∃ l, ls[i]? = some (l.withTag i) ∧ ls'[j]? = some (l.withTag j) ∧
      ∃ T : Template, T.alloc.kind = .alloc l.name ∧
        layoutDecls w (l.withTag i) = .ok (T.decls l i) ∧
        layoutDecls w (l.withTag j) = .ok (T.decls l j) := by
  obtain ⟨l, hl, hl'⟩ := Schema.exists_withTag_of_resolve h h' hds hds'
  -- The schema compared with itself: the layout has the tag `i` already.
  obtain ⟨_, hown, htagged⟩ := Schema.exists_withTag_of_resolve h h hds hds
  cases hl.symm.trans hown
  have hmem := List.mem_of_getElem? hl
  obtain ⟨next, tag, own, hfields, -, hname, -, hsingle, -⟩ := Schema.exists_tag_of_resolve h hmem
  have hsplit : l.fields = [next] ++ tag :: own := hfields
  obtain ⟨T, hkind, hdecls⟩ :=
    exists_template (Schema.wellFormed_of_resolve h hmem) hsplit hname hsingle
  exact ⟨l, htagged, hl', T, hkind, hdecls i, hdecls j⟩

end Resolve

/-- Cells behind their parent alone, and with a buffer in front of both. -/
theorem independent_cells :
    ∃ ls ls', Schema.resolve .eight [Schema.countedDef, Schema.cellsDef] = .ok ls ∧
      Schema.resolve .eight [bufferDef none none, Schema.countedDef, Schema.cellsDef] = .ok ls' ∧
      ∃ l, ls[1]? = some (l.withTag 1) ∧ ls'[2]? = some (l.withTag 2) ∧
        ∃ T : Template, T.alloc.kind = .alloc l.name ∧
          layoutDecls .eight (l.withTag 1) = .ok (T.decls l 1) ∧
          layoutDecls .eight (l.withTag 2) = .ok (T.decls l 2) := by
  obtain ⟨ls, h⟩ : ∃ ls, Schema.resolve .eight [Schema.countedDef, Schema.cellsDef] = .ok ls :=
    ⟨_, rfl⟩
  obtain ⟨ls', h'⟩ : ∃ ls', Schema.resolve .eight
      [bufferDef none none, Schema.countedDef, Schema.cellsDef] = .ok ls' := ⟨_, rfl⟩
  have hds : Schema.Lineage [Schema.countedDef, Schema.cellsDef] 1
      [Schema.countedDef, Schema.cellsDef] := .child rfl rfl Nat.zero_lt_one rfl (.root rfl rfl)
  have hds' : Schema.Lineage [bufferDef none none, Schema.countedDef, Schema.cellsDef] 2
      [Schema.countedDef, Schema.cellsDef] := .child rfl rfl Nat.one_lt_two rfl (.root rfl rfl)
  exact ⟨ls, ls', h, h', independent_of_resolve h h' hds hds'⟩

end Code

end HeapLayout
