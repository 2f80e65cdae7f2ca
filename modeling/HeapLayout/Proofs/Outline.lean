import HeapLayout.Artifact.Outline
import HeapLayout.Proofs.Spelling

/-!
# Both artifacts have the outline of the program

Reading an artifact of an accepted schema, line by line and with no more knowledge of its language
than the keywords of definitions, gives the declarations of the program, in order
(`read_artifacts`). So what is read from the two artifacts is the same: constants and their values,
functions and their parameters, and how deep the lines of every body stand.

All names being identifiers, what is printed has no line breaks and does not begin with a blank
(`isNeat`). So lines of a text are the lines that were printed, and blanks at the start of a line
are its indentation. Lines of bodies are indented, which keeps them from being mistaken for
definitions or for the end of the body.
-/

namespace HeapLayout

/-! ## Lines of a text -/

namespace Lines

theorem trimReturn_of_not_mem {line : List Char} (h : '\r' ∉ line) : trimReturn line = line := by
  have hlast : line.getLast? ≠ some '\r' := fun hlast => h (List.mem_of_getLast? hlast)
  rw [trimReturn, if_neg hlast]

theorem splitFrom_append {line cs : List Char} (h : '\n' ∉ cs) (rest : List Char) :
    splitFrom line (cs ++ '\n' :: rest) =
      trimReturn (line.reverse ++ cs) :: splitFrom [] rest := by
  induction cs generalizing line with
  | nil => rw [List.nil_append, List.append_nil, splitFrom]
  | cons c cs ih =>
    obtain ⟨hc, hcs⟩ := List.ne_and_not_mem_of_not_mem_cons h
    rw [List.cons_append, splitFrom, ih hcs, List.reverse_cons, List.append_assoc,
      List.singleton_append]
    exact fun hcn => hc hcn.symm

end Lines

namespace Artifact

open Code (Expr Stmt Function Param Decl Program ValueType)

theorem isUnbroken_render {l : Line} (h : isUnbroken l.text = true) :
    isUnbroken l.render = true := by
  have hblanks : isUnbroken (String.ofList (List.replicate (4 * l.depth) ' ')) = true := by
    simp [isUnbroken]
  rw [Line.render, isUnbroken_append, hblanks, h, Bool.and_true]

/-- Splitting undoes joining, as long as no line is broken. -/
theorem ofString_terminated {ls : List Line} (h : ∀ l ∈ ls, isUnbroken l.text = true) :
    Lines.ofString (Line.terminated ls) = ls.map Line.render := by
  induction ls with
  | nil => rfl
  | cons l ls ih =>
    obtain ⟨hl, hls⟩ := List.forall_mem_cons.mp h
    have hrender := List.all_eq_true.mp (isUnbroken_render hl)
    have hn : '\n' ∉ l.render.toList := fun hc => by simpa using hrender _ hc
    have hr : '\r' ∉ l.render.toList := fun hc => by simpa using hrender _ hc
    have htext : (Line.terminated (l :: ls)).toList =
        l.render.toList ++ '\n' :: (Line.terminated ls).toList := by
      simp [Line.terminated]
    rw [Lines.ofString, htext, Lines.splitFrom_append hn, List.map_cons, List.reverse_nil,
      List.nil_append, Lines.trimReturn_of_not_mem hr, String.ofList_toList, List.map_cons,
      ← ih hls]
    rfl

/-! ## Neat texts -/

/-- A text on one line that does not begin with a blank. -/
def isNeat (s : String) : Bool :=
  isUnbroken s && s.toList.head?.any (· != ' ')

/-- Only the beginning of a text decides whether it begins with a blank. -/
theorem isNeat_append {a b : String} (ha : isNeat a = true) (hb : isUnbroken b = true) :
    isNeat (a ++ b) = true := by
  obtain ⟨hunbroken, hhead⟩ := Bool.and_eq_true_iff.mp ha
  refine Bool.and_eq_true_iff.mpr ⟨by rw [isUnbroken_append, hunbroken, hb, Bool.and_true], ?_⟩
  rw [String.toList_append, List.head?_append]
  cases hcs : a.toList.head? with
  | none => simp [hcs] at hhead
  | some c => simpa [hcs] using hhead

theorem isUnbroken_of_isNeat {a : String} (h : isNeat a = true) : isUnbroken a = true :=
  (Bool.and_eq_true_iff.mp h).1

theorem exists_toList_of_isNeat {a : String} (h : isNeat a = true) :
    ∃ c cs, a.toList = c :: cs ∧ c ≠ ' ' := by
  have hhead := (Bool.and_eq_true_iff.mp h).2
  cases hcs : a.toList with
  | nil => simp [hcs] at hhead
  | cons c cs => exact ⟨c, cs, rfl, by simpa [hcs] using hhead⟩

theorem isNeat_of_isIdentifier {name : String} (h : isIdentifier name = true) :
    isNeat name = true := by
  obtain ⟨c, cs, hcs, hstart, -⟩ := Identifier.exists_toList h
  have hc : c ≠ ' ' := by
    rintro rfl
    exact absurd hstart (by decide)
  exact Bool.and_eq_true_iff.mpr ⟨isUnbroken_of_isIdentifier h, by simp [hcs, hc]⟩

theorem isNeat_ofInt (v : Int) : isNeat (Numeral.ofInt v) = true := by
  obtain ⟨c, cs, hcs, hc⟩ := Numeral.exists_toList_ofInt (P := (· ≠ ' ')) (by decide) (by decide) v
  exact Bool.and_eq_true_iff.mpr
    ⟨List.all_eq_true.mpr (Numeral.forall_mem_ofInt (by decide) (by decide) v), by simp [hcs, hc]⟩

theorem isUnbroken_ofInt (v : Int) : isUnbroken (Numeral.ofInt v) = true :=
  isUnbroken_of_isNeat (isNeat_ofInt v)

theorem isNeat_primName (p : Prim) : isNeat p.name = true := by
  cases p <;> decide

theorem isUnbroken_primName (p : Prim) : isUnbroken p.name = true :=
  isUnbroken_of_isNeat (isNeat_primName p)

theorem forall_mem_intercalate {P : Char → Prop} {sep : String} {as : List String}
    (hsep : ∀ c ∈ sep.toList, P c) (h : ∀ a ∈ as, ∀ c ∈ a.toList, P c) :
    ∀ c ∈ (String.intercalate sep as).toList, P c := by
  induction as with
  | nil => simp
  | cons a as ih =>
    obtain ⟨ha, has⟩ := List.forall_mem_cons.mp h
    cases as with
    | nil => simpa using ha
    | cons b bs =>
      rw [String.intercalate_cons_cons, String.toList_append, String.toList_append]
      exact List.forall_mem_append.mpr ⟨List.forall_mem_append.mpr ⟨ha, hsep⟩, ih has⟩

theorem isUnbroken_parenthesized {as : List String} (h : ∀ a ∈ as, isUnbroken a = true) :
    isUnbroken (parenthesized as) = true := by
  have hjoined : isUnbroken (String.intercalate ", " as) = true :=
    List.all_eq_true.mpr (forall_mem_intercalate
      (List.all_eq_true.mp (show isUnbroken ", " = true by decide)) fun a ha =>
        List.all_eq_true.mp (h a ha))
  rw [parenthesized, isUnbroken_append, isUnbroken_append, hjoined]
  decide

/-! ## Lines of bodies -/

/-- Whatever a dialect prints of code with proper names is neat. -/
structure Dialect.Neat (d : Dialect) : Prop where
  expr : ∀ {e}, e.Spelled → isNeat (d.expr e) = true
  bind : ∀ {name} type {e}, isIdentifier name = true → e.Spelled →
    isNeat (d.bind name type e) = true
  store : ∀ type {base offset e}, base.Spelled → offset.Spelled → e.Spelled →
    isNeat (d.store type base offset e) = true
  loop : ∀ {counter bound}, isIdentifier counter = true → bound.Spelled →
    isNeat (d.loop counter bound) = true

theorem D.isNeat_expr {e : Expr} (h : e.Spelled) : isNeat (D.expr e) = true := by
  induction h with
  | var hname => exact isNeat_of_isIdentifier hname
  | const => exact isNeat_ofInt _
  | layoutId hname => exact isNeat_of_isIdentifier hname
  | @undef k => cases k <;> decide
  | @bin op _ _ _ _ iha ihb =>
    have hop : isUnbroken (D.operator op) = true := by cases op <;> decide
    simp only [D.expr, String.append_assoc]
    refine isNeat_append (by decide) ?_
    simp only [isUnbroken_append, isUnbroken_of_isNeat iha, isUnbroken_of_isNeat ihb, hop]
    decide
  | @load type _ _ _ _ ihbase ihoffset =>
    simp only [D.expr, D.slot, String.append_assoc]
    refine isNeat_append (by decide) ?_
    simp only [isUnbroken_append, isUnbroken_of_isNeat ihbase, isUnbroken_of_isNeat ihoffset,
      isUnbroken_primName type]
    decide
  | @call callee args hcallee hargs ih =>
    have hhead : isNeat (D.callee callee) = true := by
      cases callee with
      | generated name => exact isNeat_of_isIdentifier (hcallee name rfl)
      | gcForward => decide
    rw [D.expr, D.exprs_eq_map]
    exact isNeat_append hhead (isUnbroken_parenthesized
      (List.forall_mem_map.mpr fun a ha => isUnbroken_of_isNeat (ih a ha)))
  | @alloc size _ hsize hcategory ih =>
    simp only [D.expr, String.append_assoc]
    refine isNeat_append (by decide) ?_
    simp only [isUnbroken_append, isUnbroken_of_isNeat ih]
    decide
  | context => decide

theorem D.isUnbroken_expr {e : Expr} (h : e.Spelled) : isUnbroken (D.expr e) = true :=
  isUnbroken_of_isNeat (D.isNeat_expr h)

theorem D.neat : D.dialect.Neat where
  expr := D.isNeat_expr
  bind {name} type {e} hname he := by
    simp only [D.dialect, String.append_assoc]
    refine isNeat_append (isNeat_primName type) ?_
    simp only [isUnbroken_append, isUnbroken_of_isIdentifier hname, D.isUnbroken_expr he]
    decide
  store type base offset e hbase hoffset he := by
    simp only [D.dialect, D.slot, String.append_assoc]
    refine isNeat_append (by decide) ?_
    simp only [isUnbroken_append, D.isUnbroken_expr hbase, D.isUnbroken_expr hoffset,
      D.isUnbroken_expr he, isUnbroken_primName type]
    decide
  loop {counter} {bound} hcounter hbound := by
    simp only [D.dialect, String.append_assoc]
    refine isNeat_append (by decide) ?_
    simp only [isUnbroken_append, isUnbroken_of_isIdentifier hcounter, D.isUnbroken_expr hbound]
    decide

theorem JS.exists_of_mem_passed {o : JsOptions} {es : List Expr} {a : String}
    (h : a ∈ JS.passed o es) : ∃ e ∈ es, a = JS.expr o e := by
  induction es with
  | nil => simp [JS.passed] at h
  | cons e es ih =>
    have htail (h : a ∈ JS.passed o es) : ∃ e' ∈ e :: es, a = JS.expr o e' := by
      obtain ⟨e', he', ha⟩ := ih h
      exact ⟨e', List.mem_cons_of_mem _ he', ha⟩
    by_cases he : e = .context
    · subst he
      exact htail h
    · rw [JS.passed_cons_of_ne he] at h
      rcases List.mem_cons.mp h with ha | h
      · exact ⟨e, List.mem_cons_self, ha⟩
      · exact htail h

theorem JS.isNeat_expr {e : Expr} (h : e.Spelled) : isNeat (JS.expr {} e) = true := by
  induction h with
  | var hname => exact isNeat_of_isIdentifier hname
  | const => exact isNeat_ofInt _
  | layoutId hname =>
    exact isNeat_append (by decide) (isUnbroken_of_isIdentifier hname)
  | @undef k => cases k <;> decide
  | @bin op _ _ _ _ iha ihb =>
    refine isNeat_append (by cases op <;> decide) (isUnbroken_parenthesized ?_)
    simp [isUnbroken_of_isNeat iha, isUnbroken_of_isNeat ihb]
  | @load type _ _ _ _ ihbase ihoffset =>
    refine isNeat_append (by cases type <;> decide) (isUnbroken_parenthesized ?_)
    simp [isUnbroken_of_isNeat ihbase, isUnbroken_of_isNeat ihoffset]
  | @call callee args hcallee hargs ih =>
    have hhead : isUnbroken (JS.callee callee) = true := by
      cases callee with
      | generated name => exact isUnbroken_of_isIdentifier (hcallee name rfl)
      | gcForward => decide
    refine isNeat_append (isNeat_append (by decide) hhead) (isUnbroken_parenthesized ?_)
    intro a ha
    obtain ⟨e, he, rfl⟩ := JS.exists_of_mem_passed ha
    exact isUnbroken_of_isNeat (ih e he)
  | @alloc size _ hsize hcategory ih =>
    refine isNeat_append (isNeat_append (by decide) (isUnbroken_of_isIdentifier hcategory))
      (isUnbroken_parenthesized ?_)
    simp [isUnbroken_of_isNeat ih]
  | context => decide

theorem JS.isUnbroken_expr {e : Expr} (h : e.Spelled) : isUnbroken (JS.expr {} e) = true :=
  isUnbroken_of_isNeat (JS.isNeat_expr h)

theorem JS.neat : (JS.dialect {}).Neat where
  expr := JS.isNeat_expr
  bind {name} type {e} hname he := by
    simp only [JS.dialect, String.append_assoc]
    refine isNeat_append (by decide) ?_
    simp only [isUnbroken_append, isUnbroken_of_isIdentifier hname, JS.isUnbroken_expr he]
    decide
  store type base offset e hbase hoffset he := by
    have hword : isNeat ("$ir_store_" ++ JS.shortName type) = true := by cases type <;> decide
    refine isNeat_append (isNeat_append hword (isUnbroken_parenthesized ?_)) rfl
    simp [JS.isUnbroken_expr hbase, JS.isUnbroken_expr hoffset, JS.isUnbroken_expr he]
  loop {counter} {bound} hcounter hbound := by
    have hcounter := isUnbroken_of_isIdentifier hcounter
    have htest : isUnbroken (parenthesized [counter, JS.expr {} bound]) = true :=
      isUnbroken_parenthesized (by simp [hcounter, JS.isUnbroken_expr hbound])
    have hstep : isUnbroken (parenthesized [counter, "1"]) = true :=
      isUnbroken_parenthesized (by simp [hcounter]; decide)
    simp only [JS.dialect, String.append_assoc]
    refine isNeat_append (by decide) ?_
    simp only [isUnbroken_append, hcounter, htest, hstep]
    decide

/-- Neat lines, none less deep than given, and their indentation. -/
structure Indented (depth : Nat) (blanks : List Nat) (ls : List Line) : Prop where
  neat : ∀ l ∈ ls, isNeat l.text = true
  deep : ∀ l ∈ ls, depth ≤ l.depth
  blanks_eq : ls.map (4 * ·.depth) = blanks

namespace Indented

variable {depth : Nat} {blanks blanks' : List Nat} {ls ls' : List Line} {text : String}

theorem nil : Indented depth [] [] :=
  ⟨List.forall_mem_nil _, List.forall_mem_nil _, rfl⟩

theorem append (h : Indented depth blanks ls) (h' : Indented depth blanks' ls') :
    Indented depth (blanks ++ blanks') (ls ++ ls') where
  neat := List.forall_mem_append.mpr ⟨h.neat, h'.neat⟩
  deep := List.forall_mem_append.mpr ⟨h.deep, h'.deep⟩
  blanks_eq := by rw [List.map_append, h.blanks_eq, h'.blanks_eq]

theorem single (h : isNeat text = true) : Indented depth [4 * depth] [{ depth, text }] :=
  ⟨List.forall_mem_singleton.mpr h, List.forall_mem_singleton.mpr le_rfl, rfl⟩

theorem block (htext : isNeat text = true) (h : Indented (depth + 1) blanks ls) :
    Indented depth (4 * depth :: 4 * depth :: blanks ++ [4 * depth])
      (Dialect.block depth text ls) :=
  have hbody : Indented depth blanks ls := ⟨h.neat, fun l hl => by have := h.deep l hl; omega,
    h.blanks_eq⟩
  ((single htext).append (single (by decide))).append (hbody.append (single (by decide)))

end Indented

theorem indented_bodyLines {d : Dialect} {ss : List Stmt} {depth : Nat}
    (h : ∀ s ∈ ss, Indented depth (stmtIndentation depth s) (d.stmtLines depth s)) :
    Indented depth (bodyIndentation depth ss) (d.bodyLines depth ss) := by
  induction ss with
  | nil => exact .nil
  | cons s ss ih =>
    obtain ⟨hs, hss⟩ := List.forall_mem_cons.mp h
    exact hs.append (ih hss)

theorem indented_stmtLines {d : Dialect} (hd : d.Neat) {s : Stmt} (h : s.Spelled) :
    ∀ depth, Indented depth (stmtIndentation depth s) (d.stmtLines depth s) := by
  induction h with
  | bind hname he => exact fun _ => .single (hd.bind _ hname he)
  | store hbase hoffset he => exact fun _ => .single (hd.store _ hbase hoffset he)
  | eval he => exact fun _ => .single (isNeat_append (hd.expr he) (by decide))
  | @ret e? he =>
    cases e? with
    | none => exact fun _ => .single (by decide)
    | some e =>
      refine fun _ => .single ?_
      rw [String.append_assoc]
      refine isNeat_append (by decide) ?_
      rw [isUnbroken_append, isUnbroken_of_isNeat (hd.expr (he e rfl))]
      decide
  | cond htest _ ih =>
    refine fun depth => .block ?_ (indented_bodyLines fun s hs => ih s hs _)
    rw [String.append_assoc]
    refine isNeat_append (by decide) ?_
    rw [isUnbroken_append, isUnbroken_of_isNeat (hd.expr htest)]
    decide
  | loop hcounter hbound _ ih =>
    exact fun depth => .block (hd.loop hcounter hbound) (indented_bodyLines fun s hs => ih s hs _)
  | unreachable hmessage =>
    refine fun _ => .single ?_
    rw [String.append_assoc]
    refine isNeat_append (by decide) ?_
    rw [isUnbroken_append, hmessage]
    decide

/-! ## Reading -/

theorem after?_append (p r : List Char) : after? p (p ++ r) = some r := by
  induction p with
  | nil => cases r <;> rfl
  | cons c p ih => rw [List.cons_append, after?, if_pos rfl, ih]

theorem cut?_append {c : Char} {cs : List Char} (h : c ∉ cs) (r : List Char) :
    cut? c (cs ++ c :: r) = some (cs, r) := by
  induction cs with
  | nil => rw [List.nil_append, cut?, if_pos rfl]
  | cons d ds ih =>
    obtain ⟨hd, hds⟩ := List.ne_and_not_mem_of_not_mem_cons h
    rw [List.cons_append, cut?, if_neg hd.symm, ih hds, Option.map_some]

namespace Surface

variable {s : Surface}

theorem indentation_render {l : Line} (h : isNeat l.text = true) :
    indentation l.render = 4 * l.depth := by
  obtain ⟨c, cs, hcs, hc⟩ := exists_toList_of_isNeat h
  simp [indentation, Line.render, hcs, hc]

/-- What is introduced in front of a name does not hide the name. -/
def Introduces (s : Surface) (intro : List Char) : Prop :=
  ∀ r, s.name? (intro ++ r) = some r

theorem const?_eq {line name : String} {v : Int} {intro : List Char} (hintro : s.Introduces intro)
    (hname : isIdentifier name = true)
    (hline : line.toList = s.constKeyword.toList ++ (intro ++ (name.toList ++
      ' ' :: (['=', ' '] ++ ((Numeral.ofInt v).toList ++ [';']))))) :
    s.const? line = some (.const name v) := by
  have hblank : ' ' ∉ name.toList := fun hc => ne_of_mem_isIdentifier hname hc (by decide) rfl
  have hend : ';' ∉ (Numeral.ofInt v).toList := fun hc =>
    Numeral.forall_mem_ofInt (P := (· ≠ ';')) (by decide) (by decide) v _ hc rfl
  simp only [const?, hline, after?_append, Option.bind_eq_bind, Option.bind_some, hintro _,
    cut?_append hblank, cut?_append hend, Numeral.readInt?_ofInt]
  simp

theorem function?_eq {line name : String} {ps params : List String} {intro : List Char}
    (hintro : s.Introduces intro) (hname : isIdentifier name = true)
    (hps : ∀ q ∈ ps, ')' ∉ q.toList)
    (hparams : s.params? (String.intercalate ", " ps).toList = some params)
    (hline : line.toList = s.functionKeyword.toList ++ (intro ++ (name.toList ++
      (parenthesized ps).toList))) (lines : List String) :
    s.function? line lines =
      (body? lines).map fun body => .function name params (body.map indentation) := by
  have hopen : '(' ∉ name.toList := fun hc => ne_of_mem_isIdentifier hname hc (by decide) rfl
  have hclose : ')' ∉ (String.intercalate ", " ps).toList := fun hc =>
    forall_mem_intercalate (P := (· ≠ ')')) (by simp)
      (fun q hq c hc heq => hps q hq (heq ▸ hc)) _ hc rfl
  have hparen : (parenthesized ps).toList =
      '(' :: ((String.intercalate ", " ps).toList ++ [')']) := by
    simp [parenthesized]
  simp only [function?, hline, hparen, after?_append, Option.bind_eq_bind, Option.bind_some,
    hintro _, cut?_append hopen, cut?_append hclose, hparams]
  cases body? lines <;> simp

/-! ### Parameters -/

theorem intercalate_comma_blank (a : List Char) (as : List (List Char)) :
    [',', ' '].intercalate (a :: as) = [','].intercalate (a :: as.map (' ' :: ·)) := by
  induction as generalizing a with
  | nil => rfl
  | cons b bs ih =>
    have hcons : [','].intercalate ((' ' :: b) :: bs.map (' ' :: ·)) =
        ' ' :: [','].intercalate (b :: bs.map (' ' :: ·)) := by
      cases bs <;> simp
    rw [List.intercalate_cons_cons, ih, List.map_cons, List.intercalate_cons_cons, hcons]
    simp

/-- The texts between commas, without the blanks behind commas. -/
theorem map_splitOn_intercalate {ps : List String} (hne : ps ≠ [])
    (hneat : ∀ q ∈ ps, isNeat q = true) (hcomma : ∀ q ∈ ps, ',' ∉ q.toList) :
    ((String.intercalate ", " ps).toList.splitOn ',').map (·.dropWhile (· == ' ')) =
      ps.map String.toList := by
  have hdrop : ∀ q ∈ ps, q.toList.dropWhile (· == ' ') = q.toList := by
    intro q hq
    obtain ⟨c, cs, hcs, hc⟩ := exists_toList_of_isNeat (hneat q hq)
    simp [hcs, hc]
  cases ps with
  | nil => exact absurd rfl hne
  | cons q qs =>
    have hsplit : ∀ l ∈ q.toList :: (qs.map String.toList).map (' ' :: ·), ',' ∉ l := by
      obtain ⟨hq, hqs⟩ := List.forall_mem_cons.mp hcomma
      refine List.forall_mem_cons.mpr ⟨hq, ?_⟩
      simpa using hqs
    obtain ⟨hq, hqs⟩ := List.forall_mem_cons.mp hdrop
    rw [String.toList_intercalate, show ", ".toList = [',', ' '] by decide, List.map_cons,
      intercalate_comma_blank, List.splitOn_intercalate _ hsplit (List.cons_ne_nil _ _),
      List.map_cons, hq, List.map_map, List.map_map]
    refine congrArg _ (List.map_congr_left fun r hr => ?_)
    simpa using hqs r hr

theorem params?_intercalate {ps : List String} (hneat : ∀ q ∈ ps, isNeat q = true)
    (hcomma : ∀ q ∈ ps, ',' ∉ q.toList) :
    s.params? (String.intercalate ", " ps).toList =
      ((ps.map String.toList).mapM s.type?).map fun params =>
        (params.filter fun q => q.1 != ['V', 'M']).map fun q => .ofList q.2 := by
  have hpieces : (((String.intercalate ", " ps).toList.splitOn ',').map
      (·.dropWhile (· == ' '))).filter (!·.isEmpty) = ps.map String.toList := by
    cases ps with
    | nil => rfl
    | cons q qs =>
      rw [map_splitOn_intercalate (List.cons_ne_nil _ _) hneat hcomma]
      refine List.filter_eq_self.mpr (List.forall_mem_map.mpr fun r hr => ?_)
      obtain ⟨c, cs, hcs, -⟩ := exists_toList_of_isNeat (hneat r hr)
      rw [hcs]
      rfl
  rw [params?, hpieces]
  cases (ps.map String.toList).mapM s.type? <;> rfl

/-! ### Definitions -/

/-- The first line of a definition, which can stand in a text. -/
def IsHead (s : Surface) (line : String) : Prop :=
  s.begins line = true ∧ isUnbroken line = true

/-- A surface fits a dialect if it reads the head of every definition as what it is. -/
structure Fits (s : Surface) (d : Dialect) : Prop where
  neat : d.Neat
  /-- Definitions begin with a word. -/
  opens : ∀ {line}, s.begins line = true →
    ∃ c cs, line.toList = c :: cs ∧ Identifier.isStart c = true
  isHead_constant : ∀ {name} type v, isIdentifier name = true →
    s.IsHead (d.constant name type v)
  isHead_signature : ∀ {f : Function}, f.Spelled → s.IsHead (d.signature f)
  const?_constant : ∀ {name} type v, isIdentifier name = true →
    s.const? (d.constant name type v) = some (.const name v)
  const?_signature : ∀ f, s.const? (d.signature f) = none
  function?_signature : ∀ {f : Function}, f.Spelled → ∀ lines, s.function? (d.signature f) lines =
    (body? lines).map fun body => .function f.name
      ((f.params.filter fun q => q.type != .context).map (·.name)) (body.map indentation)

theorem opens_of_begins (hconst : s.constKeyword.toList.head?.any Identifier.isStart = true)
    (hfunction : s.functionKeyword.toList.head?.any Identifier.isStart = true) {line : String}
    (h : s.begins line = true) :
    ∃ c cs, line.toList = c :: cs ∧ Identifier.isStart c = true := by
  have hopens {keyword : String} (hkeyword : keyword.toList.head?.any Identifier.isStart = true)
      (h : keyword.toList.isPrefixOf line.toList = true) :
      ∃ c cs, line.toList = c :: cs ∧ Identifier.isStart c = true := by
    obtain ⟨r, hr⟩ := List.isPrefixOf_iff_prefix.mp h
    cases hcs : keyword.toList with
    | nil => simp [hcs] at hkeyword
    | cons c cs => exact ⟨c, cs ++ r, by rw [← hr, hcs]; rfl, by simpa [hcs] using hkeyword⟩
  rcases Bool.or_eq_true_iff.mp h with h | h
  · exact hopens hconst h
  · exact hopens hfunction h

theorem isHead_append {keyword r : String} (h : keyword ∈ [s.constKeyword, s.functionKeyword])
    (hkeyword : isUnbroken keyword = true) (hr : isUnbroken r = true) :
    s.IsHead (keyword ++ r) := by
  have hprefix : keyword.toList.isPrefixOf (keyword ++ r).toList = true := by
    rw [String.toList_append]
    exact List.isPrefixOf_iff_prefix.mpr (List.prefix_append _ _)
  refine ⟨Bool.or_eq_true_iff.mpr ?_, by rw [isUnbroken_append, hkeyword, hr, Bool.and_true]⟩
  rcases List.mem_pair.mp h with rfl | rfl
  · exact .inl hprefix
  · exact .inr hprefix

theorem exists_toList_render {l : Line} (hl : 1 ≤ l.depth) : ∃ cs, l.render.toList = ' ' :: cs := by
  obtain ⟨n, hn⟩ := Nat.exists_eq_add_of_le' (show 1 ≤ 4 * l.depth by omega)
  exact ⟨_, by rw [Line.render, hn]; simp [List.replicate_succ]; rfl⟩

/-- The lines between the braces are those of the body. -/
theorem body?_render {ls : List Line} (h : ∀ l ∈ ls, 1 ≤ l.depth) (rest : List String) :
    body? ("\x7b" :: (ls.map Line.render ++ "\x7d" :: rest)) = some (ls.map Line.render) := by
  have hbody : ∀ x ∈ ls.map Line.render, (x != "\x7d") = true := by
    refine List.forall_mem_map.mpr fun l hl => ?_
    obtain ⟨cs, hcs⟩ := exists_toList_render (h l hl)
    simp [← String.toList_inj, hcs]
  rw [body?, if_pos rfl, List.takeWhile_append_of_pos hbody,
    List.takeWhile_cons_of_neg (by simp), List.append_nil]

theorem readLines?_append {xs : List String} (h : ∀ x ∈ xs, s.begins x = false)
    (ys : List String) : s.readLines? (xs ++ ys) = s.readLines? ys := by
  induction xs with
  | nil => rfl
  | cons x xs ih =>
    obtain ⟨hx, hxs⟩ := List.forall_mem_cons.mp h
    rw [List.cons_append, readLines?, hx, if_neg (by simp), ih hxs]

namespace Fits

variable {d : Dialect} {c : Decl} {l : Line}

theorem begins_eq_false (h : s.Fits d) {line : String}
    (hline : ∀ c cs, line.toList = c :: cs → Identifier.isStart c = false) :
    s.begins line = false := by
  cases hbegins : s.begins line with
  | false => rfl
  | true =>
    obtain ⟨c, cs, hcs, hstart⟩ := h.opens hbegins
    exact absurd hstart (by simp [hline c cs hcs])

/-- Indented lines are not mistaken for definitions. -/
theorem begins_render (h : s.Fits d) (hl : 1 ≤ l.depth) : s.begins l.render = false := by
  obtain ⟨cs, hcs⟩ := exists_toList_render hl
  refine h.begins_eq_false fun c ds hds => ?_
  cases hcs.symm.trans hds
  decide

/-- Neither are braces and empty lines. -/
theorem begins_of_mem (h : s.Fits d) {line : String} (hline : line ∈ ["\x7b", "\x7d", ""]) :
    s.begins line = false := by
  have hall : ∀ line ∈ ["\x7b", "\x7d", ""],
      (line.toList.head?.all fun c => !Identifier.isStart c) = true := by decide
  refine h.begins_eq_false fun c cs hcs => ?_
  simpa [hcs] using hall line hline

/-- A definition with the empty line behind it, in front of other lines. -/
theorem readLines?_decl (h : s.Fits d) (hc : c.Spelled) (rest : List String) :
    s.readLines? ((d.declLines c ++ [Line.blank]).map Line.render ++ rest) =
      (s.readLines? rest).map (Definition.ofDecl c :: ·) := by
  have htop (text : String) : Line.render { depth := 0, text } = text := by
    simp [Line.render]
  cases c with
  | const name type v =>
    have hlines : (d.declLines (.const name type v) ++ [Line.blank]).map Line.render ++ rest =
        d.constant name type v :: ([""] ++ rest) := by
      simp [Dialect.declLines, Line.top, Line.blank, htop]
    have hblank : ∀ line ∈ [""], s.begins line = false := by simp [h.begins_of_mem]
    rw [hlines, readLines?, if_pos (h.isHead_constant type v hc).1, h.const?_constant type v hc,
      readLines?_append hblank]
    cases s.readLines? rest <;> rfl
  | function f =>
    obtain ⟨hneat, hdeep, hblanks⟩ := indented_bodyLines fun st hst =>
      indented_stmtLines h.neat (hc.body st hst) 1
    have hlines : (d.declLines (.function f) ++ [Line.blank]).map Line.render ++ rest =
        d.signature f :: ("\x7b" :: ((d.bodyLines 1 f.body).map Line.render ++
          "\x7d" :: "" :: rest)) := by
      simp [Dialect.declLines, Dialect.block, Line.blank, Line.top, htop]
    have hindentation : ((d.bodyLines 1 f.body).map Line.render).map indentation =
        bodyIndentation 1 f.body := by
      rw [List.map_map, ← hblanks]
      exact List.map_congr_left fun l hl => indentation_render (hneat l hl)
    have hbody : ∀ line ∈ "\x7b" :: (d.bodyLines 1 f.body).map Line.render ++ ["\x7d", ""],
        s.begins line = false := by
      simp only [List.cons_append, List.forall_mem_cons, List.forall_mem_append]
      refine ⟨h.begins_of_mem (by decide), ?_, h.begins_of_mem (by decide),
        h.begins_of_mem (by decide), List.forall_mem_nil _⟩
      exact List.forall_mem_map.mpr fun l hl => h.begins_render (hdeep l hl)
    have hrest : s.readLines? ("\x7b" :: ((d.bodyLines 1 f.body).map Line.render ++
        "\x7d" :: "" :: rest)) = s.readLines? rest := by
      simpa using readLines?_append hbody rest
    rw [hlines, readLines?, if_pos (h.isHead_signature hc).1, h.const?_signature,
      h.function?_signature hc, body?_render hdeep, Option.map_some, hindentation, hrest]
    cases s.readLines? rest <;> rfl

theorem readLines?_decls (h : s.Fits d) {cs : List Decl} (hcs : ∀ c ∈ cs, c.Spelled) :
    s.readLines? ((d.declsLines cs).map Line.render) = some (cs.map Definition.ofDecl) := by
  induction cs with
  | nil => rfl
  | cons c cs ih =>
    obtain ⟨hc, hcs⟩ := List.forall_mem_cons.mp hcs
    rw [Dialect.declsLines, List.flatMap_cons, List.map_append, h.readLines?_decl hc,
      ← Dialect.declsLines, ih hcs]
    rfl

theorem isUnbroken_decl (h : s.Fits d) (hc : c.Spelled) :
    ∀ l ∈ d.declLines c, isUnbroken l.text = true := by
  cases c with
  | const name type v => exact List.forall_mem_singleton.mpr (h.isHead_constant type v hc).2
  | function f =>
    have hbody := indented_bodyLines fun st hst => indented_stmtLines h.neat (hc.body st hst) 1
    refine List.forall_mem_cons.mpr ⟨(h.isHead_signature hc).2, List.forall_mem_cons.mpr
      ⟨show isUnbroken "\x7b" = true by decide, List.forall_mem_append.mpr ⟨?_, ?_⟩⟩⟩
    · exact fun l hl => isUnbroken_of_isNeat (hbody.neat l hl)
    · exact List.forall_mem_singleton.mpr (show isUnbroken "\x7d" = true by decide)

/-- Lines without definitions and then a program: what is read is the outline of the program. -/
theorem read?_eq (h : s.Fits d) {p : Program} {preamble : List Line}
    (hbegins : ∀ l ∈ preamble, s.begins l.render = false)
    (hunbroken : ∀ l ∈ preamble, isUnbroken l.text = true) (hp : ∀ c ∈ p.decls, c.Spelled) :
    s.read? (Line.terminated (preamble ++ d.declsLines p.decls)) = some (outline p) := by
  have hdecls : ∀ l ∈ d.declsLines p.decls, isUnbroken l.text = true := by
    refine List.forall_mem_flatMap.mpr fun c hc => List.forall_mem_append.mpr ⟨?_, ?_⟩
    · exact h.isUnbroken_decl (hp c hc)
    · exact List.forall_mem_singleton.mpr (show isUnbroken "" = true by decide)
  rw [read?, ofString_terminated (List.forall_mem_append.mpr ⟨hunbroken, hdecls⟩), List.map_append,
    readLines?_append (List.forall_mem_map.mpr hbegins), h.readLines?_decls hp]
  rfl

end Fits

end Surface

/-! ## D -/

namespace D

theorem isIdentifier_valueType (t : ValueType) : isIdentifier (valueType t) = true := by
  cases t with
  | prim p => cases p <;> decide
  | context => decide
  | void => decide

/-- The type in front of a name is read and left out. -/
theorem introduces_valueType (t : ValueType) :
    surface.Introduces ((valueType t).toList ++ [' ']) := by
  intro r
  have hblank : ' ' ∉ (valueType t).toList := fun hc =>
    ne_of_mem_isIdentifier (isIdentifier_valueType t) hc (by decide) rfl
  have htype : surface.type? ((valueType t).toList ++ ' ' :: r) =
      some ((valueType t).toList, r) := cut?_append hblank r
  rw [List.append_assoc, List.singleton_append, Surface.name?, htype]
  exact after?_append [] r

theorem ne_of_mem_param {q : Param} (hq : isIdentifier q.name = true) {c d : Char}
    (hc : c ∈ (param q).toList) (hrest : Identifier.isRest d = false) (hblank : ' ' ≠ d) :
    c ≠ d := by
  simp only [param, String.toList_append, List.mem_append] at hc
  rcases hc with (hc | hc) | hc
  · exact ne_of_mem_isIdentifier (isIdentifier_valueType q.type) hc hrest
  · cases List.mem_singleton.mp hc
    exact hblank
  · exact ne_of_mem_isIdentifier hq hc hrest

theorem isNeat_param {q : Param} (hq : isIdentifier q.name = true) : isNeat (param q) = true :=
  isNeat_append (isNeat_append (isNeat_of_isIdentifier (isIdentifier_valueType q.type)) (by decide))
    (isUnbroken_of_isIdentifier hq)

theorem type?_param (q : Param) :
    surface.type? (param q).toList = some ((valueType q.type).toList, q.name.toList) := by
  have hblank : ' ' ∉ (valueType q.type).toList := fun hc =>
    ne_of_mem_isIdentifier (isIdentifier_valueType q.type) hc (by decide) rfl
  have hparam : (param q).toList = (valueType q.type).toList ++ ' ' :: q.name.toList := by
    simp [param]
  rw [hparam]
  exact cut?_append hblank _

theorem valueType_ne_iff (t : ValueType) :
    ((valueType t).toList != ['V', 'M']) = (t != .context) := by
  cases t with
  | prim p => cases p <;> decide
  | context => decide
  | void => decide

theorem params?_param {ps : List Param} (hps : ∀ q ∈ ps, isIdentifier q.name = true) :
    surface.params? (String.intercalate ", " (ps.map param)).toList =
      some ((ps.filter fun q => q.type != .context).map (·.name)) := by
  have htypes : ((ps.map param).map String.toList).mapM surface.type? =
      some (ps.map fun q => ((valueType q.type).toList, q.name.toList)) := by
    rw [List.map_map, List.mapM_map]
    exact (congrArg (List.mapM · ps) (funext type?_param)).trans List.mapM_pure
  rw [Surface.params?_intercalate, htypes]
  · simp [List.filter_map, Function.comp_def, valueType_ne_iff]
  · exact List.forall_mem_map.mpr fun q hq => isNeat_param (hps q hq)
  · exact List.forall_mem_map.mpr fun q hq hc =>
      ne_of_mem_param (hps q hq) hc (by decide) (by decide) rfl

theorem fits : surface.Fits dialect where
  neat := neat
  opens := Surface.opens_of_begins (by decide) (by decide)
  isHead_constant := by
    intro name type v hname
    simp only [dialect, String.append_assoc]
    refine Surface.isHead_append (by decide) (by decide) ?_
    simp only [isUnbroken_append, isUnbroken_primName type, isUnbroken_of_isIdentifier hname,
      isUnbroken_ofInt v]
    decide
  isHead_signature := by
    intro f hf
    simp only [dialect, signature, String.append_assoc]
    refine Surface.isHead_append (by decide) (by decide) ?_
    have hparams : isUnbroken (parenthesized (f.params.map param)) = true :=
      isUnbroken_parenthesized (List.forall_mem_map.mpr fun q hq =>
        isUnbroken_of_isNeat (isNeat_param (hf.params q hq)))
    simp only [isUnbroken_append, isUnbroken_of_isIdentifier (isIdentifier_valueType f.result),
      hparams, isUnbroken_of_isIdentifier hf.name]
    decide
  const?_constant := by
    intro name type v hname
    refine Surface.const?_eq (introduces_valueType (.prim type)) hname ?_
    simp [dialect, surface, valueType]
  const?_signature := by
    intro f
    simp [dialect, signature, Surface.const?, surface, after?]
  function?_signature := by
    intro f hf
    refine Surface.function?_eq (introduces_valueType f.result) hf.name ?_
      (params?_param hf.params) ?_
    · exact List.forall_mem_map.mpr fun q hq hc =>
        ne_of_mem_param (hf.params q hq) hc (by decide) (by decide) rfl
    · simp [dialect, surface, signature]

theorem begins_preamble : ∀ l ∈ preamble {}, surface.begins l.render = false := by
  decide

theorem isUnbroken_preamble : ∀ l ∈ preamble {}, isUnbroken l.text = true := by
  decide

theorem read?_source {p : Program} (hp : ∀ c ∈ p.decls, c.Spelled) :
    surface.read? (source {} p) = some (outline p) := by
  rw [source, lines]
  exact fits.read?_eq begins_preamble isUnbroken_preamble hp

end D

/-! ## JavaScript -/

namespace JS

theorem introduces_qualifier : surface.Introduces "$rt_".toList :=
  fun r => after?_append _ r

theorem params?_params {ps : List Param} (hps : ∀ q ∈ ps, isIdentifier q.name = true) :
    surface.params? (String.intercalate ", " (params ps)).toList = some (params ps) := by
  have hnames : ∀ name ∈ params ps, isIdentifier name = true :=
    List.forall_mem_map.mpr fun q hq => hps q (List.mem_of_mem_filter hq)
  have htypes : ((params ps).map String.toList).mapM surface.type? =
      some ((params ps).map fun name => ([], name.toList)) := by
    rw [List.mapM_map]
    exact List.mapM_pure
  rw [Surface.params?_intercalate, htypes]
  · simp [List.filter_map, Function.comp_def]
  · exact fun name hname => isNeat_of_isIdentifier (hnames name hname)
  · exact fun name hname hc => ne_of_mem_isIdentifier (hnames name hname) hc (by decide) rfl

theorem fits : surface.Fits (dialect {}) where
  neat := neat
  opens := Surface.opens_of_begins (by decide) (by decide)
  isHead_constant := by
    intro name type v hname
    simp only [dialect, String.append_assoc]
    refine Surface.isHead_append (by decide) (by decide) ?_
    simp only [isUnbroken_append, isUnbroken_of_isIdentifier hname, isUnbroken_ofInt v]
    decide
  isHead_signature := by
    intro f hf
    have hparams : isUnbroken (parenthesized (params f.params)) = true :=
      isUnbroken_parenthesized (List.forall_mem_map.mpr fun q hq =>
        isUnbroken_of_isIdentifier (hf.params q (List.mem_of_mem_filter hq)))
    simp only [dialect, signature, String.append_assoc]
    refine Surface.isHead_append (by decide) (by decide) ?_
    simp only [isUnbroken_append, isUnbroken_of_isIdentifier hf.name, hparams]
    decide
  const?_constant := by
    intro name type v hname
    refine Surface.const?_eq introduces_qualifier hname ?_
    simp [dialect, surface]
  const?_signature := by
    intro f
    simp [dialect, signature, Surface.const?, surface, after?]
  function?_signature := by
    intro f hf
    refine Surface.function?_eq introduces_qualifier hf.name ?_ (params?_params hf.params) ?_
    · exact List.forall_mem_map.mpr fun q hq hc => ne_of_mem_isIdentifier
        (hf.params q (List.mem_of_mem_filter hq)) hc (by decide) rfl
    · simp [dialect, surface, signature]

theorem begins_banner : ∀ l ∈ banner "layout-gen", surface.begins l.render = false := by
  decide

theorem isUnbroken_banner : ∀ l ∈ banner "layout-gen", isUnbroken l.text = true := by
  decide

theorem read?_source {p : Program} (hp : ∀ c ∈ p.decls, c.Spelled) :
    surface.read? (source {} p) = some (outline p) := by
  rw [source, lines]
  exact fits.read?_eq begins_banner isUnbroken_banner hp

end JS

/-! ## Both artifacts -/

/-- **One outline.** Both artifacts of an accepted schema have the outline of the program that they
were printed from: its constants and functions, in its order, and the indentation of every body. -/
theorem read_artifacts {w : PointerWidth} {defs : List LayoutDef} {ls : List Layout}
    (h : Schema.resolve w defs = .ok ls) :
    ∃ a, Artifacts.ofLayouts w ls = .ok a ∧ Program.ofLayouts w ls = .ok a.program ∧
      D.surface.read? a.d = some (outline a.program) ∧
      JS.surface.read? a.js = some (outline a.program) := by
  obtain ⟨p, hp⟩ := Code.exists_ofLayouts h
  have hspelled := Code.spelled_of_ofLayouts h hp
  refine ⟨.ofProgram {} {} p, congrArg (Except.map (Artifacts.ofProgram {} {})) hp, hp, ?_, ?_⟩
  · simp only [Artifacts.ofProgram]
    exact D.read?_source hspelled
  · simp only [Artifacts.ofProgram]
    exact JS.read?_source hspelled

/-- The artifacts of the buffer layouts. -/
theorem read_artifacts_hashed :
    Schema.resolve .eight [Code.bufferDef none none, Code.hashedDef] =
        .ok [Code.bufferLayout none none, Code.hashedLayout] ∧
      ∃ a, Artifacts.ofLayouts .eight [Code.bufferLayout none none, Code.hashedLayout] = .ok a ∧
        Program.ofLayouts .eight [Code.bufferLayout none none, Code.hashedLayout] =
          .ok a.program ∧
        D.surface.read? a.d = some (outline a.program) ∧
        JS.surface.read? a.js = some (outline a.program) := by
  have hresolve : Schema.resolve .eight [Code.bufferDef none none, Code.hashedDef] =
      .ok [Code.bufferLayout none none, Code.hashedLayout] := by decide
  exact ⟨hresolve, read_artifacts hresolve⟩

end Artifact

end HeapLayout
