import HeapLayout.Proofs.Replacement

/-!
# What the commands do to the files

`analyze` changes no file. `codegen` changes at most the two files that it is asked for, and each of
them only from what it held to the whole text of an artifact. A command line that asks for help or
is refused runs no command and changes no file (`effect_program`). All of this holds for every host,
so whichever request is refused, and for every way to parse the arguments.

The two files are replaced one after the other, and nothing is undone. A run that fails therefore
leaves all files as they were if and only if it had not put the first artifact in place, or had put
it in place of the same text (`unchanged_iff_of_exit`).
-/

namespace HeapLayout.Command

/-! ## The artifacts that are asked for -/

/-- The schema that a command is to read, as a file tree has it. -/
def schemaIn? (t : FileTree) : Option String → Option SchemaFile
  | none => some builtinSchema
  | some path => (t.readText path).toOption.bind SchemaFile.ofYaml?

/-- The artifacts of that schema. -/
def artifactsIn? (t : FileTree) (o : CodegenOptions) : Option Artifacts := do
  let schema ← schemaIn? t o.file
  let w ← PointerWidth.ofBytes? o.pointerBytes
  let layouts ← (Schema.resolve w schema.layouts).toOption
  (Artifacts.ofLayouts w layouts).toOption

/-! ## Computations that leave the files alone -/

variable {α β : Type}

/-- Whatever the host does, the file tree stays, and a result is as `P` says of it. -/
abbrev Work.Finds (x : Work α) (P : FileTree → α → Prop) : Prop :=
  x.Leaves (fun t t' => t' = t) fun t a t' => t' = t ∧ P t a

namespace Work

variable {x : Work α} {f : α → Work β} {P P' : FileTree → α → Prop} {R : FileTree → β → Prop}

theorem finds_pure (a : α) : (pure a : Work α).Finds fun _ b => b = a :=
  (leaves_pure a).mono (fun _ _ => False.elim) fun _ _ _ h => h.symm

theorem finds_throw (e : Failure) : (throw e : Work α).Finds P :=
  (leaves_throw e).mono (fun _ _ => id) fun _ _ _ => False.elim

theorem Finds.mono (hx : x.Finds P) (h : ∀ t a, P t a → P' t a) : x.Finds P' :=
  Script.Leaves.mono hx (fun _ _ => id) fun t a _ ha => ⟨ha.1, h t a ha.2⟩

theorem Finds.bind {Q : α → FileTree → β → Prop} (hx : x.Finds P) (hf : ∀ a, (f a).Finds (Q a))
    (h : ∀ t a b, P t a → Q a t b → R t b) : (x >>= f).Finds R := by
  refine Leaves.bind hx hf (fun _ _ => id) ?_ ?_
  · rintro t a _ _ ⟨rfl, -⟩ rfl
    rfl
  · rintro t a _ b _ ⟨rfl, ha⟩ ⟨rfl, hb⟩
    exact ⟨rfl, h _ a b ha hb⟩

/-- Printing is never refused, and leaves the files alone. -/
theorem answer_print (h : Host) (t : FileTree) (n : Nat) (text : String) :
    (t.answer h n (.print text)).1 = t := by
  unfold FileTree.answer
  split <;> rfl

theorem answer_printError (h : Host) (t : FileTree) (n : Nat) (text : String) :
    (t.answer h n (.printError text)).1 = t := by
  unfold FileTree.answer
  split <;> rfl

theorem leaves_sayLine (text : String) :
    (sayLine text).Leaves (fun _ _ => False) fun t _ t' => t' = t :=
  fun h s => answer_print h s.tree s.requests (text ++ "\n")

theorem finds_sayLine (text : String) : (sayLine text).Finds fun _ _ => True :=
  (leaves_sayLine text).mono (fun _ _ => False.elim) fun _ _ _ h => ⟨h, trivial⟩

theorem finds_sayLines (texts : List String) : (sayLines texts).Finds fun _ _ => True := by
  induction texts with
  | nil => exact (finds_pure ()).mono fun _ _ _ => trivial
  | cons text texts ih => exact (finds_sayLine text).bind (fun _ => ih) fun _ _ _ _ => id

theorem finds_tellLines (verbose : Bool) (texts : List String) :
    (tellLines verbose texts).Finds fun _ _ => True := by
  cases verbose with
  | false => exact (finds_pure ()).mono fun _ _ _ => trivial
  | true => exact finds_sayLines texts

theorem finds_ofExcept {ε : Type} (failure : ε → Failure) (x : Except ε α) :
    (ofExcept failure x).Finds fun _ a => x = .ok a := by
  cases x with
  | ok a => exact (finds_pure a).mono fun _ _ h => h ▸ rfl
  | error e => exact finds_throw (failure e)

theorem finds_readText (failure : ReadError → Failure) (path : String) :
    (attempt failure (.ask (.readText path))).Finds fun t text => t.readText path = .ok text := by
  refine leaves_attempt (Script.leaves_iff.mpr fun h s => ?_)
  rw [Script.tree_ask, Script.result_ask, FileTree.answer]
  split
  · simp [FileTree.refuse]
  · simp [FileTree.grant]

end Work

open Work

theorem finds_readSchema (verbose : Bool) (file : Option String) :
    (readSchema verbose file).Finds fun t schema => schemaIn? t file = some schema := by
  cases file with
  | none =>
    exact (finds_tellLines _ _).bind (fun _ => finds_pure builtinSchema)
      fun _ _ _ _ h => congrArg some h.symm
  | some path =>
    refine (finds_tellLines _ _).bind (fun _ => ?_) fun _ _ _ _ => id
    refine (finds_readText _ path).bind (Q := fun text _ s => SchemaFile.ofYaml? text = some s)
      (fun text => ?_) fun t text schema htext hschema => ?_
    · split
      · next hschema => exact (finds_pure _).mono fun _ _ h => h ▸ hschema
      · exact finds_throw _
    · rw [schemaIn?, htext]
      exact hschema

theorem finds_loadSchema (verbose : Bool) (file : Option String) :
    (loadSchema verbose file).Finds fun t schema => schemaIn? t file = some schema := by
  refine (finds_readSchema verbose file).bind (fun schema => (finds_tellLines _ _).bind
    (fun _ => finds_pure schema) fun _ _ _ _ => id) ?_
  rintro t schema _ hschema rfl
  exact hschema

theorem finds_pointerWidth (bytes : Nat) :
    (pointerWidth bytes).Finds fun _ w => PointerWidth.ofBytes? bytes = some w := by
  unfold pointerWidth
  split
  · next hw => exact (finds_pure _).mono fun _ _ h => h ▸ hw
  · exact finds_throw _

theorem finds_resolve (w : PointerWidth) (schema : SchemaFile) :
    (resolve w schema).Finds fun _ layouts => Schema.resolve w schema.layouts = .ok layouts := by
  unfold resolve
  split
  · next hls => exact (finds_pure _).mono fun _ _ h => h ▸ hls
  · exact (finds_sayLine _).bind (fun _ => finds_throw _) fun _ _ _ _ => id

theorem finds_loadLayouts (verbose : Bool) (file : Option String) (bytes : Nat) :
    (loadLayouts verbose file bytes).Finds fun t r => PointerWidth.ofBytes? bytes = some r.1 ∧
      ∃ schema, schemaIn? t file = some schema ∧ Schema.resolve r.1 schema.layouts = .ok r.2 := by
  have hresolve (w : PointerWidth) (schema : SchemaFile) : (do
      tellLine verbose
        ("[~] Resolving layouts (pointer width " ++ Numeral.ofNat w.bytes ++ ")...")
      let layouts ← resolve w schema
      tellLine verbose ("[✓] Resolved " ++ Numeral.ofNat layouts.length ++ " layouts\n")
      return (w, layouts) : Work (PointerWidth × List Layout)).Finds fun _ r =>
        r.1 = w ∧ Schema.resolve w schema.layouts = .ok r.2 := by
    refine (finds_tellLines _ _).bind (fun _ => (finds_resolve w schema).bind (fun layouts =>
      (finds_tellLines _ _).bind (fun _ => finds_pure (w, layouts)) fun _ _ _ _ => id) ?_)
      fun _ _ _ _ => id
    rintro _ layouts _ hls rfl
    exact ⟨rfl, hls⟩
  have hload (schema : SchemaFile) := (finds_pointerWidth bytes).bind (fun w => hresolve w schema)
    (R := fun _ r => PointerWidth.ofBytes? bytes = some r.1 ∧
      Schema.resolve r.1 schema.layouts = .ok r.2) fun _ w _ hw h => ⟨h.1 ▸ hw, h.1 ▸ h.2⟩
  exact (finds_loadSchema verbose file).bind hload
    fun _ schema _ hschema h => ⟨h.1, schema, hschema, h.2⟩

/-- What is rendered are the artifacts of the schema in the file tree. -/
theorem finds_render (o : CodegenOptions) :
    (render o).Finds fun t a => artifactsIn? t o = some a := by
  have hsynthesize (r : PointerWidth × List Layout) : (do
      let artifacts ← Work.ofExcept .synthesis (Artifacts.ofLayouts r.1 r.2)
      tellLine o.verbose
        ("[~] Synthesized " ++ Numeral.ofNat artifacts.program.functions.length ++ " functions")
      return artifacts : Work Artifacts).Finds fun _ a => Artifacts.ofLayouts r.1 r.2 = .ok a := by
    refine (finds_ofExcept _ _).bind (fun a => (finds_tellLines _ _).bind
      (fun _ => finds_pure a) fun _ _ _ _ => id) ?_
    rintro _ a _ ha rfl
    exact ha
  refine (finds_tellLines _ _).bind (fun _ => (finds_loadLayouts _ _ _).bind hsynthesize ?_)
    fun _ _ _ _ => id
  rintro t ⟨w, layouts⟩ a ⟨hw, schema, hschema, hls⟩ ha
  simp [artifactsIn?, hschema, hw, hls, ha, Except.toOption]

theorem finds_select (layouts : List Layout) (name : Option String) :
    (select layouts name).Finds fun _ _ => True := by
  unfold select
  split
  · exact (finds_pure _).mono fun _ _ _ => trivial
  · split
    · exact (finds_pure _).mono fun _ _ _ => trivial
    · exact finds_throw _

theorem finds_printProgram (w : PointerWidth) (layouts : List Layout) :
    (printProgram w layouts).Finds fun _ _ => True :=
  (finds_ofExcept _ _).bind (fun _ => finds_sayLines _) fun _ _ _ _ => id

theorem finds_analyze (o : AnalyzeOptions) : (analyze o).Finds fun _ _ => True := by
  refine (finds_sayLines _).bind (fun _ => (finds_loadLayouts _ _ _).bind (fun r =>
    (finds_select r.2 o.layout).bind (fun _ => (finds_sayLines _).bind (fun _ => ?_)
      fun _ _ _ _ => id) fun _ _ _ _ => id) fun _ _ _ _ => id) fun _ _ _ _ => id
  split
  · exact finds_printProgram r.1 r.2
  · exact (finds_pure ()).mono fun _ _ _ => trivial

/-! ## Writing the artifacts -/

open FileTree

theorem leaves_writeArtifact (path content : String) :
    (writeArtifact path content).Leaves (fun t t' => t.Agree t' [])
      fun t _ t' => Replaced path content t t' := by
  refine (leaves_replace path content).bind (fun _ => leaves_sayLine _) (fun _ _ => id)
    (fun _ _ _ _ _ => False.elim) ?_
  rintro t _ _ _ _ h rfl
  exact h

theorem leaves_renderFirst (o : CodegenOptions) :
    (renderFirst o).Leaves (fun t t' => t.Agree t' []) fun t a t' =>
      artifactsIn? t o = some a ∧ Replaced o.dPath a.d t t' := by
  have hwrite (a : Artifacts) : (do
      writeArtifact o.dPath a.d
      return a : Work Artifacts).Leaves (fun t t' => t.Agree t' [])
        fun t b t' => b = a ∧ Replaced o.dPath a.d t t' := by
    refine (leaves_writeArtifact _ _).bind (fun _ => leaves_pure a) (fun _ _ => id)
      (fun _ _ _ _ _ => False.elim) ?_
    rintro t _ _ _ _ h ⟨rfl, rfl⟩
    exact ⟨rfl, h⟩
  refine Leaves.bind (finds_render o) hwrite ?_ ?_ ?_
  · rintro t _ rfl
    exact .refl _
  · rintro t a _ t' ⟨rfl, -⟩ h
    exact h
  · rintro t a _ _ t' ⟨rfl, ha⟩ ⟨rfl, h⟩
    exact ⟨ha, h⟩

/-! ## The files after a run -/

/-- The two files that are asked for, each as it was or whole, and all others as they were. -/
structure Untorn (o : CodegenOptions) (t t' : FileTree) : Prop where
  others : ∀ l, l ≠ t.location o.dPath → l ≠ t.location o.jsPath → t'.file? l = t.file? l
  d : t.location o.dPath ≠ t.location o.jsPath →
    t'.file? (t.location o.dPath) = t.file? (t.location o.dPath) ∨
      ∃ a, artifactsIn? t o = some a ∧ t'.file? (t.location o.dPath) = some a.d.toUTF8
  js : t.location o.dPath ≠ t.location o.jsPath →
    t'.file? (t.location o.jsPath) = t.file? (t.location o.jsPath) ∨
      ∃ a, artifactsIn? t o = some a ∧ t'.file? (t.location o.jsPath) = some a.js.toUTF8

/-- Both artifacts are in place; if they have the same place, it is the second. -/
def Complete (o : CodegenOptions) (t t' : FileTree) : Prop :=
  ∃ a, artifactsIn? t o = some a ∧ t'.file? (t.location o.jsPath) = some a.js.toUTF8 ∧
    (t.location o.dPath ≠ t.location o.jsPath →
      t'.file? (t.location o.dPath) = some a.d.toUTF8)

variable {o : CodegenOptions} {t t₁ t' : FileTree} {a : Artifacts}

theorem untorn_of_agree (h : t.Agree t' []) : Untorn o t t' where
  others l _ _ := h.file? l List.not_mem_nil
  d _ := .inl (h.file? _ List.not_mem_nil)
  js _ := .inl (h.file? _ List.not_mem_nil)

/-- The second artifact could not be put in place. -/
theorem untorn_of_replaced (ha : artifactsIn? t o = some a) (hd : Replaced o.dPath a.d t t₁)
    (hjs : t₁.Agree t' []) : Untorn o t t' where
  others l hl _ := (hjs.file? l List.not_mem_nil).trans (hd.agree.file? l (by simpa using hl))
  d _ := .inr ⟨a, ha, (hjs.file? _ List.not_mem_nil).trans hd.content⟩
  js hne := .inl ((hjs.file? _ List.not_mem_nil).trans
    (hd.agree.file? _ (by simpa using hne.symm)))

theorem untorn_of_replaced_replaced (ha : artifactsIn? t o = some a)
    (hd : Replaced o.dPath a.d t t₁) (hjs : Replaced o.jsPath a.js t₁ t') :
    Untorn o t t' ∧ Complete o t t' := by
  obtain ⟨hagree, hcontent⟩ := hjs
  rw [hd.agree.location] at hagree hcontent
  have hd' (hne : t.location o.dPath ≠ t.location o.jsPath) :
      t'.file? (t.location o.dPath) = some a.d.toUTF8 :=
    (hagree.file? _ (by simpa using hne)).trans hd.content
  refine ⟨⟨fun l hl hl' => ?_, fun hne => .inr ⟨a, ha, hd' hne⟩, fun _ => .inr ⟨a, ha, hcontent⟩⟩,
    a, ha, hcontent, hd'⟩
  exact (hagree.file? l (by simpa using hl')).trans (hd.agree.file? l (by simpa using hl))

theorem leaves_codegen (o : CodegenOptions) :
    (codegen o).Leaves (Untorn o) fun t _ t' => Untorn o t t' ∧ Complete o t t' := by
  refine (leaves_renderFirst o).bind (fun a => leaves_writeArtifact o.jsPath a.js) ?_ ?_ ?_
  · exact fun _ _ => untorn_of_agree
  · exact fun _ _ _ _ h hjs => untorn_of_replaced h.1 h.2 hjs
  · exact fun _ _ _ _ _ h hjs => untorn_of_replaced_replaced h.1 h.2 hjs

/-- What a run of the program may do to the files, by what its command line asks for and its exit
status. Where help is asked for or the arguments are refused, no command is run. -/
def Effect (c : CommandLine) (t : FileTree) (status : Nat) (t' : FileTree) : Prop :=
  match c with
  | .run (.codegen o) => Untorn o t t' ∧ (status = 0 → Complete o t t')
  | .run (.analyze _) => ∀ l, t'.file? l = t.file? l
  | .help _ => (∀ l, t'.file? l = t.file? l) ∧ status = 0
  | .invalid _ => (∀ l, t'.file? l = t.file? l) ∧ status = 2

section Program

variable {h : Host} {args : List String} {invocation : Invocation} {parser : ArgumentParser}

theorem Invocation.ofArguments?_eq_some :
    Invocation.ofArguments? args = some invocation ↔
      CommandLine.ofArguments args = .run invocation := by
  unfold Invocation.ofArguments?
  cases CommandLine.ofArguments args <;> simp [CommandLine.invocation?]

/-- The end of every run: a request that leaves the files alone, and the exit status. -/
theorem runFrom_ask {r : Request} (hr : ∀ t n, (FileTree.answer t h n r).1 = t) (s : Session)
    (status : Nat) :
    ((do let _ ← Script.ask r; return status : Script Nat).runFrom h s).tree = s.tree ∧
      ((do let _ ← Script.ask r; return status : Script Nat).runFrom h s).result = status := by
  rw [Script.runFrom_bind]
  exact ⟨(Script.tree_ask r).trans (hr s.tree s.requests), rfl⟩

/-- The program does what its command does, and tells of a failure. -/
theorem runIn_program (hargs : parser args = .run invocation) :
    ((program args parser).runIn h t).tree = (invocation.work.run.runIn h t).tree ∧
      ((program args parser).runIn h t).result =
        exitCode (invocation.work.run.runIn h t).result := by
  rw [program, hargs, CommandLine.script, Script.runIn, Script.runFrom_bind]
  exact runFrom_ask (fun t n => answer_printError h t n _) _ _

/-- **Effect on files.** Whatever a host refuses: a run of `codegen` leaves each of its two files as
it was or whole, and puts both in place before it succeeds; no other file, not even a temporary one,
is added, changed or removed. This holds for any way to parse the arguments. -/
theorem effect_program (parser : ArgumentParser) (h : Host) (args : List String) (t : FileTree) :
    Effect (parser args) t ((program args parser).runIn h t).result
      ((program args parser).runIn h t).tree := by
  cases hargs : parser args with
  | run invocation =>
    obtain ⟨htree, hstatus⟩ := runIn_program (h := h) (t := t) hargs
    rw [htree, hstatus]
    cases invocation with
    | codegen o =>
      cases hr : ((codegen o).run.runIn h t).result with
      | ok u =>
        obtain ⟨huntorn, hcomplete⟩ := (leaves_codegen o).of_ok hr
        exact ⟨huntorn, fun _ => hcomplete⟩
      | error e =>
        refine ⟨(leaves_codegen o).of_error hr, fun hzero => ?_⟩
        rw [Invocation.work, hr] at hzero
        cases hzero
    | analyze o =>
      intro l
      cases hr : ((analyze o).run.runIn h t).result with
      | ok u => exact congrArg (·.file? l) ((finds_analyze o).of_ok hr).1
      | error e => exact congrArg (·.file? l) ((finds_analyze o).of_error hr)
  | help text =>
    rw [program, hargs]
    obtain ⟨htree, hstatus⟩ := runFrom_ask (fun t n => answer_print h t n text) { tree := t } 0
    exact ⟨fun l => congrArg (·.file? l) htree, hstatus⟩
  | invalid report =>
    rw [program, hargs]
    obtain ⟨htree, hstatus⟩ :=
      runFrom_ask (fun t n => answer_printError h t n report) { tree := t } 2
    exact ⟨fun l => congrArg (·.file? l) htree, hstatus⟩

/-- A schema alone in its directory. -/
def schemaOnly : FileTree :=
  .ofEntries [("s.yaml", some "".toUTF8)]

/-- A run that succeeds has put both artifacts in place. A request for help succeeds as well, and
leaves the directory as it was. -/
theorem effect_program_schemaOnly :
    ((program ["codegen", "-f", "s.yaml"]).runIn {} schemaOnly).result = 0 ∧
      (∃ a, artifactsIn? schemaOnly ⟨some "s.yaml", ".", none, none, 8, false⟩ = some a ∧
        ((program ["codegen", "-f", "s.yaml"]).runIn {} schemaOnly).tree.file?
          ["work", "layout.d"] = some a.d.toUTF8 ∧
        ((program ["codegen", "-f", "s.yaml"]).runIn {} schemaOnly).tree.file?
          ["work", "layout.js"] = some a.js.toUTF8) ∧
      ((program ["codegen", "--help"]).runIn {} schemaOnly).result = 0 ∧
      ∀ l, ((program ["codegen", "--help"]).runIn {} schemaOnly).tree.file? l =
        schemaOnly.file? l := by
  have hexit : ((program ["codegen", "-f", "s.yaml"]).runIn {} schemaOnly).result = 0 := by
    decide +kernel
  have hd : schemaOnly.location (CodegenOptions.dPath ⟨some "s.yaml", ".", none, none, 8, false⟩) =
      ["work", "layout.d"] := by decide +kernel
  have hjs :
      schemaOnly.location (CodegenOptions.jsPath ⟨some "s.yaml", ".", none, none, 8, false⟩) =
        ["work", "layout.js"] := by decide +kernel
  have hargs : CommandLine.ofArguments ["codegen", "-f", "s.yaml"] =
      .run (.codegen ⟨some "s.yaml", ".", none, none, 8, false⟩) := by decide +kernel
  have hrun := effect_program CommandLine.ofArguments {} ["codegen", "-f", "s.yaml"] schemaOnly
  rw [hargs] at hrun
  obtain ⟨a, ha, hjsText, hdText⟩ := hrun.2 hexit
  rw [hd, hjs] at hdText
  rw [hjs] at hjsText
  have hhelp := effect_program CommandLine.ofArguments {} ["codegen", "--help"] schemaOnly
  have hasked : CommandLine.ofArguments ["codegen", "--help"] =
      .help (Help.ofCommand "codegen" codegenSpecs) := by decide +kernel
  rw [hasked] at hhelp
  exact ⟨hexit, ⟨a, ha, hdText (by decide), hjsText⟩, hhelp.2, hhelp.1⟩

/-! ## Failed runs -/

theorem Replaced.forall_file?_eq_iff {path content : String} (h : Replaced path content t t') :
    (∀ l, t'.file? l = t.file? l) ↔ t.file? (t.location path) = some content.toUTF8 := by
  constructor
  · intro hsame
    rw [← hsame, h.content]
  · intro hcontent l
    by_cases hl : l = t.location path
    · rw [hl, h.content, hcontent]
    · exact h.agree.file? l (by simpa using hl)

theorem exists_eq_error_of_exitCode {r : Except Failure Unit} (h : exitCode r ≠ 0) :
    ∃ e, r = .error e := by
  cases r with
  | ok u => exact absurd rfl h
  | error e => exact ⟨e, rfl⟩

/-- A run of `codegen` that fails leaves the files as they were if and only if it failed before the
first artifact was in place, or that artifact was there before. -/
theorem unchanged_iff_of_exit (hargs : Invocation.ofArguments? args = some (.codegen o))
    (hexit : ((program args).runIn h t).result ≠ 0) :
    (∀ l, ((program args).runIn h t).tree.file? l = t.file? l) ↔
      ∀ a, ((renderFirst o).run.runIn h t).result = .ok a →
        t.file? (t.location o.dPath) = some a.d.toUTF8 := by
  obtain ⟨htree, hstatus⟩ :=
    runIn_program (h := h) (t := t) (Invocation.ofArguments?_eq_some.mp hargs)
  rw [htree]
  rw [hstatus] at hexit
  simp only [Invocation.work, codegen, Script.runIn] at hexit ⊢
  cases hr : ((renderFirst o).run.runFrom h { tree := t }).result with
  | error e =>
    have hagree : t.Agree _ [] := (leaves_renderFirst o).of_error hr
    rw [runFrom_bind_of_error hr]
    exact ⟨fun _ => nofun, fun _ l => hagree.file? l List.not_mem_nil⟩
  | ok a =>
    obtain ⟨-, hd⟩ := (leaves_renderFirst o).of_ok hr
    rw [runFrom_bind_of_ok hr] at hexit ⊢
    obtain ⟨e, he⟩ := exists_eq_error_of_exitCode hexit
    have hjs : FileTree.Agree _ _ [] := (leaves_writeArtifact o.jsPath a.js).of_error he
    simp only [hjs.file? _ List.not_mem_nil, hd.forall_file?_eq_iff, Except.ok.injEq,
      forall_eq']

end Program

/-- An empty schema, and a directory where the second artifact is to be. -/
def obstructed : FileTree :=
  .ofEntries [("s.yaml", some "".toUTF8), ("layout.js", none)]

/-- A host that refuses nothing, and a run that fails all the same. -/
theorem unchanged_iff_obstructed :
    Invocation.ofArguments? ["codegen", "-f", "s.yaml"] =
        some (.codegen ⟨some "s.yaml", ".", none, none, 8, false⟩) ∧
      ((program ["codegen", "-f", "s.yaml"]).runIn {} obstructed).result ≠ 0 ∧
      ((∀ l, ((program ["codegen", "-f", "s.yaml"]).runIn {} obstructed).tree.file? l =
          obstructed.file? l) ↔
        ∀ a, ((renderFirst ⟨some "s.yaml", ".", none, none, 8, false⟩).run.runIn {}
            obstructed).result = .ok a →
          obstructed.file? (obstructed.location "./layout.d") = some a.d.toUTF8) := by
  have hargs : Invocation.ofArguments? ["codegen", "-f", "s.yaml"] =
      some (.codegen ⟨some "s.yaml", ".", none, none, 8, false⟩) := by decide +kernel
  have hexit : ((program ["codegen", "-f", "s.yaml"]).runIn {} obstructed).result ≠ 0 := by
    decide +kernel
  have hpath : CodegenOptions.dPath ⟨some "s.yaml", ".", none, none, 8, false⟩ = "./layout.d" := by
    decide +kernel
  have hiff := unchanged_iff_of_exit hargs hexit
  rw [hpath] at hiff
  exact ⟨hargs, hexit, hiff⟩

/-- The run fails, and yet it has put the first artifact where no file was. -/
theorem not_unchanged_obstructed :
    ¬ ∀ (h : Host) (t : FileTree) (args : List String) (o : CodegenOptions),
      Invocation.ofArguments? args = some (.codegen o) →
      ((program args).runIn h t).result ≠ 0 →
      ∀ l, ((program args).runIn h t).tree.file? l = t.file? l := by
  intro hunchanged
  have hsame := hunchanged {} obstructed ["codegen", "-f", "s.yaml"]
    ⟨some "s.yaml", ".", none, none, 8, false⟩ (by decide +kernel) (by decide +kernel)
    ["work", "layout.d"]
  have hbefore : obstructed.file? ["work", "layout.d"] = none := by decide +kernel
  have hafter : (((program ["codegen", "-f", "s.yaml"]).runIn {} obstructed).tree.file?
      ["work", "layout.d"]).isSome := by
    decide +kernel
  rw [hsame, hbefore] at hafter
  cases hafter

end HeapLayout.Command
