import HeapLayout.Command
import HeapLayout.Proofs.Validity

/-!
# Replacing files

A file is replaced through a temporary one, in four requests each of which the host may refuse. What
is left of it is known all the same (`leaves_replace`): either the replacement fails, and no regular
file is other than before, or it succeeds, and only the file at the path is, which now holds the
new content. The temporary file is gone in both cases.

Statements about scripts relate the file tree before to the one after, for a failure and for a
success, and hold for every host (`Work.Leaves`). There is one for each request, and they are put
together along the script.
-/

namespace HeapLayout

open Schema (bind_eq_ok pure_eq_ok)

/-! ## Files at locations -/

namespace FileTree

variable {t t' t'' : FileTree} {l l' : Location} {path file target : String} {content : ByteArray}

@[simp] theorem workingDirectory_put : (t.put l content).workingDirectory = t.workingDirectory :=
  rfl

theorem location_congr (h : t'.workingDirectory = t.workingDirectory) (path : String) :
    t'.location path = t.location path := by
  rw [location, location, start, start, h]

theorem lookup_filter_ne (files : List (Location × ByteArray)) (h : l' ≠ l) :
    (files.filter (·.1 != l)).lookup l' = files.lookup l' := by
  induction files with
  | nil => rfl
  | cons f fs ih =>
    obtain ⟨k, content⟩ := f
    by_cases hk : k = l
    · have hne : (l' == k) = false := by simp [hk, h]
      rw [List.filter_cons_of_neg (by simp [hk]), List.lookup_cons, hne, ih]
    · rw [List.filter_cons_of_pos (by simp [hk]), List.lookup_cons, List.lookup_cons, ih]

theorem lookup_filter_self (files : List (Location × ByteArray)) :
    (files.filter (·.1 != l)).lookup l = none := by
  rw [List.lookup_eq_none_iff]
  intro f hf
  have hne : f.1 ≠ l := by simpa using (List.mem_filter.mp hf).2
  simpa using hne.symm

@[simp] theorem file?_remove_self : (t.remove l).file? l = none :=
  lookup_filter_self t.files

theorem file?_remove_of_ne (h : l' ≠ l) : (t.remove l).file? l' = t.file? l' :=
  lookup_filter_ne t.files h

@[simp] theorem file?_put_self : (t.put l content).file? l = some content := by
  have hnone : (t.remove l).files.lookup l = none := file?_remove_self
  simp [file?, put, List.lookup_append, hnone]

theorem file?_put_of_ne (h : l' ≠ l) : (t.put l content).file? l' = t.file? l' := by
  have hkeep : (t.remove l).files.lookup l' = t.file? l' := file?_remove_of_ne h
  have hne : (l' == l) = false := by simp [h]
  simp [file?, put, List.lookup_append, hkeep, List.lookup_cons, hne]

/-- The regular files are the same, except perhaps at some locations. -/
structure Agree (t t' : FileTree) (except : List Location) : Prop where
  workingDirectory : t'.workingDirectory = t.workingDirectory
  file? : ∀ l ∉ except, t'.file? l = t.file? l

namespace Agree

variable {xs ys : List Location}

theorem refl (t : FileTree) : Agree t t [] :=
  ⟨rfl, fun _ _ => rfl⟩

theorem trans (h : Agree t t' xs) (h' : Agree t' t'' xs) : Agree t t'' xs :=
  ⟨h'.workingDirectory.trans h.workingDirectory, fun l hl => (h'.file? l hl).trans (h.file? l hl)⟩

theorem mono (h : Agree t t' xs) (hsub : xs ⊆ ys) : Agree t t' ys :=
  ⟨h.workingDirectory, fun l hl => h.file? l fun hx => hl (hsub hx)⟩

theorem location (h : Agree t t' xs) (path : String) : t'.location path = t.location path :=
  location_congr h.workingDirectory path

/-- An exception that is no exception can be left out. -/
theorem of_file?_eq (h : Agree t t' (l :: xs)) (hl : t'.file? l = t.file? l) : Agree t t' xs := by
  refine ⟨h.workingDirectory, fun l' hl' => ?_⟩
  by_cases heq : l' = l
  · exact heq ▸ hl
  · exact h.file? l' (by simp [heq, hl'])

end Agree

theorem agree_put : Agree t (t.put l content) [l] :=
  ⟨rfl, fun _ h => file?_put_of_ne (List.ne_of_not_mem_cons h)⟩

theorem agree_remove : Agree t (t.remove l) [l] :=
  ⟨rfl, fun _ h => file?_remove_of_ne (List.ne_of_not_mem_cons h)⟩

/-! ## Operations on file trees -/

theorem eq_of_enter {name : String} (h : enter l name = .ok l') : l' = l.enter name := by
  unfold enter at h
  split at h
  · cases h
  · cases h
    rfl

theorem eq_of_walk {names : List String} (h : t.walk l names = .ok l') :
    l' = names.foldl Location.enter l := by
  induction names generalizing l with
  | nil =>
    cases h
    rfl
  | cons name names ih =>
    obtain ⟨-, -, h⟩ := bind_eq_ok.mp h
    obtain ⟨l₁, hl₁, h⟩ := bind_eq_ok.mp h
    rw [ih h, eq_of_enter hl₁, List.foldl_cons]

/-- A path that can be resolved leads where its text says. -/
theorem eq_location_of_resolve (h : t.resolve path = .ok l) : l = t.location path := by
  obtain ⟨-, -, h⟩ := bind_eq_ok.mp h
  obtain ⟨l₁, hl₁, h⟩ := bind_eq_ok.mp h
  obtain ⟨-, -, h⟩ := bind_eq_ok.mp h
  rw [← pure_eq_ok.mp h, eq_of_walk hl₁, location]

theorem eq_location_of_resolveTarget (h : t.resolveTarget path = .ok l) : l = t.location path := by
  obtain ⟨-, -, h⟩ := bind_eq_ok.mp h
  obtain ⟨dir, hdir, h⟩ := bind_eq_ok.mp h
  obtain ⟨-, -, h⟩ := bind_eq_ok.mp h
  split at h
  · cases h
  · next name hlast =>
    split at h
    · cases h
    · rw [eq_of_enter h, eq_of_walk hdir, location,
        ← List.dropLast_append_getLast? name (Option.mem_def.mpr hlast), List.foldl_append]
      simp

theorem file?_of_entry (h : t.entry l = .file content) : t.file? l = some content := by
  unfold entry at h
  split at h
  · next c hc =>
    cases h
    exact hc
  · split at h <;> cases h

theorem file?_of_entry_missing (h : t.entry l = .missing) : t.file? l = none := by
  unfold entry at h
  split at h
  · cases h
  · assumption

theorem file?_of_read (h : t.read path = .ok content) :
    t.file? (t.location path) = some content := by
  obtain ⟨l, hl, h⟩ := bind_eq_ok.mp h
  cases eq_location_of_resolve hl
  split at h
  · next c hc =>
    cases pure_eq_ok.mp h
    exact file?_of_entry hc
  · cases h
  · cases h

theorem agree_makeFrom {made : Bool} {names : List String} :
    Agree t (t.makeFrom made l names).1 [] := by
  induction names generalizing t made l with
  | nil => exact .refl t
  | cons name names ih =>
    unfold makeFrom
    split
    · exact .refl t
    · split
      · exact ih
      -- Making a directory leaves the files as they are.
      · exact ⟨(ih (t := t.addDirectory _)).workingDirectory, ih.file?⟩
      · exact .refl t

theorem agree_makeDirectories : Agree t (t.makeDirectories path).1 [] := by
  unfold makeDirectories
  split
  · exact .refl t
  · exact agree_makeFrom

theorem create_eq_ok (h : t.create path = .ok t') :
    t.file? (t.location path) = none ∧ t' = t.put (t.location path) .empty := by
  obtain ⟨l, hl, h⟩ := bind_eq_ok.mp h
  cases eq_location_of_resolve hl
  split at h
  · next hmissing =>
    cases pure_eq_ok.mp h
    exact ⟨file?_of_entry_missing hmissing, rfl⟩
  · cases h

theorem createTemporary_eq_ok {dir : String} {names : List String}
    (h : t.createTemporary dir names = .ok (file, t')) :
    t.file? (t.location file) = none ∧ t' = t.put (t.location file) .empty := by
  induction names with
  | nil => cases h
  | cons name names ih =>
    unfold createTemporary at h
    split at h
    · next hcreate =>
      cases h
      exact create_eq_ok hcreate
    · exact ih h
    · cases h

/-- A file that can be moved is afterwards where the path of its target says. -/
theorem rename_eq_ok (h : t.rename file target = .ok t') :
    ∃ content, t.file? (t.location file) = some content ∧
      t' = (t.remove (t.location file)).put (t.location target) content := by
  obtain ⟨content, hread, h⟩ := bind_eq_ok.mp h
  obtain ⟨l, hl, h⟩ := bind_eq_ok.mp h
  obtain ⟨-, -, h⟩ := bind_eq_ok.mp h
  rw [← eq_location_of_resolveTarget hl]
  exact ⟨content, file?_of_read hread, (pure_eq_ok.mp h).symm⟩

end FileTree

/-! ## Runs -/

namespace Script

variable {α β ε : Type} {h : Host} {s : Session}

theorem runFrom_bind (x : Script α) (f : α → Script β) :
    (x >>= f).runFrom h s = (f (x.runFrom h s).result).runFrom h (x.runFrom h s).toSession := by
  induction x generalizing s with
  | pure a => rfl
  | request r rest ih => exact ih _

theorem tree_ask (r : Request) :
    ((ask r).runFrom h s).tree = (s.tree.answer h s.requests r).1 := by
  cases r <;> rfl

theorem result_ask (r : Request) :
    ((ask r).runFrom h s).result = (s.tree.answer h s.requests r).2 := by
  cases r <;> rfl

/-- Whatever the host does, a failure leaves the tree as `failed` says and a success as `done`
says. -/
def Leaves (x : Script (Except ε α)) (failed : FileTree → FileTree → Prop)
    (done : FileTree → α → FileTree → Prop) : Prop :=
  ∀ h s, match (x.runFrom h s).result with
    | .ok a => done s.tree a (x.runFrom h s).tree
    | .error _ => failed s.tree (x.runFrom h s).tree

variable {x : Script (Except ε α)} {failed failed' : FileTree → FileTree → Prop}
  {done done' : FileTree → α → FileTree → Prop}

theorem Leaves.of_ok (hx : x.Leaves failed done) {a : α} (ha : (x.runFrom h s).result = .ok a) :
    done s.tree a (x.runFrom h s).tree := by
  have := hx h s
  rwa [ha] at this

theorem Leaves.of_error (hx : x.Leaves failed done) {e : ε}
    (he : (x.runFrom h s).result = .error e) : failed s.tree (x.runFrom h s).tree := by
  have := hx h s
  rwa [he] at this

theorem leaves_iff : x.Leaves failed done ↔ ∀ h s,
    (∀ a, (x.runFrom h s).result = .ok a → done s.tree a (x.runFrom h s).tree) ∧
      ∀ e, (x.runFrom h s).result = .error e → failed s.tree (x.runFrom h s).tree := by
  constructor
  · intro hx h s
    exact ⟨fun a ha => hx.of_ok ha, fun e he => hx.of_error he⟩
  · intro hx h s
    split
    · next ha => exact (hx h s).1 _ ha
    · next he => exact (hx h s).2 _ he

theorem Leaves.mono (hx : x.Leaves failed done) (hfailed : ∀ t t', failed t t' → failed' t t')
    (hdone : ∀ t a t', done t a t' → done' t a t') : x.Leaves failed' done' :=
  leaves_iff.mpr fun _ _ =>
    ⟨fun _ ha => hdone _ _ _ (hx.of_ok ha), fun _ he => hfailed _ _ (hx.of_error he)⟩

end Script

namespace Command

variable {α β : Type}

abbrev Work.Leaves (x : Work α) (failed : FileTree → FileTree → Prop)
    (done : FileTree → α → FileTree → Prop) : Prop :=
  x.run.Leaves failed done

namespace Work

variable {x : Work α} {f : α → Work β} {failed failed' : FileTree → FileTree → Prop}
  {done : FileTree → α → FileTree → Prop}

theorem leaves_pure (a : α) : (pure a : Work α).Leaves (fun _ _ => False)
    fun t b t' => b = a ∧ t' = t :=
  fun _ _ => ⟨rfl, rfl⟩

theorem leaves_throw (e : Failure) : (throw e : Work α).Leaves (fun t t' => t' = t)
    fun _ _ _ => False :=
  fun _ _ => rfl

theorem runFrom_bind_of_ok {h : Host} {s : Session} {a : α}
    (hx : (x.run.runFrom h s).result = .ok a) :
    (x >>= f).run.runFrom h s = (f a).run.runFrom h (x.run.runFrom h s).toSession := by
  rw [ExceptT.run_bind, Script.runFrom_bind, hx]

theorem runFrom_bind_of_error {h : Host} {s : Session} {e : Failure}
    (hx : (x.run.runFrom h s).result = .error e) :
    (x >>= f).run.runFrom h s =
      { (x.run.runFrom h s).toSession with result := .error e } := by
  rw [ExceptT.run_bind, Script.runFrom_bind, hx]
  rfl

/-- A sequence fails in its first part, or its second part goes on from there. -/
theorem Leaves.bind {failedNext : α → FileTree → FileTree → Prop}
    {doneNext : α → FileTree → β → FileTree → Prop} {done' : FileTree → β → FileTree → Prop}
    (hx : x.Leaves failed done) (hf : ∀ a, (f a).Leaves (failedNext a) (doneNext a))
    (hfirst : ∀ t t', failed t t' → failed' t t')
    (hnext : ∀ t a t₁ t', done t a t₁ → failedNext a t₁ t' → failed' t t')
    (hdone : ∀ t a t₁ b t', done t a t₁ → doneNext a t₁ b t' → done' t b t') :
    (x >>= f).Leaves failed' done' := by
  refine Script.leaves_iff.mpr fun h s => ?_
  cases hr : (x.run.runFrom h s).result with
  | ok a =>
    rw [runFrom_bind_of_ok hr]
    have ha := hx.of_ok hr
    exact ⟨fun b hb => hdone _ _ _ _ _ ha ((hf a).of_ok hb),
      fun e he => hnext _ _ _ _ ha ((hf a).of_error he)⟩
  | error e =>
    rw [runFrom_bind_of_error hr]
    refine ⟨fun b hb => ?_, fun _ _ => hfirst _ _ (hx.of_error hr)⟩
    cases hb

/-- A failure is handled in the tree that it left. -/
theorem Leaves.tryCatch {handle : Failure → Work α} {failedNext : FileTree → FileTree → Prop}
    (hx : x.Leaves failed done) (hhandle : ∀ e, (handle e).Leaves failedNext fun _ _ _ => False)
    (hnext : ∀ t t₁ t', failed t t₁ → failedNext t₁ t' → failed' t t') :
    (tryCatch x handle).Leaves failed' done := by
  refine Script.leaves_iff.mpr fun h s => ?_
  rw [ExceptT.run_tryCatch, Script.runFrom_bind]
  cases hr : (x.run.runFrom h s).result with
  | ok a =>
    refine ⟨fun b hb => ?_, fun e he => ?_⟩
    · cases hb
      exact hx.of_ok hr
    · cases he
  | error e =>
    exact ⟨fun b hb => ((hhandle e).of_ok hb).elim,
      fun _ he => hnext _ _ _ (hx.of_error hr) ((hhandle e).of_error he)⟩

theorem leaves_attempt {ε : Type} {failure : ε → Failure} {request : Script (Except ε α)}
    (hrequest : request.Leaves failed done) : (attempt failure request).Leaves failed done := by
  refine Script.leaves_iff.mpr fun h s => ?_
  have hrun : (attempt failure request).run = request >>= fun a => pure (a.mapError failure) := rfl
  rw [hrun, Script.runFrom_bind]
  cases hr : (request.runFrom h s).result with
  | ok a =>
    refine ⟨fun b hb => ?_, fun e he => ?_⟩
    · cases hb
      exact hrequest.of_ok hr
    · cases he
  | error e =>
    refine ⟨fun b hb => ?_, fun _ _ => hrequest.of_error hr⟩
    cases hb

/-! ## Requests -/

theorem leaves_makeDirectories (path : String) :
    (Script.ask (.makeDirectories path)).Leaves (fun t t' => t.Agree t' [])
      fun t _ t' => t.Agree t' [] := by
  refine Script.leaves_iff.mpr fun h s => ?_
  rw [Script.tree_ask, FileTree.answer]
  split
  · exact ⟨fun _ _ => FileTree.agree_makeFrom, fun _ _ => FileTree.agree_makeFrom⟩
  · exact ⟨fun _ _ => FileTree.agree_makeDirectories, fun _ _ => FileTree.agree_makeDirectories⟩

theorem leaves_createTemporary (directory : String) :
    (Script.ask (.createTemporary directory)).Leaves (fun t t' => t' = t) fun t file t' =>
      t.file? (t.location file) = none ∧ t' = t.put (t.location file) .empty := by
  refine Script.leaves_iff.mpr fun h s => ?_
  rw [Script.tree_ask, Script.result_ask, FileTree.answer]
  split
  · simp [FileTree.refuse]
  · simp only [FileTree.grant]
    split
    · next hcreate => simpa using FileTree.createTemporary_eq_ok hcreate
    · simp

theorem leaves_write (file content : String) :
    (Script.ask (.write file content)).Leaves
      (fun t t' => ∃ part, t' = t.put (t.location file) part)
      fun t _ t' => t' = t.put (t.location file) content.toUTF8 := by
  refine Script.leaves_iff.mpr fun h s => ?_
  rw [Script.tree_ask, Script.result_ask, FileTree.answer]
  split
  · simp only [FileTree.refuse]
    exact ⟨by simp, fun _ _ => ⟨_, rfl⟩⟩
  · simp [FileTree.grant]

theorem leaves_flush (file : String) :
    (Script.ask (.flush file)).Leaves (fun t t' => t' = t) fun t _ t' => t' = t := by
  refine Script.leaves_iff.mpr fun h s => ?_
  rw [Script.tree_ask, FileTree.answer]
  split <;> exact ⟨fun _ _ => rfl, fun _ _ => rfl⟩

theorem leaves_rename (file target : String) :
    (Script.ask (.rename file target)).Leaves (fun t t' => t' = t) fun t _ t' =>
      ∃ content, t.file? (t.location file) = some content ∧
        t' = (t.remove (t.location file)).put (t.location target) content := by
  refine Script.leaves_iff.mpr fun h s => ?_
  rw [Script.tree_ask, Script.result_ask, FileTree.answer]
  split
  · simp [FileTree.refuse]
  · simp only [FileTree.grant]
    split
    · next hrename => simpa using FileTree.rename_eq_ok hrename
    · simp

theorem leaves_discard (file : String) :
    (ask (.discard file)).Leaves (fun _ _ => False)
      fun t _ t' => t' = t.remove (t.location file) := by
  refine Script.leaves_iff.mpr fun h s => ?_
  have hrun : (ask (.discard file)).run = Script.ask (.discard file) >>= fun a => pure (.ok a) :=
    rfl
  rw [hrun, Script.runFrom_bind]
  refine ⟨fun _ _ => ?_, fun _ he => ?_⟩
  · change ((Script.ask (.discard file)).runFrom h s).tree = _
    rw [Script.tree_ask, FileTree.answer]
    split <;> rfl
  · cases he

end Work

/-! ## Replacing a file -/

open FileTree

/-- The file at a path holds a text, and no other file has changed. -/
structure Replaced (path content : String) (t t' : FileTree) : Prop where
  agree : t.Agree t' [t.location path]
  content : t'.file? (t.location path) = some content.toUTF8

/-- What has been put in place of a path, the temporary file being gone. -/
def moved (t : FileTree) (file path content : String) : FileTree :=
  ((t.put (t.location file) content.toUTF8).remove (t.location file)).put (t.location path)
    content.toUTF8

/-- A temporary file that was not there before leaves no trace. -/
theorem replaced_moved {t : FileTree} {file : String} (path content : String)
    (hfree : t.file? (t.location file) = none) :
    Replaced path content t (moved (t.put (t.location file) .empty) file path content) := by
  have hlocation (path : String) :
      (t.put (t.location file) .empty).location path = t.location path :=
    location_congr workingDirectory_put path
  rw [moved, hlocation, hlocation]
  refine ⟨⟨rfl, fun l hl => ?_⟩, file?_put_self⟩
  rw [file?_put_of_ne (by simpa using hl)]
  by_cases h : l = t.location file
  · rw [h, file?_remove_self, hfree]
  · rw [file?_remove_of_ne h, file?_put_of_ne h, file?_put_of_ne h]

theorem leaves_fill (file path content : String) :
    (fill file path content).Leaves (fun t t' => t.Agree t' [t.location file])
      fun t _ t' => t' = moved t file path content := by
  -- Whatever is still in the temporary file is thrown away, so only its place matters.
  have hflush : (do
      Work.attempt (fun e => .unwritable path (.flush e)) (.ask (.flush file))
      Work.attempt (fun e => .unwritable path (.putInPlace e)) (.ask (.rename file path)) :
        Work Unit).Leaves (fun t t' => t' = t) fun t _ t' =>
          ∃ content, t.file? (t.location file) = some content ∧
            t' = (t.remove (t.location file)).put (t.location path) content := by
    refine (Work.leaves_attempt (Work.leaves_flush file)).bind
      (fun _ => Work.leaves_attempt (Work.leaves_rename file path)) (fun _ _ => id) ?_ ?_
    · rintro t _ _ _ rfl rfl
      rfl
    · rintro t _ _ _ _ rfl h
      exact h
  refine (Work.leaves_attempt (Work.leaves_write file content)).bind (fun _ => hflush) ?_ ?_ ?_
  · rintro t _ ⟨part, rfl⟩
    exact agree_put
  · rintro t _ _ _ rfl rfl
    exact agree_put
  · rintro t _ _ _ _ rfl ⟨written, hwritten, rfl⟩
    rw [location_congr workingDirectory_put, file?_put_self] at hwritten
    cases hwritten
    rw [location_congr workingDirectory_put, location_congr workingDirectory_put, moved]

theorem leaves_fillOrDiscard (file path content : String) :
    (fillOrDiscard file path content).Leaves
      (fun t t' => t.Agree t' [t.location file] ∧ t'.file? (t.location file) = none)
      fun t _ t' => t' = moved t file path content := by
  have hdiscard (e : Failure) : (do
      Work.ask (.discard file)
      throw e : Work Unit).Leaves (fun t t' => t' = t.remove (t.location file))
        fun _ _ _ => False := by
    refine (Work.leaves_discard file).bind (fun _ => Work.leaves_throw e) (fun _ _ => False.elim) ?_
      fun _ _ _ _ _ _ => False.elim
    rintro t _ _ _ rfl rfl
    rfl
  refine (leaves_fill file path content).tryCatch hdiscard ?_
  rintro t t₁ _ hagree rfl
  rw [hagree.location]
  exact ⟨hagree.trans agree_remove, file?_remove_self⟩

/-- Replacing a file leaves all files as they are if it fails, and all others if it succeeds,
whatever the host refuses. -/
theorem leaves_replace (path content : String) :
    (replace path content).Leaves (fun t t' => t.Agree t' [])
      fun t _ t' => Replaced path content t t' := by
  have hprepared : (do
      let file ← Work.attempt
        (fun e => .unwritable path (.createTemporary (stagingDirectory path) e))
        (.ask (.createTemporary (stagingDirectory path)))
      fillOrDiscard file path content : Work Unit).Leaves (fun t t' => t.Agree t' [])
        fun t _ t' => Replaced path content t t' := by
    refine (Work.leaves_attempt (Work.leaves_createTemporary _)).bind
      (fun file => leaves_fillOrDiscard file path content) ?_ ?_ ?_
    · rintro t _ rfl
      exact .refl _
    · rintro t file _ t' ⟨hfree, rfl⟩ ⟨hagree, hgone⟩
      rw [location_congr workingDirectory_put] at hagree hgone
      exact (agree_put.trans hagree).of_file?_eq (hgone.trans hfree.symm)
    · rintro t file _ _ _ ⟨hfree, rfl⟩ rfl
      exact replaced_moved path content hfree
  refine (Work.leaves_attempt (Work.leaves_makeDirectories _)).bind (fun _ => hprepared)
    (fun _ _ => id) (fun _ _ _ _ => Agree.trans) ?_
  rintro t _ t₁ _ t' h ⟨hagree, hcontent⟩
  rw [h.location] at hagree hcontent
  exact ⟨(h.mono (List.nil_subset _)).trans hagree, hcontent⟩

end Command

end HeapLayout
