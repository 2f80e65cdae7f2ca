import HeapLayout.Proofs.Dispatch
import Mathlib.Data.List.Infix
import Mathlib.Data.List.Pairwise

/-!
# Names of declarations

The name of a function is that of its layout followed by an ending, which begins with a word for the
kind of function; the dispatchers are named like functions of a layout `layout`, a name that
validation excludes. Names of layouts and of fields may hold such words themselves. So an accessor
of one layout has the same name as a function of another if the name of the second layout continues
that of the first with the accessor's word, and the field goes on like the function
(`Accessor.Overlaps`).

There is no other way for two declarations to share a name, but this one is not excluded: a schema
is accepted whether its layouts overlap or not (`nodup_names_iff_of_resolve`). Tag constants are
kept apart by validation, and no function is named like one, since endings have small letters.
-/

namespace HeapLayout

theorem Identifier.toNat_lt_of_isRest {c : Char} (h : isRest c = true) : c.toNat < 128 := by
  have hle {d : Char} (hd : d.toNat < 128) (hc : c ≤ d) : c.toNat < 128 :=
    Nat.lt_of_le_of_lt (UInt32.le_iff_toNat_le.mp hc) hd
  simp only [isRest, isStart, isAsciiLetter, isAsciiDigit, Bool.or_eq_true, Bool.and_eq_true,
    decide_eq_true_eq, beq_iff_eq] at h
  rcases h with ((⟨-, hc⟩ | ⟨-, hc⟩) | rfl) | ⟨-, hc⟩
  · exact hle (by decide) hc
  · exact hle (by decide) hc
  · decide
  · exact hle (by decide) hc

theorem Identifier.exists_toList {name : String} (h : isIdentifier name = true) :
    ∃ c cs, name.toList = c :: cs ∧ isStart c = true ∧ ∀ d ∈ cs, isRest d = true := by
  unfold isIdentifier at h
  cases hcs : name.toList with
  | nil => simp [hcs, spells] at h
  | cons c cs =>
    rw [hcs, spells, Bool.and_eq_true, List.all_eq_true] at h
    exact ⟨c, cs, rfl, h⟩

theorem Identifier.isRest_of_mem {name : String} (h : isIdentifier name = true) {c : Char}
    (hc : c ∈ name.toList) : isRest c = true := by
  obtain ⟨d, ds, hds, hstart, hrest⟩ := exists_toList h
  rw [hds] at hc
  rcases List.mem_cons.mp hc with rfl | hc
  · rw [isRest, hstart, Bool.true_or]
  · exact hrest c hc

namespace Code

/-! ## Splitting names -/

theorem append_eq_append_cases {a b c d : String} (h : a ++ b = c ++ d) :
    (∃ r, c = a ++ r ∧ b = r ++ d) ∨ ∃ r, a = c ++ r ∧ d = r ++ b := by
  simp only [← String.toList_inj, String.toList_append] at h ⊢
  rcases List.append_eq_append_iff.mp h with ⟨r, hr⟩ | ⟨r, hr⟩
  · exact .inl ⟨String.ofList r, by simpa using hr⟩
  · exact .inr ⟨String.ofList r, by simpa using hr⟩

namespace FunctionKind

/-- The name in front of the ending. -/
def owner (k : FunctionKind) : String :=
  k.layout?.getD "layout"

def ending : FunctionKind → String
  | offset _ f => "_ofs" ++ ("_" ++ f)
  | get _ f => "_get" ++ ("_" ++ f)
  | set _ f => "_set" ++ ("_" ++ f)
  | compSize _ => "_comp_size"
  | sizeof _ | dispatchSizeof => "_sizeof"
  | alloc _ => "_alloc"
  | visitGc _ | dispatchVisitGc => "_visit_gc"

theorem name_eq (k : FunctionKind) : k.name = k.owner ++ k.ending := by
  cases k <;> simp [name, owner, layout?, ending, Name.offset, Name.getter, Name.setter,
    Name.compSize, Name.sizeof, Name.alloc, Name.visitGc, Name.dispatchSizeof,
    Name.dispatchVisitGc, ← String.toList_inj]

/-- The words of the functions of a field. -/
def accessWords : List String :=
  ["_ofs", "_get", "_set"]

/-- The endings of the functions of a whole layout. -/
def wholeEndings : List String :=
  ["_comp_size", "_sizeof", "_alloc", "_visit_gc"]

theorem ending_cases (k : FunctionKind) :
    (∃ word ∈ accessWords, ∃ f, k.ending = word ++ ("_" ++ f)) ∨ k.ending ∈ wholeEndings := by
  cases k with
  | offset _ f => exact .inl ⟨"_ofs", by decide, f, rfl⟩
  | get _ f => exact .inl ⟨"_get", by decide, f, rfl⟩
  | set _ f => exact .inl ⟨"_set", by decide, f, rfl⟩
  | _ => exact .inr (by simp [ending, wholeEndings])

/-- An ending begins with an underscore and a small letter. -/
theorem exists_toList_ending (k : FunctionKind) :
    ∃ c cs, k.ending.toList = '_' :: c :: cs ∧ c.isLower = true := by
  cases k <;> simp [ending]

theorem exists_toList_of_ending_eq {k : FunctionKind} {r t : String} (hr : r ≠ "")
    (h : k.ending = r ++ t) : ∃ cs, r.toList = '_' :: cs := by
  obtain ⟨c, cs, hcs, -⟩ := exists_toList_ending k
  obtain ⟨d, ds, hds⟩ := List.exists_cons_of_ne_nil (mt String.toList_eq_nil_iff.mp hr)
  rw [h, String.toList_append, hds] at hcs
  exact ⟨ds, by rw [hds, (List.cons_eq_cons.mp hcs).1]⟩

theorem exists_prefix_ending (k : FunctionKind) :
    ∃ word ∈ accessWords ++ wholeEndings, word.toList <+: k.ending.toList := by
  rcases ending_cases k with ⟨word, hword, f, hf⟩ | hwhole
  · refine ⟨word, List.mem_append_left _ hword, ?_⟩
    rw [hf, String.toList_append]
    exact List.prefix_append _ _
  · exact ⟨k.ending, List.mem_append_right _ hwhole, List.prefix_rfl⟩

/-- No ending of a whole layout's function has another ending inside. -/
theorem eq_empty_of_wholeEnding {k : FunctionKind} {e r : String} (he : e ∈ wholeEndings)
    (h : e = r ++ k.ending) : r = "" := by
  have htails : ∀ e ∈ wholeEndings, ∀ t ∈ e.toList.tails,
      (∃ word ∈ accessWords ++ wholeEndings, word.toList <+: t) → t = e.toList := by decide
  have hsplit : e.toList = r.toList ++ k.ending.toList := by rw [h, String.toList_append]
  have hmem : k.ending.toList ∈ e.toList.tails := (List.mem_tails _ _).mpr ⟨r.toList, hsplit.symm⟩
  rw [htails e he _ hmem (exists_prefix_ending k), List.self_eq_append_left] at hsplit
  exact String.toList_eq_nil_iff.mp hsplit

/-- An ending inside that of an accessor begins behind the accessor's word. -/
theorem exists_eq_append_of_accessWord {k : FunctionKind} {word f r : String}
    (hword : word ∈ accessWords) (hr : r ≠ "") (h : word ++ ("_" ++ f) = r ++ k.ending) :
    ∃ s, r = word ++ s ∧ "_" ++ f = s ++ k.ending := by
  rcases append_eq_append_cases h with hsplit | ⟨t, ht, hending⟩
  · exact hsplit
  by_cases hempty : t = ""
  · subst hempty
    refine ⟨"", ?_, ?_⟩
    · rw [ht, String.append_empty, String.append_empty]
    · rw [hending, String.empty_append, String.empty_append]
  -- Otherwise the word would have an underscore behind its first character.
  · have htails : ∀ word ∈ accessWords, ∀ t ∈ word.toList.tails, t.head? = some '_' →
        t = word.toList := by decide
    have hmem : t.toList ∈ word.toList.tails :=
      (List.mem_tails _ _).mpr ⟨r.toList, by rw [ht, String.toList_append]⟩
    have hhead : t.toList.head? = some '_' := by
      obtain ⟨cs, hcs⟩ := exists_toList_of_ending_eq hempty hending
      rw [hcs, List.head?_cons]
    have heq := congrArg String.toList ht
    rw [String.toList_append, htails word hword _ hmem hhead, List.self_eq_append_left] at heq
    exact absurd (String.toList_eq_nil_iff.mp heq) hr

end FunctionKind

namespace Accessor

open HeapLayout (Layout Field PointerWidth LayoutDef)
open FunctionKind
open Schema (bind_eq_ok pure_eq_ok)

variable {w : PointerWidth} {a b l : Layout} {ls : List Layout} {k k' : FunctionKind}
  {decls : List Decl}

/-! ## Two layouts -/

/-- The name of `b` continues that of `a` with the word of an accessor, and a field of `a` goes on
like a function of `b`. -/
def Overlaps (a b : Layout) : Prop :=
  ∃ word ∈ accessWords, ∃ f ∈ a.fields, ∃ k ∈ kinds b, ∃ s,
    b.name = a.name ++ word ++ s ∧ "_" ++ f.name = s ++ k.ending

theorem name_of_mem_kinds (hk : k ∈ kinds l) : k.name = l.name ++ k.ending := by
  rw [name_eq, owner, layout?_of_mem_kinds hk, Option.getD_some]

theorem ending_of_mem_kinds (hk : k ∈ kinds l) :
    (∃ word ∈ accessWords, ∃ f ∈ l.fields, k.ending = word ++ ("_" ++ f.name)) ∨
      k.ending ∈ wholeEndings := by
  simp only [kinds, List.mem_append, List.mem_map, List.mem_cons, List.not_mem_nil, or_false] at hk
  rcases hk with ((⟨f, hf, rfl⟩ | ⟨f, hf, rfl⟩) | ⟨f, hf, rfl⟩) | rfl | rfl | rfl | rfl
  · exact .inl ⟨"_ofs", by decide, f, hf, rfl⟩
  · exact .inl ⟨"_get", by decide, f, hf, rfl⟩
  · exact .inl ⟨"_set", by decide, f, hf, rfl⟩
  all_goals exact .inr (by simp [ending, wholeEndings])

theorem exists_mem_kinds_of_accessWord {word : String} (hword : word ∈ accessWords) {f : Field}
    (hf : f ∈ l.fields) : ∃ k ∈ kinds l, k.ending = word ++ ("_" ++ f.name) := by
  simp only [accessWords, List.mem_cons, List.not_mem_nil, or_false] at hword
  rcases hword with rfl | rfl | rfl
  · exact ⟨.offset l.name f.name, by simpa [kinds] using ⟨f, hf, rfl⟩, rfl⟩
  · exact ⟨.get l.name f.name, by simpa [kinds] using ⟨f, hf, rfl⟩, rfl⟩
  · exact ⟨.set l.name f.name, by simpa [kinds] using ⟨f, hf, rfl⟩, rfl⟩

theorem overlaps_of_ending_eq {r : String} (hk : k ∈ kinds a) (hk' : k' ∈ kinds b)
    (hne : a.name ≠ b.name) (hname : b.name = a.name ++ r) (h : k.ending = r ++ k'.ending) :
    Overlaps a b := by
  have hr : r ≠ "" := by
    rintro rfl
    exact hne (by rw [hname, String.append_empty])
  rcases ending_of_mem_kinds hk with ⟨word, hword, f, hf, hending⟩ | hwhole
  · obtain ⟨s, rfl, hs⟩ := exists_eq_append_of_accessWord hword hr (hending ▸ h)
    exact ⟨word, hword, f, hf, k', hk', s, by rw [hname, String.append_assoc], hs⟩
  · exact absurd (eq_empty_of_wholeEnding hwhole h) hr

theorem exists_name_eq_of_overlaps (h : Overlaps a b) :
    ∃ k ∈ kinds a, ∃ k' ∈ kinds b, k.name = k'.name := by
  obtain ⟨word, hword, f, hf, k', hk', s, hname, hs⟩ := h
  obtain ⟨k, hk, hending⟩ := exists_mem_kinds_of_accessWord hword hf
  refine ⟨k, hk, k', hk', ?_⟩
  rw [name_of_mem_kinds hk, name_of_mem_kinds hk', hname, hending, hs]
  simp only [String.append_assoc]

/-- Two layouts have functions of one name if and only if they overlap, one way or the other. -/
theorem exists_name_eq_iff (hne : a.name ≠ b.name) :
    (∃ k ∈ kinds a, ∃ k' ∈ kinds b, k.name = k'.name) ↔ Overlaps a b ∨ Overlaps b a := by
  constructor
  · rintro ⟨k, hk, k', hk', h⟩
    rw [name_of_mem_kinds hk, name_of_mem_kinds hk'] at h
    rcases append_eq_append_cases h with ⟨r, hname, hending⟩ | ⟨r, hname, hending⟩
    · exact .inl (overlaps_of_ending_eq hk hk' hne hname hending)
    · exact .inr (overlaps_of_ending_eq hk' hk hne.symm hname hending)
  · rintro (h | h)
    · exact exists_name_eq_of_overlaps h
    · obtain ⟨k, hk, k', hk', hname⟩ := exists_name_eq_of_overlaps h
      exact ⟨k', hk', k, hk, hname.symm⟩

theorem disjoint_map_name_iff (hne : a.name ≠ b.name) :
    ((kinds a).map FunctionKind.name).Disjoint ((kinds b).map FunctionKind.name) ↔
      ¬ Overlaps a b ∧ ¬ Overlaps b a := by
  rw [← not_or, ← exists_name_eq_iff hne]
  simp only [List.disjoint_left, List.mem_map]
  grind

theorem not_overlaps_self (l : Layout) : ¬ Overlaps l l := by
  rintro ⟨word, hword, -, -, -, -, s, hname, -⟩
  have hlength : ∀ word ∈ accessWords, 0 < word.length := by decide
  have := congrArg String.length hname
  have := hlength word hword
  simp only [String.length_append] at *
  omega

/-- Layouts do not overlap if none is named like another followed by an accessor's word. -/
theorem not_overlaps_of_not_prefix
    (h : ∀ word ∈ accessWords, ¬ (a.name ++ word).toList <+: b.name.toList) : ¬ Overlaps a b := by
  rintro ⟨word, hword, -, -, -, -, s, hname, -⟩
  exact h word hword ⟨s.toList, by rw [hname, ← String.toList_append]⟩

/-- No function of a layout is named like a dispatcher. -/
theorem name_ne_of_owner_eq (hl : l.name ≠ "layout") (hk : k ∈ kinds l) (hd : k'.owner = "layout")
    (hwhole : k'.ending ∈ wholeEndings) : k.name ≠ k'.name := by
  intro h
  rw [name_of_mem_kinds hk, name_eq, hd] at h
  rcases append_eq_append_cases h with ⟨r, hname, hending⟩ | ⟨r, hname, hending⟩
  -- The name `layout` would hold the underscore in front of the function's word.
  · have hempty : r ≠ "" := by
      rintro rfl
      exact hl (by rw [hname, String.append_empty])
    obtain ⟨cs, hcs⟩ := exists_toList_of_ending_eq hempty hending
    have hmem : '_' ∈ "layout".toList := by
      rw [hname, String.toList_append, hcs]
      exact List.mem_append_right _ List.mem_cons_self
    exact absurd hmem (by decide)
  · rw [eq_empty_of_wholeEnding hwhole hending, String.append_empty] at hname
    exact hl hname

end Accessor

/-! ## The declarations of a program -/

open HeapLayout (Layout PointerWidth LayoutDef)
open Accessor FunctionKind
open Schema (bind_eq_ok pure_eq_ok)

variable {w : PointerWidth} {ls : List Layout} {p : Program}

def Decl.constantName? : Decl → Option String
  | .const name _ _ => some name
  | .function _ => none

def Program.constantNames (p : Program) : List String :=
  p.decls.filterMap Decl.constantName?

/-- The kinds of all functions of a schema, in the order of their declarations. -/
def allKinds (ls : List Layout) : List FunctionKind :=
  ls.flatMap kinds ++ [.dispatchSizeof, .dispatchVisitGc]

/-- The program has a tag constant for each layout and a function for each kind, and these have the
names of their kinds. -/
structure Program.Declares (p : Program) (ls : List Layout) : Prop where
  constants : p.constantNames = ls.map (·.tagConstant)
  kinds : p.functions.map (·.kind) = allKinds ls
  names : ∀ f ∈ p.functions, f.name = f.kind.name

theorem Program.names_perm (p : Program) :
    (p.decls.map Decl.name).Perm (p.constantNames ++ p.functions.map (·.name)) := by
  unfold constantNames functions
  induction p.decls with
  | nil => exact .nil
  | cons d ds ih =>
    cases d with
    | const name type value => exact ih.cons name
    | function f => exact (ih.cons f.name).trans List.perm_middle.symm

theorem label_of_layoutsDecls {decls : List Decl} (h : layoutsDecls w ls = .ok decls) :
    decls.filterMap Decl.constantName? = ls.map (·.tagConstant) ∧
      (decls.filterMap Decl.function?).map (·.kind) = ls.flatMap kinds ∧
      ∀ f ∈ decls.filterMap Decl.function?, f.name = f.kind.name := by
  induction ls generalizing decls with
  | nil =>
    cases h
    exact ⟨rfl, rfl, List.forall_mem_nil _⟩
  | cons l ls ih =>
    obtain ⟨own, hown, h⟩ := bind_eq_ok.mp h
    obtain ⟨rest, hrest, h⟩ := bind_eq_ok.mp h
    cases pure_eq_ok.mp h
    obtain ⟨fs, hfs, hkinds, hnames⟩ := label_of_layoutDecls hown
    obtain ⟨hconstants, hrestKinds, hrestNames⟩ := ih hrest
    have hconst : own.filterMap Decl.constantName? = [l.tagConstant] := by
      simp [hfs, Decl.constantName?]
    have hfunctions : own.filterMap Decl.function? = fs := by
      rw [hfs]
      exact Program.functions_ofDecls (w := w) fs
    rw [List.filterMap_append, List.filterMap_append, hconst, hfunctions, hconstants,
      List.map_append, hkinds, hrestKinds]
    refine ⟨rfl, rfl, ?_⟩
    intro f hf
    rcases List.mem_append.mp hf with hf | hf
    · exact hnames f hf
    · exact hrestNames f hf

theorem declares_of_ofLayouts (h : Program.ofLayouts w ls = .ok p) : p.Declares ls := by
  obtain ⟨decls, hdecls, h⟩ := bind_eq_ok.mp h
  obtain ⟨dispatchers, hdispatchers, h⟩ := bind_eq_ok.mp h
  cases pure_eq_ok.mp h
  cases (Dispatch.functions_eq_ok w ls).symm.trans hdispatchers
  obtain ⟨hconstants, hkinds, hnames⟩ := label_of_layoutsDecls hdecls
  refine ⟨?_, ?_, ?_⟩
  · rw [Program.constantNames, Program.ofDecls, List.filterMap_append, hconstants]
    exact List.append_nil _
  · rw [Program.functions, Program.ofDecls, List.filterMap_append, List.map_append, hkinds]
    rfl
  · intro f hf
    rw [Program.functions, Program.ofDecls, List.filterMap_append] at hf
    rcases List.mem_append.mp hf with hf | hf
    · exact hnames f hf
    · simp only [List.map_cons, List.map_nil, List.filterMap_cons, Decl.function?,
        List.filterMap_nil, List.mem_cons, List.not_mem_nil, or_false] at hf
      rcases hf with rfl | rfl <;> rfl

/-! ## When all names are distinct -/

/-- What validation says about the names of resolved layouts. -/
structure NamesValid (ls : List Layout) : Prop where
  identifier : ∀ l ∈ ls, isIdentifier l.name = true
  not_reserved : ∀ l ∈ ls, l.name ∉ Name.reservedLayouts
  tagConstants_nodup : (ls.map (·.tagConstant)).Nodup
  fields_nodup : ∀ l ∈ ls, (l.fields.map (·.name)).Nodup

theorem namesValid_of_resolve {defs : List LayoutDef} (h : Schema.resolve w defs = .ok ls) :
    NamesValid ls := by
  obtain ⟨hcheck, hlength, -⟩ := Schema.exists_stages_of_resolve h
  obtain ⟨hvalid, -⟩ := Schema.check_eq_ok_iff.mp hcheck
  have hdef : ∀ l ∈ ls, ∃ d ∈ defs, l.name = d.name := by
    intro l hl
    obtain ⟨k, hk⟩ := List.mem_iff_getElem?.mp hl
    obtain ⟨d, hd⟩ := Schema.exists_getElem?_of_length_eq hlength hk
    obtain ⟨l', hl', -, hname⟩ := Schema.getElem?_of_resolve h hd
    cases hk.symm.trans hl'
    exact ⟨d, List.mem_of_getElem? hd, hname⟩
  refine ⟨?_, ?_, Schema.nodup_tagConstants_of_resolve h, ?_⟩
  · intro l hl
    obtain ⟨d, hd, hname⟩ := hdef l hl
    exact hname ▸ (hvalid d hd).identifier
  · intro l hl
    obtain ⟨d, hd, hname⟩ := hdef l hl
    exact hname ▸ (hvalid d hd).not_reserved
  · intro l hl
    exact (Schema.wellFormed_of_resolve h hl).names_nodup

theorem isLower_toUpper (c : Char) : c.toUpper.isLower = false := by
  unfold Char.toUpper Char.isLower
  split <;> grind

theorem isLower_of_mem_tagConstant {name : String} (hname : isIdentifier name = true) {c : Char}
    (hc : c ∈ (Name.tagConstant name).toList) : c.isLower = false := by
  rw [Name.tagConstant, String.toList_append, Uppercase.toList_ofString] at hc
  rcases List.mem_append.mp hc with hc | hc
  · have hlower : "LAYOUT_".toList.all (fun c => !c.isLower) = true := by decide
    simpa using List.all_eq_true.mp hlower c hc
  · obtain ⟨d, hd, hc⟩ := List.mem_flatMap.mp hc
    have hlt : d.toNat < 128 :=
      Identifier.toNat_lt_of_isRest (Identifier.isRest_of_mem hname hd)
    rw [Uppercase.ofChar, if_pos hlt, List.mem_singleton] at hc
    rw [hc]
    exact isLower_toUpper d

theorem tagConstant_ne_name {name : String} (hname : isIdentifier name = true) (k : FunctionKind) :
    Name.tagConstant name ≠ k.name := by
  intro h
  obtain ⟨c, cs, hcs, hlower⟩ := exists_toList_ending k
  have hmem : c ∈ (Name.tagConstant name).toList := by
    rw [h, name_eq, String.toList_append, hcs]
    exact List.mem_append_right _ (List.mem_cons_of_mem _ List.mem_cons_self)
  exact Bool.false_ne_true ((isLower_of_mem_tagConstant hname hmem).symm.trans hlower)

section Valid

variable (h : NamesValid ls)
include h

theorem NamesValid.pairwise_ne : ls.Pairwise fun a b => a.name ≠ b.name := by
  refine (List.pairwise_map.mp h.tagConstants_nodup).imp ?_
  intro a b hne hname
  exact hne (by rw [Layout.tagConstant, Layout.tagConstant, hname])

theorem nodup_allKinds : (allKinds ls).Nodup := by
  refine List.nodup_append'.mpr ⟨List.nodup_flatMap.mpr ⟨?_, ?_⟩, by decide, ?_⟩
  · intro l hl
    exact nodup_kinds (h.fields_nodup l hl)
  · refine h.pairwise_ne.imp ?_
    intro a b hne k ha hb
    exact hne (Option.some.inj ((layout?_of_mem_kinds ha).symm.trans (layout?_of_mem_kinds hb)))
  · intro k hk hd
    obtain ⟨l, -, hl⟩ := List.mem_flatMap.mp hk
    have := layout?_of_mem_kinds hl
    simp only [List.mem_cons, List.not_mem_nil, or_false] at hd
    rcases hd with rfl | rfl <;> cases this

theorem disjoint_map_name_dispatchers :
    ((ls.flatMap kinds).map FunctionKind.name).Disjoint
      ([.dispatchSizeof, .dispatchVisitGc].map FunctionKind.name) := by
  intro n hn hd
  obtain ⟨k, hk, rfl⟩ := List.mem_map.mp hn
  obtain ⟨d, hd, hname⟩ := List.mem_map.mp hd
  obtain ⟨l, hl, hk⟩ := List.mem_flatMap.mp hk
  have hne : l.name ≠ "layout" := by simpa [Name.reservedLayouts] using h.not_reserved l hl
  simp only [List.mem_cons, List.not_mem_nil, or_false] at hd
  rcases hd with rfl | rfl
  · exact name_ne_of_owner_eq hne hk rfl (by decide) hname.symm
  · exact name_ne_of_owner_eq hne hk rfl (by decide) hname.symm

/-- The functions of a schema have distinct names if and only if no two layouts overlap. -/
theorem nodup_map_name_allKinds_iff :
    ((allKinds ls).map FunctionKind.name).Nodup ↔ ∀ a ∈ ls, ∀ b ∈ ls, ¬ Overlaps a b := by
  have hown : ∀ l ∈ ls, ((kinds l).map FunctionKind.name).Nodup := by
    intro l hl
    exact nodup_map_name_kinds (h.fields_nodup l hl)
  rw [allKinds, List.map_append, List.nodup_append', List.map_flatMap, List.nodup_flatMap]
  constructor
  · rintro ⟨⟨-, hpairwise⟩, -⟩
    have hapart : ls.Pairwise fun a b => ¬ Overlaps a b ∧ ¬ Overlaps b a := by
      refine (hpairwise.and h.pairwise_ne).imp ?_
      rintro a b ⟨hab, hne⟩
      exact (disjoint_map_name_iff hne).mp hab
    have hsymm : Std.Symm fun a b => ¬ Overlaps a b ∧ ¬ Overlaps b a := ⟨fun _ _ h => h.symm⟩
    have hself : ∀ l ∈ ls, ¬ Overlaps l l ∧ ¬ Overlaps l l :=
      fun l _ => ⟨not_overlaps_self l, not_overlaps_self l⟩
    intro a ha b hb
    exact (hapart.forall_of_forall hself ha hb).1
  · intro hnone
    refine ⟨⟨hown, h.pairwise_ne.imp_of_mem ?_⟩, by decide, ?_⟩
    · intro a b ha hb hne
      exact (disjoint_map_name_iff hne).mpr ⟨hnone a ha b hb, hnone b hb a ha⟩
    · rw [← List.map_flatMap]
      exact disjoint_map_name_dispatchers h

/-- A program has distinct names if and only if its layouts do not overlap, and just then every
function is found under its name. -/
theorem Program.Declares.nodup_names_iff (hp : p.Declares ls) :
    ((p.decls.map Decl.name).Nodup ↔ ∀ a ∈ ls, ∀ b ∈ ls, ¬ Overlaps a b) ∧
      ((∀ f ∈ p.functions, p.function? f.name = some f) ↔
        ∀ a ∈ ls, ∀ b ∈ ls, ¬ Overlaps a b) := by
  have hfunctions : p.functions.map (·.name) = (allKinds ls).map FunctionKind.name := by
    rw [map_name_eq_of_label hp.names, hp.kinds]
  have hdisjoint : p.constantNames.Disjoint (p.functions.map (·.name)) := by
    rw [hp.constants, hfunctions]
    intro n hconst hfunction
    obtain ⟨l, hl, rfl⟩ := List.mem_map.mp hconst
    obtain ⟨k, -, hk⟩ := List.mem_map.mp hfunction
    exact tagConstant_ne_name (h.identifier l hl) k hk.symm
  have hnames : (p.functions.map (·.name)).Nodup ↔ ∀ a ∈ ls, ∀ b ∈ ls, ¬ Overlaps a b := by
    rw [hfunctions]
    exact nodup_map_name_allKinds_iff h
  refine ⟨?_, ?_⟩
  · rw [p.names_perm.nodup_iff, List.nodup_append', hnames, hp.constants]
    constructor
    · rintro ⟨-, hnone, -⟩
      exact hnone
    · intro hnone
      exact ⟨h.tagConstants_nodup, hnone, hp.constants ▸ hdisjoint⟩
  · rw [← hnames]
    constructor
    -- The kinds tell functions apart, so two of one name cannot both be found.
    · intro hfind
      have hnodup : p.functions.Nodup := List.Nodup.of_map _ (hp.kinds ▸ nodup_allKinds h)
      refine hnodup.map_on ?_
      intro f hf g hg hname
      exact Option.some.inj ((hfind f hf).symm.trans (hname ▸ hfind g hg))
    · intro hnodup f hf
      exact function?_of_mem hnodup hf

end Valid

theorem exists_ofLayouts {defs : List LayoutDef} (h : Schema.resolve w defs = .ok ls) :
    ∃ p, Program.ofLayouts w ls = .ok p := by
  obtain ⟨decls, hdecls⟩ := exists_layoutsDecls fun _ hl => Schema.wellFormed_of_resolve h hl
  exact ⟨_, bind_eq_ok.mpr ⟨decls, hdecls, bind_eq_ok.mpr ⟨_, Dispatch.functions_eq_ok w ls, rfl⟩⟩⟩

/-- For every accepted schema there is a program. Its declarations have distinct names if and only
if no two layouts overlap, and just then looking up the name of a function finds that function. -/
theorem nodup_names_iff_of_resolve {defs : List LayoutDef} (h : Schema.resolve w defs = .ok ls) :
    ∃ p, Program.ofLayouts w ls = .ok p ∧
      ((p.decls.map Decl.name).Nodup ↔ ∀ a ∈ ls, ∀ b ∈ ls, ¬ Overlaps a b) ∧
      ((∀ f ∈ p.functions, p.function? f.name = some f) ↔
        ∀ a ∈ ls, ∀ b ∈ ls, ¬ Overlaps a b) := by
  obtain ⟨p, hp⟩ := exists_ofLayouts h
  exact ⟨p, hp, (declares_of_ofLayouts hp).nodup_names_iff (namesValid_of_resolve h)⟩

/-- The buffer layouts do not overlap, so each of their functions is found under its name. -/
theorem nodup_names_hashed :
    Schema.resolve .eight [bufferDef none none, hashedDef] =
        .ok [bufferLayout none none, hashedLayout] ∧
      ∃ p, Program.ofLayouts .eight [bufferLayout none none, hashedLayout] = .ok p ∧
        (p.decls.map Decl.name).Nodup ∧ ∀ f ∈ p.functions, p.function? f.name = some f := by
  have hresolve : Schema.resolve .eight [bufferDef none none, hashedDef] =
      .ok [bufferLayout none none, hashedLayout] := by decide
  have hnone : ∀ a ∈ [bufferLayout none none, hashedLayout],
      ∀ b ∈ [bufferLayout none none, hashedLayout], ¬ Overlaps a b := by
    have hbegins : ∀ a ∈ [bufferLayout none none, hashedLayout],
        ∀ b ∈ [bufferLayout none none, hashedLayout], ∀ word ∈ accessWords,
          ¬ (a.name ++ word).toList <+: b.name.toList := by decide
    intro a ha b hb
    exact not_overlaps_of_not_prefix (hbegins a ha b hb)
  obtain ⟨p, hp, hnames, hfind⟩ := nodup_names_iff_of_resolve hresolve
  exact ⟨hresolve, p, hp, hnames.mpr hnone, hfind.mpr hnone⟩

/-- A layout with a field that is called like a function. -/
def sizedDef : LayoutDef where
  name := "a"
  category := "plain"
  fields := [{ name := "sizeof", type := .uint64 }]

/-- A layout whose name ends in an accessor's word. -/
def suffixedDef : LayoutDef where
  name := "a_ofs"
  category := "plain"
  fields := []

/-- The size of the second layout is looked up under the name of an offset in the first. -/
theorem not_nodup_names_suffixed :
    ∃ ls p, Schema.resolve .eight [sizedDef, suffixedDef] = .ok ls ∧
      Program.ofLayouts .eight ls = .ok p ∧ ¬ (p.decls.map Decl.name).Nodup ∧
      (p.function? (Name.sizeof "a_ofs")).map (·.kind) = some (.offset "a" "sizeof") ∧
      ∃ g ∈ p.functions, g.kind = .sizeof "a_ofs" ∧ p.function? g.name ≠ some g := by
  refine ⟨_, _, rfl, rfl, by decide, by decide, _, List.mem_of_getElem? (i := 20) rfl, rfl, ?_⟩
  intro h
  exact absurd (congrArg (Option.map (·.kind)) h) (by decide)

end Code

end HeapLayout
