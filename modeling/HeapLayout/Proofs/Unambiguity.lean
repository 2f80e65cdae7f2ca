import HeapLayout.Artifact
import HeapLayout.Proofs.Spelling

/-!
# Printed expressions are unambiguous

No two plain expressions have the same text, in neither language (`expr_determined`). So the offset
arithmetic can be read off either artifact, constants, operators and the order of operands included,
and both artifacts show the same.

A text is a word followed by what may stand in parentheses. The word ends at the first blank, comma
or parenthesis, so it is known wherever the text goes on with one of these (`word_eq`), and it tells
what kind of expression it belongs to. Since the texts of operands stand in the middle of others,
the induction over expressions is about a text and whatever follows it (`Legible`).
-/

namespace HeapLayout.Artifact

open Identifier (isRest)
open Code (Expr Function BinOp UndefKind Callee Program Stmt)

/-! ## Words -/

def isWordChar (c : Char) : Bool :=
  c != ' ' && c != ',' && c != '(' && c != ')'

def isWord (s : String) : Bool :=
  s.toList.all isWordChar

/-- What can follow a word. -/
def Stops : List Char → Prop
  | [] => True
  | c :: _ => isWordChar c = false

/-- What can follow an expression. -/
def Ends : List Char → Prop
  | [] => True
  | c :: _ => c = ' ' ∨ c = ',' ∨ c = ')'

theorem ends_blank (r : List Char) : Ends (' ' :: r) :=
  .inl rfl

theorem ends_comma (r : List Char) : Ends (',' :: r) :=
  .inr (.inl rfl)

theorem ends_close (r : List Char) : Ends (')' :: r) :=
  .inr (.inr rfl)

theorem Ends.stops {r : List Char} (h : Ends r) : Stops r := by
  cases r with
  | nil => trivial
  | cons c cs => rcases h with rfl | rfl | rfl <;> rfl

theorem takeWhile_append_of_stops {v : String} {r : List Char} (hv : isWord v = true)
    (hr : Stops r) : (v.toList ++ r).takeWhile isWordChar = v.toList := by
  rw [List.takeWhile_append_of_pos (List.all_eq_true.mp hv)]
  cases r with
  | nil => exact List.append_nil _
  | cons c cs =>
    rw [List.takeWhile_cons_of_neg (by simp [show isWordChar c = false from hr]), List.append_nil]

/-- A word is known from a text that it begins. -/
theorem word_eq {v v' : String} {r r' : List Char} (hv : isWord v = true) (hv' : isWord v' = true)
    (hr : Stops r) (hr' : Stops r') (h : v.toList ++ r = v'.toList ++ r') : v = v' ∧ r = r' := by
  have hword : v.toList = v'.toList := by
    rw [← takeWhile_append_of_stops hv hr, h, takeWhile_append_of_stops hv' hr']
  exact ⟨String.toList_inj.mp hword, List.append_cancel_left (hword ▸ h)⟩

theorem isWord_of_isIdentifier {name : String} (h : isIdentifier name = true) :
    isWord name = true := by
  refine List.all_eq_true.mpr fun c hc => ?_
  have hne {d : Char} := ne_of_mem_isIdentifier (d := d) h hc
  simp [isWordChar, hne (d := ' ') (by decide), hne (d := ',') (by decide),
    hne (d := '(') (by decide), hne (d := ')') (by decide)]

theorem isWord_ofInt (v : Int) : isWord (Numeral.ofInt v) = true :=
  List.all_eq_true.mpr (Numeral.forall_mem_ofInt (by decide) (by decide) v)

/-- A text of a word and what stands in parentheses behind it, one of them at least. -/
structure Splits (text word rest : String) : Prop where
  text_eq : text = word ++ rest
  isWord : isWord word = true
  rest : (∃ c cs, word.toList = c :: cs) ∧ rest = "" ∨ ∃ cs, rest.toList = '(' :: cs

namespace Splits

variable {text word rest text' word' rest' : String} {r r' : List Char}

theorem of_isIdentifier (h : isIdentifier word = true) : Splits word word "" := by
  obtain ⟨c, cs, hcs, -⟩ := Identifier.exists_toList h
  exact ⟨String.append_empty.symm, isWord_of_isIdentifier h, .inl ⟨⟨c, cs, hcs⟩, rfl⟩⟩

theorem ofInt (v : Int) : Splits (Numeral.ofInt v) (Numeral.ofInt v) "" := by
  obtain ⟨c, cs, hcs, -⟩ := Numeral.exists_toList_ofInt (P := fun _ => True) trivial
    (fun _ _ => trivial) v
  exact ⟨String.append_empty.symm, isWord_ofInt v, .inl ⟨⟨c, cs, hcs⟩, rfl⟩⟩

theorem stops (h : Splits text word rest) (hr : Ends r) : Stops (rest.toList ++ r) := by
  rcases h.rest with ⟨-, hrest⟩ | ⟨cs, hrest⟩
  · rw [hrest]
    exact hr.stops
  · rw [hrest]
    exact rfl

theorem opens (h : Splits text word rest) : ∃ c cs, text.toList = c :: cs ∧ c ≠ ')' := by
  rw [h.text_eq, String.toList_append]
  cases hword : word.toList with
  | nil =>
    rcases h.rest with ⟨⟨c, cs, hcs⟩, -⟩ | ⟨cs, hrest⟩
    · simp [hcs] at hword
    · exact ⟨'(', cs, hrest, by decide⟩
  | cons c cs =>
    refine ⟨c, cs ++ rest.toList, rfl, ?_⟩
    have hc := List.all_eq_true.mp h.isWord c (hword ▸ List.mem_cons_self)
    rintro rfl
    exact absurd hc (by decide)

/-- The word is known from the text, wherever that goes on. -/
theorem eq_of_append (h : Splits text word rest) (h' : Splits text' word' rest') (hr : Ends r)
    (hr' : Ends r') (heq : text.toList ++ r = text'.toList ++ r') :
    word = word' ∧ rest.toList ++ r = rest'.toList ++ r' := by
  rw [h.text_eq, h'.text_eq, String.toList_append, String.toList_append, List.append_assoc,
    List.append_assoc] at heq
  exact word_eq h.isWord h'.isWord (h.stops hr) (h'.stops hr') heq

end Splits

/-! ## Arguments -/

/-- The text of an expression, whatever follows it, is that of no other plain expression. -/
def Legible (text : Expr → String) (e : Expr) : Prop :=
  ∀ {e' : Expr} {r r' : List Char}, e'.Plain → Ends r → Ends r' →
    (text e).toList ++ r = (text e').toList ++ r' → e = e' ∧ r = r'

/-- What follows the first of some arguments. -/
def furtherArgs : List String → List Char
  | [] => [')']
  | a :: as => ',' :: ' ' :: (a.toList ++ furtherArgs as)

theorem ends_furtherArgs (as : List String) (r : List Char) : Ends (furtherArgs as ++ r) := by
  cases as with
  | nil => exact ends_close r
  | cons a as => exact ends_comma _

theorem toList_parenthesized_cons (a : String) (as : List String) :
    (parenthesized (a :: as)).toList = '(' :: (a.toList ++ furtherArgs as) := by
  induction as generalizing a with
  | nil => simp [parenthesized, furtherArgs]
  | cons b bs ih =>
    have := ih b
    simp only [parenthesized, furtherArgs] at this ⊢
    simp_all

theorem exists_toList_parenthesized (as : List String) :
    ∃ cs, (parenthesized as).toList = '(' :: cs := by
  simp [parenthesized]

/-- Parentheses only follow a word that calls for them. -/
theorem not_ends_parenthesized {as : List String} {r r' : List Char}
    (h : "".toList ++ r = (parenthesized as).toList ++ r') : ¬ Ends r := by
  obtain ⟨cs, hcs⟩ := exists_toList_parenthesized as
  have hr : r = '(' :: (cs ++ r') := by simpa [hcs] using h
  simp [hr, Ends]

section Arguments

variable {text : Expr → String} {es es' : List Expr} {r r' : List Char}

theorem eq_of_furtherArgs (hes : ∀ e ∈ es, Legible text e) (hes' : ∀ e ∈ es', e.Plain)
    (h : furtherArgs (es.map text) ++ r = furtherArgs (es'.map text) ++ r') :
    es = es' ∧ r = r' := by
  induction es generalizing es' with
  | nil =>
    cases es' with
    | nil => exact ⟨rfl, by simpa [furtherArgs] using h⟩
    | cons e' es' => simp [furtherArgs] at h
  | cons e es ih =>
    cases es' with
    | nil => simp [furtherArgs] at h
    | cons e' es' =>
      obtain ⟨he, hrest⟩ := List.forall_mem_cons.mp hes
      obtain ⟨he', hrest'⟩ := List.forall_mem_cons.mp hes'
      have htext : (text e).toList ++ (furtherArgs (es.map text) ++ r) =
          (text e').toList ++ (furtherArgs (es'.map text) ++ r') := by
        simpa [furtherArgs] using h
      obtain ⟨rfl, hfurther⟩ := he he' (ends_furtherArgs _ _) (ends_furtherArgs _ _) htext
      obtain ⟨rfl, rfl⟩ := ih hrest hrest' hfurther
      exact ⟨rfl, rfl⟩

/-- Arguments are known from their text, if none begins with the closing parenthesis. -/
theorem eq_of_parenthesized
    (hopens : ∀ {e}, e.Plain → ∃ c cs, (text e).toList = c :: cs ∧ c ≠ ')')
    (hes : ∀ e ∈ es, e.Plain) (hlegible : ∀ e ∈ es, Legible text e) (hes' : ∀ e ∈ es', e.Plain)
    (h : (parenthesized (es.map text)).toList ++ r =
      (parenthesized (es'.map text)).toList ++ r') : es = es' ∧ r = r' := by
  cases es with
  | nil =>
    cases es' with
    | nil => exact ⟨rfl, by simpa [parenthesized] using h⟩
    | cons e' es' =>
      obtain ⟨c, cs, hc, hne⟩ := hopens (hes' e' List.mem_cons_self)
      simp [parenthesized, hc, hne.symm] at h
  | cons e es =>
    cases es' with
    | nil =>
      obtain ⟨c, cs, hc, hne⟩ := hopens (hes e List.mem_cons_self)
      simp [parenthesized, hc, hne] at h
    | cons e' es' =>
      -- A comma in front does not change anything.
      have hfurther : furtherArgs ((e :: es).map text) ++ r =
          furtherArgs ((e' :: es').map text) ++ r' := by
        simpa [furtherArgs, toList_parenthesized_cons] using h
      exact eq_of_furtherArgs hlegible hes' hfurther

end Arguments

/-! ## Shapes -/

/-- What a word says of the expression that it begins. -/
inductive Shape where
  | name
  | number
  | undef
  | operation
  | load
  | call
  deriving DecidableEq

/-- How plain expressions are printed: as a word, from which their shape can be told, and the
rest. -/
structure Style (text word rest : Expr → String) (wordShape : String → Shape)
    (shape : Expr → Shape) : Prop where
  splits : ∀ {e}, e.Plain → Splits (text e) (word e) (rest e)
  wordShape_word : ∀ {e}, e.Plain → wordShape (word e) = shape e

namespace Style

variable {text word rest : Expr → String} {wordShape : String → Shape} {shape : Expr → Shape}
  {e : Expr}

theorem opens (h : Style text word rest wordShape shape) (he : e.Plain) :
    ∃ c cs, (text e).toList = c :: cs ∧ c ≠ ')' :=
  (h.splits he).opens

/-- The parts of an expression's text are known from that text. So the expression is, if it is known
from its parts. -/
theorem legible (h : Style text word rest wordShape shape) (he : e.Plain)
    (hparts : ∀ {e' r r'}, e'.Plain → shape e = shape e' → word e = word e' → Ends r → Ends r' →
      (rest e).toList ++ r = (rest e').toList ++ r' → e = e' ∧ r = r') : Legible text e := by
  intro e' r r' he' hr hr' heq
  obtain ⟨hword, hrest⟩ := (h.splits he).eq_of_append (h.splits he') hr hr' heq
  have hshape : shape e = shape e' := by
    rw [← h.wordShape_word he, hword, h.wordShape_word he']
  exact hparts he' hshape hword hr hr' hrest

end Style

/-! ## D -/

namespace D

/-- The word at the start of a plain expression. -/
def word : Expr → String
  | .var name => name
  | .const v => Numeral.ofInt v
  | .undef k => undef k
  | .load _ _ _ => "*cast"
  | .call f _ => callee f
  | _ => ""

/-- What stands in parentheses behind the word. -/
def rest : Expr → String
  | .bin op lhs rhs => "(" ++ expr lhs ++ " " ++ operator op ++ " " ++ expr rhs ++ ")"
  | .load type base offset => "(" ++ type.name ++ "*)(" ++ expr base ++ " + " ++ expr offset ++ ")"
  | .call _ args => parenthesized (exprs args)
  | _ => ""

def shape : Expr → Shape
  | .const _ => .number
  | .undef _ => .undef
  | .load _ _ _ => .load
  | .bin _ _ _ => .operation
  | _ => .name

def wordShape (s : String) : Shape :=
  match s.toList with
  | [] => .operation
  | c :: cs =>
    if Identifier.isStart c then if '.' ∈ cs then .undef else .name
    else if c = '*' then .load
    else .number

variable {e : Expr}

theorem wordShape_of_isIdentifier {name : String} (h : isIdentifier name = true) :
    wordShape name = .name := by
  obtain ⟨c, cs, hcs, hstart, hrest⟩ := Identifier.exists_toList h
  have hdot : '.' ∉ cs := fun hmem => absurd (hrest _ hmem) (by decide)
  simp [wordShape, hcs, hstart, hdot]

theorem wordShape_ofInt (v : Int) : wordShape (Numeral.ofInt v) = .number := by
  obtain ⟨c, cs, hcs, hsigns⟩ := Numeral.exists_toList_ofInt
    (P := fun c => Identifier.isStart c = false ∧ c ≠ '*') (by decide) (by decide) v
  simp [wordShape, hcs, hsigns]

theorem style : Style expr word rest wordShape shape := by
  refine ⟨fun he => ?_, fun he => ?_⟩
  · cases he with
    | var hname => exact .of_isIdentifier hname
    | const => exact .ofInt _
    | @undef k =>
      refine ⟨String.append_empty.symm, ?_, .inl ⟨?_, rfl⟩⟩
      · cases k <;> decide
      · cases k <;> exact ⟨_, _, rfl⟩
    | bin => exact ⟨String.empty_append.symm, rfl, .inr ⟨_, by simp [rest]; rfl⟩⟩
    | load =>
      refine ⟨String.toList_inj.mp ?_, show isWord "*cast" = true by decide,
        .inr ⟨_, by simp [rest]; rfl⟩⟩
      simp [expr, slot, word, rest]
    | @invoke name args hname =>
      exact ⟨rfl, isWord_of_isIdentifier hname, .inr (exists_toList_parenthesized _)⟩
  · cases he with
    | var hname => exact wordShape_of_isIdentifier hname
    | const => exact wordShape_ofInt _
    | @undef k => cases k <;> decide
    | bin => rfl
    | load => exact show wordShape "*cast" = .load by decide
    | invoke hname => exact wordShape_of_isIdentifier hname

theorem operator_injective {op op' : BinOp} (h : operator op = operator op') : op = op' := by
  cases op <;> cases op' <;> first | rfl | exact absurd h (by decide)

theorem isWord_operator (op : BinOp) : isWord (operator op) = true := by
  cases op <;> decide

theorem isWord_pointer (p : Prim) : isWord (p.name ++ "*") = true := by
  cases p <;> decide

theorem pointer_injective {p p' : Prim} (h : p.name ++ "*" = p'.name ++ "*") : p = p' := by
  have hname : p.name = p'.name := by simpa [← String.toList_inj] using h
  exact Option.some.inj ((Prim.ofName?_name p).symm.trans (hname ▸ Prim.ofName?_name p'))

theorem undef_injective {k k' : UndefKind} (h : undef k = undef k') : k = k' := by
  cases k <;> cases k' <;> first | rfl | exact absurd h (by decide)

theorem legible (h : e.Plain) : Legible expr e := by
  induction h with
  | @var name hname =>
    refine style.legible (.var hname) fun he' hshape hword hr hr' hrest => ?_
    cases he' with
    | var => exact ⟨congrArg _ hword, hrest⟩
    | @invoke name' args => exact absurd hr (not_ends_parenthesized hrest)
    | _ => cases hshape
  | @const v =>
    refine style.legible .const fun he' hshape hword hr hr' hrest => ?_
    cases he' with
    | const => exact ⟨congrArg _ (Numeral.ofInt_injective hword), hrest⟩
    | _ => cases hshape
  | @undef k =>
    refine style.legible .undef fun he' hshape hword hr hr' hrest => ?_
    cases he' with
    | undef => exact ⟨congrArg _ (undef_injective hword), hrest⟩
    | _ => cases hshape
  | @bin op lhs rhs hlhs hrhs ihl ihr =>
    refine style.legible (.bin hlhs hrhs) fun {_ r r'} he' hshape _ hr hr' hrest => ?_
    cases he' with
    | @bin op' lhs' rhs' hlhs' hrhs' =>
      have htext : (expr lhs).toList ++
            ' ' :: ((operator op).toList ++ ' ' :: ((expr rhs).toList ++ ')' :: r)) =
          (expr lhs').toList ++
            ' ' :: ((operator op').toList ++ ' ' :: ((expr rhs').toList ++ ')' :: r')) := by
        simpa [rest] using hrest
      obtain ⟨rfl, hafter⟩ := ihl hlhs' (ends_blank _) (ends_blank _) htext
      obtain ⟨hop, hoperand⟩ :=
        word_eq (isWord_operator op) (isWord_operator op') (ends_blank _).stops
          (ends_blank _).stops (List.cons.inj hafter).2
      cases operator_injective hop
      obtain ⟨rfl, hend⟩ := ihr hrhs' (ends_close _) (ends_close _) (List.cons.inj hoperand).2
      exact ⟨rfl, (List.cons.inj hend).2⟩
    | _ => cases hshape
  | @load type base offset hbase hoffset ihbase ihoffset =>
    refine style.legible (.load hbase hoffset) fun {_ r r'} he' hshape _ hr hr' hrest => ?_
    cases he' with
    | @load type' base' offset' hbase' hoffset' =>
      have htext : (type.name ++ "*").toList ++ ')' :: '(' :: ((expr base).toList ++
            ' ' :: '+' :: ' ' :: ((expr offset).toList ++ ')' :: r)) =
          (type'.name ++ "*").toList ++ ')' :: '(' :: ((expr base').toList ++
            ' ' :: '+' :: ' ' :: ((expr offset').toList ++ ')' :: r')) := by
        simpa [rest] using hrest
      obtain ⟨htype, hafter⟩ :=
        word_eq (isWord_pointer type) (isWord_pointer type') (ends_close _).stops
          (ends_close _).stops htext
      cases pointer_injective htype
      obtain ⟨rfl, hoperands⟩ :=
        ihbase hbase' (ends_blank _) (ends_blank _) (by simpa using hafter)
      obtain ⟨rfl, hend⟩ :=
        ihoffset hoffset' (ends_close _) (ends_close _) (by simpa using hoperands)
      exact ⟨rfl, (List.cons.inj hend).2⟩
    | _ => cases hshape
  | @invoke name args hname hargs ih =>
    refine style.legible (.invoke hname hargs) fun he' hshape hword hr hr' hrest => ?_
    cases he' with
    | var => exact absurd hr' (not_ends_parenthesized hrest.symm)
    | @invoke name' args' hname' hargs' =>
      rw [rest, rest, exprs_eq_map, exprs_eq_map] at hrest
      obtain ⟨rfl, rfl⟩ :=
        eq_of_parenthesized style.opens hargs ih hargs' hrest
      exact ⟨congrArg (fun name => Expr.call (.generated name) args) hword, rfl⟩
    | _ => cases hshape

end D

/-! ## JavaScript -/

namespace JS

def word : Expr → String
  | .var name => name
  | .const v => Numeral.ofInt v
  | .undef .word => "$ir_get_word"
  | .undef .type => "$ir_get_type"
  | .bin op _ _ => operator op
  | .load type _ _ => "$ir_load_" ++ shortName type
  | .call f _ => "$rt_" ++ callee f
  | _ => ""

def rest : Expr → String
  | .undef _ => "($undef)"
  | .bin _ lhs rhs => parenthesized ([lhs, rhs].map (expr {}))
  | .load _ base offset => parenthesized ([base, offset].map (expr {}))
  | .call _ args => parenthesized (passed {} args)
  | _ => ""

def shape : Expr → Shape
  | .const _ => .number
  | .undef _ => .undef
  | .load _ _ _ => .load
  | .bin _ _ _ => .operation
  | .call _ _ => .call
  | _ => .name

/-- Primitives are told apart by the letter behind their qualifier. -/
def wordShape (s : String) : Shape :=
  match s.toList with
  | [] => .name
  | c :: cs =>
    if Identifier.isStart c then .name
    else if c != '$' then .number
    else if cs.head? = some 'r' then .call
    else if cs[3]? = some 'l' then .load
    else if cs[3]? = some 'g' then .undef
    else .operation

/-- No plain argument is dropped. -/
theorem passed_eq_map {es : List Expr} (h : ∀ e ∈ es, e.Plain) :
    passed {} es = es.map (expr {}) := by
  induction es with
  | nil => rfl
  | cons e es ih =>
    obtain ⟨he, hes⟩ := List.forall_mem_cons.mp h
    have hne : e ≠ .context := by
      rintro rfl
      cases he
    rw [passed_cons_of_ne hne, ih hes, List.map_cons]

theorem word_operator (op : BinOp) :
    isWord (operator op) = true ∧ wordShape (operator op) = .operation := by
  cases op <;> decide

theorem word_loader (p : Prim) : isWord ("$ir_load_" ++ shortName p) = true ∧
    wordShape ("$ir_load_" ++ shortName p) = .load := by
  cases p <;> decide

theorem word_callee {name : String} (h : isIdentifier name = true) :
    isWord ("$rt_" ++ name) = true ∧ wordShape ("$rt_" ++ name) = .call := by
  have hname := isWord_of_isIdentifier h
  simp only [isWord] at hname
  simp [isWord, hname, wordShape]
  decide

theorem style : Style (expr {}) word rest wordShape shape := by
  refine ⟨fun he => ?_, fun he => ?_⟩
  · cases he with
    | var hname => exact .of_isIdentifier hname
    | const => exact .ofInt _
    | @undef k =>
      exact ⟨by cases k <;> decide, by cases k <;> decide, .inr ⟨_, by simp [rest]; rfl⟩⟩
    | bin => exact ⟨rfl, (word_operator _).1, .inr (exists_toList_parenthesized _)⟩
    | load => exact ⟨rfl, (word_loader _).1, .inr (exists_toList_parenthesized _)⟩
    | invoke hname => exact ⟨rfl, (word_callee hname).1, .inr (exists_toList_parenthesized _)⟩
  · cases he with
    | @var name hname =>
      obtain ⟨c, cs, hcs, hstart, -⟩ := Identifier.exists_toList hname
      simp [wordShape, word, hcs, hstart, shape]
    | @const v =>
      obtain ⟨c, cs, hcs, hsigns⟩ := Numeral.exists_toList_ofInt
        (P := fun c => Identifier.isStart c = false ∧ c ≠ '$') (by decide) (by decide) v
      simp [wordShape, word, hcs, hsigns, shape]
    | @undef k => cases k <;> decide
    | bin => exact (word_operator _).2
    | load => exact (word_loader _).2
    | invoke hname => exact (word_callee hname).2

theorem operator_injective {op op' : BinOp} (h : operator op = operator op') : op = op' := by
  cases op <;> cases op' <;> first | rfl | exact absurd h (by decide)

theorem shortName_injective {p p' : Prim} (h : shortName p = shortName p') : p = p' := by
  cases p <;> cases p' <;> first | rfl | exact absurd h (by decide)

theorem legible {e : Expr} (h : e.Plain) : Legible (expr {}) e := by
  induction h with
  | @var name hname =>
    refine style.legible (.var hname) fun he' hshape hword hr hr' hrest => ?_
    cases he' with
    | var => exact ⟨congrArg _ hword, hrest⟩
    | _ => cases hshape
  | @const v =>
    refine style.legible .const fun he' hshape hword hr hr' hrest => ?_
    cases he' with
    | const => exact ⟨congrArg _ (Numeral.ofInt_injective hword), hrest⟩
    | _ => cases hshape
  | @undef k =>
    refine style.legible .undef fun he' hshape hword hr hr' hrest => ?_
    cases he' with
    | @undef k' =>
      refine ⟨?_, List.append_cancel_left hrest⟩
      cases k <;> cases k' <;> first | rfl | exact absurd hword (by decide)
    | _ => cases hshape
  | @bin op lhs rhs hlhs hrhs ihl ihr =>
    refine style.legible (.bin hlhs hrhs) fun he' hshape hword hr hr' hrest => ?_
    cases he' with
    | @bin op' lhs' rhs' hlhs' hrhs' =>
      cases operator_injective hword
      obtain ⟨hargs, rfl⟩ := eq_of_parenthesized style.opens (by simp [hlhs, hrhs])
        (List.forall_mem_cons.mpr ⟨ihl, List.forall_mem_singleton.mpr ihr⟩)
        (by simp [hlhs', hrhs']) hrest
      cases hargs
      exact ⟨rfl, rfl⟩
    | _ => cases hshape
  | @load type base offset hbase hoffset ihbase ihoffset =>
    refine style.legible (.load hbase hoffset) fun he' hshape hword hr hr' hrest => ?_
    cases he' with
    | @load type' base' offset' hbase' hoffset' =>
      cases shortName_injective (by simpa [word, ← String.toList_inj] using hword)
      obtain ⟨hargs, rfl⟩ := eq_of_parenthesized style.opens (by simp [hbase, hoffset])
        (List.forall_mem_cons.mpr ⟨ihbase, List.forall_mem_singleton.mpr ihoffset⟩)
        (by simp [hbase', hoffset']) hrest
      cases hargs
      exact ⟨rfl, rfl⟩
    | _ => cases hshape
  | @invoke name args hname hargs ih =>
    refine style.legible (.invoke hname hargs) fun he' hshape hword hr hr' hrest => ?_
    cases he' with
    | @invoke name' args' hname' hargs' =>
      have hcallee : name = name' := by
        simpa [word, callee, ← String.toList_inj] using hword
      rw [rest, rest, passed_eq_map hargs, passed_eq_map hargs'] at hrest
      obtain ⟨rfl, rfl⟩ := eq_of_parenthesized style.opens hargs ih hargs' hrest
      exact ⟨congrArg (fun name => Expr.call (.generated name) args) hcallee, rfl⟩
    | _ => cases hshape

end JS

/-! ## Both languages -/

theorem Legible.eq_of_text_eq {text : Expr → String} {e e' : Expr} (h : Legible text e)
    (he' : e'.Plain) (heq : text e = text e') : e = e' :=
  (h he' (show Ends [] from trivial) (show Ends [] from trivial) (by rw [heq])).1

/-- The body of a function looks as if it returned an expression. -/
def ReadsAs (d : Dialect) (g : Function) (e : Expr) : Prop :=
  d.bodyLines 1 g.body = d.bodyLines 1 [.ret (some e)]

theorem readsAs_iff {d : Dialect} {g : Function} {e e' : Expr} (hbody : g.body = [.ret (some e)])
    (he : Legible d.expr e) (he' : e'.Plain) : ReadsAs d g e' ↔ e' = e := by
  constructor
  · intro h
    have htext : d.expr e = d.expr e' := by
      simpa [ReadsAs, hbody, Dialect.bodyLines, Dialect.stmtLines, ← String.toList_inj] using h
    exact (Legible.eq_of_text_eq he he' htext).symm
  · rintro rfl
    rw [ReadsAs, hbody]

/-- **Unambiguity.** Plain expressions with the same text are the same, in either language. In
particular the offset arithmetic of an accepted schema, being plain, can be read off the D artifact
and off the JavaScript artifact, and it is the same expression that is read. -/
theorem expr_determined :
    (∀ e e' : Expr, e.Plain → e'.Plain →
      (D.expr e = D.expr e' ↔ e = e') ∧ (JS.expr {} e = JS.expr {} e' ↔ e = e')) ∧
    ∀ (w : PointerWidth) (defs : List LayoutDef) (ls : List Layout) (a : Artifacts),
      Schema.resolve w defs = .ok ls → Artifacts.ofLayouts w ls = .ok a →
      ∀ g ∈ a.program.functions, g.kind.isOffsetArithmetic = true →
        ∃ e, e.Plain ∧ g.body = [.ret (some e)] ∧ ∀ e' : Expr, e'.Plain →
          (ReadsAs D.dialect g e' ↔ e' = e) ∧ (ReadsAs (JS.dialect {}) g e' ↔ e' = e) := by
  constructor
  · intro e e' he he'
    exact ⟨⟨Legible.eq_of_text_eq (D.legible he) he', congrArg _⟩,
      ⟨Legible.eq_of_text_eq (JS.legible he) he', congrArg _⟩⟩
  · intro w defs ls a hresolve ha g hg hkind
    obtain ⟨hp, -⟩ := Artifacts.eq_of_ofLayouts ha
    obtain ⟨e, hbody, he⟩ := Code.plain_of_mem_functions hresolve hp hg hkind
    exact ⟨e, he, hbody, fun e' he' => ⟨readsAs_iff hbody (D.legible he) he',
      readsAs_iff hbody (JS.legible he) he'⟩⟩

/-- `a + (b + 1)`. -/
def sumToTheRight : Expr :=
  .bin .add (.var "a") (.bin .add (.var "b") (.const 1))

/-- `(a + b) + 1`. -/
def sumToTheLeft : Expr :=
  .bin .add (.bin .add (.var "a") (.var "b")) (.const 1)

/-- How a sum is bracketed can be read off either text, and the arithmetic of the buffer layouts off
either artifact. -/
theorem expr_determined_hashed :
    (sumToTheRight.Plain ∧ sumToTheLeft.Plain ∧
      (D.expr sumToTheRight = D.expr sumToTheLeft ↔ sumToTheRight = sumToTheLeft) ∧
      (JS.expr {} sumToTheRight = JS.expr {} sumToTheLeft ↔ sumToTheRight = sumToTheLeft)) ∧
    Schema.resolve .eight [Code.bufferDef none none, Code.hashedDef] =
        .ok [Code.bufferLayout none none, Code.hashedLayout] ∧
      ∃ a, Artifacts.ofLayouts .eight [Code.bufferLayout none none, Code.hashedLayout] = .ok a ∧
        ∀ g ∈ a.program.functions, g.kind.isOffsetArithmetic = true →
          ∃ e, e.Plain ∧ g.body = [.ret (some e)] ∧ ∀ e' : Expr, e'.Plain →
            (ReadsAs D.dialect g e' ↔ e' = e) ∧ (ReadsAs (JS.dialect {}) g e' ↔ e' = e) := by
  have ha : Expr.Plain (.var "a") := .var (by decide)
  have hb : Expr.Plain (.var "b") := .var (by decide)
  have hright : sumToTheRight.Plain := .bin ha (.bin hb .const)
  have hleft : sumToTheLeft.Plain := .bin (.bin ha hb) .const
  have hresolve : Schema.resolve .eight [Code.bufferDef none none, Code.hashedDef] =
      .ok [Code.bufferLayout none none, Code.hashedLayout] := by decide
  obtain ⟨p, hp⟩ := Code.exists_ofLayouts hresolve
  have hartifacts := congrArg (Except.map (Artifacts.ofProgram {} {})) hp
  obtain ⟨hiff, hprogram⟩ := expr_determined
  exact ⟨⟨hright, hleft, hiff _ _ hright hleft⟩, hresolve, _, hartifacts,
    hprogram _ _ _ _ hresolve hartifacts⟩

end HeapLayout.Artifact
