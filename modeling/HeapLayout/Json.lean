import HeapLayout.Bits

/-!
# JSON values

Programs and layouts are exported as JSON. A value keeps the members of its objects in the order in
which they are written. Numbers are exact integers; a numeral with a fraction or an exponent is kept
as text, since no part of the data model is one.

The readers below turn a value into a piece of the data model and say nothing about why they fail.
A member of an object is smaller than the object (`sizeOf_lt_of_lookup`), which is what recursive
readers turn on.
-/

namespace HeapLayout

inductive Json where
  | null
  | bool (value : Bool)
  | int (value : Int)
  /-- A numeral with a fraction or an exponent, as written. -/
  | real (text : String)
  | str (text : String)
  | arr (items : List Json)
  | obj (members : List (String × Json))
  deriving Repr, Inhabited

namespace Json

/-! ## Reading parts -/

/-- The member of a given name. -/
def member? : Json → String → Option Json
  | obj ms, key => ms.lookup key
  | _, _ => none

def str? : Json → Option String
  | str s => some s
  | _ => none

def int64? : Json → Option Int
  | int v => if FitsInt64 v then some v else none
  | _ => none

def natUpTo? (limit : Nat) : Json → Option Nat
  | int (.ofNat n) => if n ≤ limit then some n else none
  | _ => none

def uint64? : Json → Option Nat :=
  natUpTo? 18446744073709551615

def uint32? : Json → Option Nat :=
  natUpTo? 4294967295

def items? : Json → Option (List Json)
  | arr xs => some xs
  | _ => none

/-- Reads every item of an array. -/
def list? {α : Type} (read : Json → Option α) : Json → Option (List α)
  | arr xs => xs.mapM read
  | _ => none

/-- Reads a member that has to be there. -/
def get? {α : Type} (j : Json) (key : String) (read : Json → Option α) : Option α :=
  (j.member? key).bind read

/-- Reads a member that may be missing or null. -/
def getOptional? {α : Type} (j : Json) (key : String) (read : Json → Option α) :
    Option (Option α) :=
  match j.member? key with
  | none | some null => some none
  | some v => (read v).map some

/-- Reads a list that may be missing. -/
def getList? {α : Type} (j : Json) (key : String) (read : Json → Option α) : Option (List α) :=
  match j.member? key with
  | none => some []
  | some v => v.list? read

/-! ## Writing parts -/

def ofNat (n : Nat) : Json := int n

def ofOption {α : Type} (write : α → Json) : Option α → Json
  | none => null
  | some a => write a

def ofList {α : Type} (write : α → Json) (xs : List α) : Json :=
  arr (xs.map write)

/-! ## Members are smaller -/

theorem sizeOf_lt_of_lookup {ms : List (String × Json)} {key : String} {v : Json}
    (h : ms.lookup key = some v) : sizeOf v < sizeOf ms := by
  induction ms with
  | nil => simp at h
  | cons m ms ih =>
    obtain ⟨k, x⟩ := m
    rw [List.lookup_cons] at h
    split at h
    · cases h
      simp only [List.cons.sizeOf_spec, Prod.mk.sizeOf_spec]
      omega
    · have := ih h
      simp only [List.cons.sizeOf_spec]
      omega

/-- A member, with the fact that it is smaller than the object. -/
def child? (j : Json) (key : String) : Option { v : Json // sizeOf v < sizeOf j } :=
  match j with
  | obj ms =>
    match h : ms.lookup key with
    | some v => some ⟨v, by
        have := sizeOf_lt_of_lookup h
        simp only [obj.sizeOf_spec]
        omega⟩
    | none => none
  | _ => none

/-- The items of an array that is a member, with the fact that they are smaller than the object. -/
def children? (j : Json) (key : String) : Option { xs : List Json // sizeOf xs < sizeOf j } :=
  match j.child? key with
  | some ⟨arr xs, h⟩ => some ⟨xs, by
      simp only [arr.sizeOf_spec] at h
      omega⟩
  | _ => none

theorem child?_obj (ms : List (String × Json)) (key : String) :
    ((obj ms).child? key).map (·.val) = ms.lookup key := by
  unfold child?
  dsimp only
  split <;> rename_i h <;> exact h.symm

end Json

end HeapLayout
