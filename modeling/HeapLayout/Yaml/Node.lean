import HeapLayout.Yaml.Tag

/-!
# YAML nodes

A document is a tree of scalars, sequences and mappings. A node may carry an anchor and be referred
to elsewhere; a reference is kept as a number, and the document says which node it stands for.

An anchor is numbered by the distinct names that were anchored before it, and a number stands for
the last node that was given it.

References make it possible that a small document stands for an enormous tree. So whoever reads a
document may follow a limited number of references only, a hundred for each mark in it.
-/

namespace HeapLayout.Yaml

inductive Node where
  /-- Text, which is plain if it was written without quotes and not as a block. -/
  | scalar (text : String) (plain : Bool) (tag : Option Tag)
  | sequence (items : List Node) (tag : Option Tag)
  | mapping (entries : List (Node × Node)) (tag : Option Tag)
  | reference (number : Nat)
  deriving Repr, Inhabited

namespace Node

/-- A node that is not there at all. -/
def empty : Node := scalar "" true none

/-- Whether nothing, or nothing but properties, was written for the node. -/
def isEmpty : Node → Bool
  | scalar text plain _ => plain && text.isEmpty
  | _ => false

mutual

/-- The number of marks that a node is written with: one for a scalar or a reference, and for a
collection one at its start and one at its end. -/
def marks : Node → Nat
  | scalar _ _ _ | reference _ => 1
  | sequence items _ => marksOfItems items + 2
  | mapping entries _ => marksOfEntries entries + 2

def marksOfItems : List Node → Nat
  | [] => 0
  | n :: ns => n.marks + marksOfItems ns

def marksOfEntries : List (Node × Node) → Nat
  | [] => 0
  | (k, v) :: es => k.marks + v.marks + marksOfEntries es

end

end Node

structure Document where
  /-- Missing if the text holds no document. -/
  root : Option Node
  /-- The node that each number stands for. -/
  anchored : List (Nat × Node) := []

/-- The number of references that a reader of the document may follow. -/
def Document.referenceLimit (d : Document) : Nat :=
  100 * (d.root.map Node.marks).getD 0

/-! ## Reading -/

/-- A reading of nodes that may fail. Its state is the number of references that it may still
follow. -/
abbrev Reading := StateT Nat Option

/-- The node itself, or the one that it refers to. -/
def Document.follow (d : Document) : Node → Reading Node
  | .reference number => do
    match ← get with
    | 0 => failure
    | left + 1 =>
      set left
      d.anchored.lookup number
  | n => return n

/-- Reads the root of a document, if there is one. -/
def Document.read? {α : Type} (d : Document) (read : Node → Reading α) (missing : α) : Option α :=
  match d.root with
  | none => some missing
  | some n => ((read n).run d.referenceLimit).map (·.1)

end HeapLayout.Yaml
