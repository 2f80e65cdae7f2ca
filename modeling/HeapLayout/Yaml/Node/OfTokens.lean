import HeapLayout.Yaml.Node
import HeapLayout.Yaml.Token

/-!
# From tokens to nodes

The grammar needs one token of lookahead. What is missing in a collection, such as the value of a
key, is an empty node. A text holds at most one document.
-/

namespace HeapLayout.Yaml

/-- A node with an anchor. -/
structure Anchoring where
  number : Nat
  /-- How many anchors stand in front of it. -/
  order : Nat
  node : Node

structure Reader where
  tokens : Array Token
  position : Nat := 0
  /-- What the tag handles stand for. -/
  handles : List (String × Tag) := []
  /-- The names anchored so far, with their last numbers. -/
  names : List (String × Nat) := []
  /-- How many anchors there have been so far. -/
  anchors : Nat := 0
  anchorings : List Anchoring := []

namespace Reader

def head? (r : Reader) : Option Token :=
  r.tokens[r.position]?

def next (r : Reader) : Reader :=
  { r with position := r.position + 1 }

def remaining (r : Reader) : Nat :=
  r.tokens.size - r.position

/-- Whether the next token is one of a list. -/
def sees (r : Reader) (ts : List Token) : Bool :=
  r.head?.any ts.contains

/-! ## Properties of nodes -/

structure Properties where
  anchor : Option String := none
  tag : Option Tag := none

/-- The tag that a handle and a suffix stand for. -/
def tag? (r : Reader) (handle : String) (suffix : Tag) : Option Tag :=
  if handle.isEmpty then some suffix else (r.handles.lookup handle).map (·.append suffix)

/-- Reads an anchor and a tag, in either order; both may be missing. -/
def properties? (r : Reader) : Option (Properties × Reader) :=
  match r.head? with
  | some (.anchor a) =>
    match r.next.head? with
    | some (.tag h s) => do return ({ anchor := a, tag := ← r.tag? h s }, r.next.next)
    | _ => some ({ anchor := a }, r.next)
  | some (.tag h s) =>
    match r.next.head? with
    | some (.anchor a) => do return ({ anchor := a, tag := ← r.tag? h s }, r.next.next)
    | _ => do return ({ tag := ← r.tag? h s }, r.next)
  | _ => some ({}, r)

/-- What is known of an anchored node in front of the node itself. -/
structure Pending where
  number : Nat
  order : Nat

/-- Numbers an anchor. -/
def openAnchor (r : Reader) : Option String → Option Pending × Reader
  | none => (none, r)
  | some name =>
    let number := r.names.length
    (some { number, order := r.anchors },
      { r with
        names := (name, number) :: r.names.filter (·.1 != name)
        anchors := r.anchors + 1 })

/-- Records the node behind an anchor. -/
def closeAnchor (r : Reader) (node : Node) : Option Pending → Reader
  | none => r
  | some p =>
    { r with anchorings := { number := p.number, order := p.order, node } :: r.anchorings }

/-- Moves over the comma in front of every part of a flow collection but the first. -/
def skipComma? (r : Reader) (first : Bool) : Option Reader :=
  if first then some r
  else if r.head? == some .flowEntry then some r.next
  else none

/-! ## The grammar -/

mutual

/-- Reads a node. Block collections are allowed if `block` holds, a sequence whose hyphens are not
indented if `indentless` holds. -/
def node? (block indentless : Bool) (r : Reader) : Option (Node × Reader) := do
  match r.head? with
  | some (.reference name) => return (.reference (← r.names.lookup name), r.next)
  | _ =>
    let (p, s) ← r.properties?
    let (pending, s) := s.openAnchor p.anchor
    let close (n : Node × Reader) : Node × Reader := (n.1, n.2.closeAnchor n.1 pending)
    if _h : s.remaining ≤ r.remaining then
      match s.head? with
      | some (.scalar text plain) => return close (.scalar text plain p.tag, s.next)
      | some .flowSequenceStart =>
        if _h : s.next.remaining < s.remaining then
          let (items, s) ← flowItems? true s.next
          return close (.sequence items p.tag, s)
        else none
      | some .flowMappingStart =>
        if _h : s.next.remaining < s.remaining then
          let (entries, s) ← flowEntries? true s.next
          return close (.mapping entries p.tag, s)
        else none
      | t =>
        if t == some .blockEntry && indentless then
          let (items, s) ← indentlessItems? s
          return close (.sequence items p.tag, s)
        else if t == some .blockSequenceStart && block then
          if _h : s.next.remaining < s.remaining then
            let (items, s) ← blockItems? s.next
            return close (.sequence items p.tag, s)
          else none
        else if t == some .blockMappingStart && block then
          if _h : s.next.remaining < s.remaining then
            let (entries, s) ← blockEntries? s.next
            return close (.mapping entries p.tag, s)
          else none
        else if p.anchor.isSome || p.tag.isSome then
          return close (.scalar "" true p.tag, s)
        else none
    else none
termination_by 3 * r.remaining + 1

/-- Reads the items of a block sequence, and its end. -/
def blockItems? (r : Reader) : Option (List Node × Reader) := do
  match r.head? with
  | some .blockEnd => return ([], r.next)
  | some .blockEntry =>
    if _h : r.next.remaining < r.remaining then
      let (item, s) ← if r.next.sees [.blockEntry, .blockEnd] then some (.empty, r.next)
        else node? true false r.next
      if _h : s.remaining < r.remaining then
        let (items, s) ← blockItems? s
        return (item :: items, s)
      else none
    else none
  | _ => none
termination_by 3 * r.remaining + 0

/-- Reads the items of a sequence that has no start and no end of its own. -/
def indentlessItems? (r : Reader) : Option (List Node × Reader) := do
  match r.head? with
  | some .blockEntry =>
    if _h : r.next.remaining < r.remaining then
      let (item, s) ←
        if r.next.sees [.blockEntry, .key, .value, .blockEnd] then some (.empty, r.next)
        else node? true false r.next
      if _h : s.remaining < r.remaining then
        let (items, s) ← indentlessItems? s
        return (item :: items, s)
      else none
    else none
  | _ => return ([], r)
termination_by 3 * r.remaining + 0

/-- Reads the entries of a block mapping, and its end. -/
def blockEntries? (r : Reader) : Option (List (Node × Node) × Reader) := do
  match r.head? with
  | some .blockEnd => return ([], r.next)
  | some .key =>
    if _h : r.next.remaining < r.remaining then
      let (key, s) ← if r.next.sees [.key, .value, .blockEnd] then some (.empty, r.next)
        else node? true true r.next
      if _h : s.remaining < r.remaining then
        let (value, s) ← blockValue? s
        if _h : s.remaining < r.remaining then
          let (entries, s) ← blockEntries? s
          return ((key, value) :: entries, s)
        else none
      else none
    else none
  | _ => none
termination_by 3 * r.remaining + 0

/-- Reads the value behind a key of a block mapping, which may be missing. -/
def blockValue? (r : Reader) : Option (Node × Reader) :=
  match r.head? with
  | some .value =>
    if r.next.sees [.key, .value, .blockEnd] then some (.empty, r.next)
    else if _h : r.next.remaining < r.remaining then node? true true r.next
    else none
  | _ => some (.empty, r)
termination_by 3 * r.remaining + 0

/-- Reads the items of a flow sequence, and its end. All but the first follow a comma. -/
def flowItems? (first : Bool) (r : Reader) : Option (List Node × Reader) := do
  if r.head? == some .flowSequenceEnd then return ([], r.next)
  else
    let s ← r.skipComma? first
    if _h : s.remaining ≤ r.remaining then
      if s.head? == some .flowSequenceEnd then return ([], s.next)
      else
        let (item, t) ←
          if s.head? == some .key then
            if _h : s.next.remaining < r.remaining then
              (flowPair? s.next).map fun e => (.mapping [e.1] none, e.2)
            else none
          else node? false false s
        if _h : t.remaining < r.remaining then
          let (items, t) ← flowItems? false t
          return (item :: items, t)
        else none
    else none
termination_by 3 * r.remaining + 2

/-- Reads a single entry that stands in a flow sequence, behind the announcement of its key. If the
key is missing, so is the token behind the announcement. -/
def flowPair? (r : Reader) : Option ((Node × Node) × Reader) := do
  let (key, s) ←
    if r.sees [.value, .flowEntry, .flowSequenceEnd] then some (.empty, r.next)
    else node? false false r
  if _h : s.remaining < r.remaining then
    let (value, s) ← flowValue? .flowSequenceEnd s
    return ((key, value), s)
  else none
termination_by 3 * r.remaining + 2

/-- Reads the entries of a flow mapping, and its end. All but the first follow a comma. -/
def flowEntries? (first : Bool) (r : Reader) : Option (List (Node × Node) × Reader) := do
  if r.head? == some .flowMappingEnd then return ([], r.next)
  else
    let s ← r.skipComma? first
    if _h : s.remaining ≤ r.remaining then
      if s.head? == some .flowMappingEnd then return ([], s.next)
      else if s.head? == some .key then
        if _h : s.next.remaining < r.remaining then
          let (key, t) ←
            if s.next.sees [.value, .flowEntry, .flowMappingEnd] then some (.empty, s.next)
            else node? false false s.next
          if _h : t.remaining < r.remaining then
            let (value, t) ← flowValue? .flowMappingEnd t
            if _h : t.remaining < r.remaining then
              let (entries, t) ← flowEntries? false t
              return ((key, value) :: entries, t)
            else none
          else none
        else none
      else
        let (key, t) ← node? false false s
        if _h : t.remaining < r.remaining then
          let (entries, t) ← flowEntries? false t
          return ((key, .empty) :: entries, t)
        else none
    else none
termination_by 3 * r.remaining + 2

/-- Reads the value behind a key in a flow collection, which may be missing. -/
def flowValue? (closing : Token) (r : Reader) : Option (Node × Reader) :=
  match r.head? with
  | some .value =>
    if r.next.sees [.flowEntry, closing] then some (.empty, r.next)
    else if _h : r.next.remaining < r.remaining then node? false false r.next
    else none
  | _ => some (.empty, r)
termination_by 3 * r.remaining + 0

end

/-! ## Documents -/

/-- The handles that every document knows. -/
def defaultHandles : List (String × Tag) :=
  [("!", .ofString "!"), ("!!", .ofString "tag:yaml.org,2002:")]

structure Directives where
  version : Option (Nat × Nat) := none
  handles : List (String × Tag) := []

/-- Reads the directives in front of a document. A directive may be given once; the version is 1.1
or 1.2. -/
def directives? (ds : Directives) : List Token → Option (Directives × Nat)
  | .versionDirective major minor :: ts =>
    if ds.version.isSome || major != 1 || (minor != 1 && minor != 2) then none
    else do
      let (ds, n) ← directives? { ds with version := some (major, minor) } ts
      return (ds, n + 1)
  | .tagDirective handle start :: ts =>
    if (ds.handles.lookup handle).isSome then none
    else do
      let (ds, n) ← directives? { ds with handles := (handle, start) :: ds.handles } ts
      return (ds, n + 1)
  | _ => some (ds, 0)

def isDocumentBoundary : Token → Bool
  | .versionDirective _ _ | .tagDirective _ _ | .documentStart | .documentEnd => true
  | _ => false

/-- Reads the root of a document. -/
def root? (r : Reader) : Option (Option Node × Reader) := do
  let (ds, n) ← directives? {} r.tokens.toList
  let r := { r with position := n, handles := ds.handles ++ defaultHandles }
  match r.head? with
  | none => if n = 0 then return (none, r) else none
  | some .documentStart =>
    if r.next.head?.all isDocumentBoundary then return (some .empty, r.next)
    else
      let (root, r) ← r.next.node? true false
      return (some root, r)
  | some _ =>
    if n = 0 then
      let (root, r) ← r.node? true false
      return (some root, r)
    else none

/-- For each number the last node that was given it. -/
def anchored (anchorings : List Anchoring) : List (Nat × Node) :=
  (anchorings.mergeSort fun a b => a.order ≥ b.order).map fun a => (a.number, a.node)

end Reader

/-- The document that a list of tokens stands for. Nothing but end markers may follow it. -/
def Document.ofTokens? (ts : Array Token) : Option Document := do
  let (root, r) ← Reader.root? { tokens := ts }
  if (ts.toList.drop r.position).all (· == .documentEnd) then
    return { root, anchored := Reader.anchored r.anchorings }
  else none

end HeapLayout.Yaml
