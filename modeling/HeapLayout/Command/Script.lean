import HeapLayout.FileTree
import HeapLayout.Text.Numeral

/-!
# Scripts

What a command does to the world is a value: a tree of requests, in which what comes next depends on
the answer. A script can be run in a host with a file tree (`Script.runIn`), which is what theorems
are about, or performed by the system.

A host is what a script cannot know of its system. It may refuse any request with any error, be it
for a lack of permission or of space, and it names the temporary files. A run in the plain host
(`Script.runOn`) fails for reasons of the file tree only.
-/

namespace HeapLayout

/-! ## Requests -/

/-- Why a text cannot be read. -/
inductive ReadError where
  | os (error : OsError)
  | invalidUtf8
  deriving DecidableEq, Repr

def ReadError.message : ReadError → String
  | os e => e.message
  | invalidUtf8 => "stream did not contain valid UTF-8"

inductive Request where
  | print (text : String)
  | printError (text : String)
  | readText (path : String)
  | makeDirectories (path : String)
  /-- Makes an empty file under a name that is not taken, and answers with its path. -/
  | createTemporary (directory : String)
  | write (file content : String)
  /-- Waits until what was written is stored. -/
  | flush (file : String)
  /-- Moves a file in one step, in place of whatever file is there. -/
  | rename (file target : String)
  /-- Deletes a temporary file. -/
  | discard (file : String)
  deriving DecidableEq, Repr

@[reducible] def Request.Answer : Request → Type
  | print _ | printError _ | discard _ => Unit
  | readText _ => Except ReadError String
  | createTemporary _ => Except OsError String
  | makeDirectories _ | write _ _ | flush _ | rename _ _ => Except OsError Unit

/-! ## Scripts -/

inductive Script (α : Type) where
  | pure (result : α)
  | request (r : Request) (rest : r.Answer → Script α)

namespace Script

variable {α β : Type}

def bind (s : Script α) (f : α → Script β) : Script β :=
  match s with
  | pure a => f a
  | request r rest => request r fun answer => (rest answer).bind f

instance : Monad Script where
  pure := pure
  bind := bind

theorem bind_pure (s : Script α) : s.bind pure = s := by
  induction s with
  | pure a => rfl
  | request r rest ih => exact congrArg (request r) (funext ih)

theorem bind_bind {γ : Type} (s : Script α) (f : α → Script β) (g : β → Script γ) :
    (s.bind f).bind g = s.bind fun a => (f a).bind g := by
  induction s with
  | pure a => rfl
  | request r rest ih => exact congrArg (request r) (funext ih)

instance : LawfulMonad Script :=
  LawfulMonad.mk' Script bind_pure (fun _ _ => rfl) bind_bind

/-- The script of a single request. -/
def ask (r : Request) : Script r.Answer :=
  request r pure

end Script

/-! ## Hosts -/

structure Host where
  /-- The error with which the host refuses a request, counted from the start of a run. -/
  refusal : Nat → Option OsError := fun _ => none
  /-- How far it got before: the number of bytes written, or of directories gone through. -/
  progress : Nat → Nat := fun _ => 0
  /-- The names that it tries for a temporary file. -/
  temporaryNames : Nat → List String := fun _ =>
    (List.range 100).map fun k => ".tmp" ++ Numeral.ofNat k

namespace FileTree

def readText (t : FileTree) (path : String) : Except ReadError String :=
  match t.read path with
  | .error e => .error (.os e)
  | .ok bytes =>
    match String.fromUTF8? bytes with
    | some text => .ok text
    | none => .error .invalidUtf8

/-- Carries out a request; `names` are those to try for a temporary file. -/
def grant (t : FileTree) (names : List String) : (r : Request) → FileTree × r.Answer
  | .print _ | .printError _ => (t, ())
  | .readText path => (t, t.readText path)
  | .makeDirectories path => t.makeDirectories path
  | .createTemporary directory =>
    match t.createTemporary directory names with
    | .ok (file, t) => (t, .ok file)
    | .error e => (t, .error e)
  | .write file content => (t.put (t.location file) content.toUTF8, .ok ())
  | .flush _ => (t, .ok ())
  | .rename file target =>
    match t.rename file target with
    | .ok t => (t, .ok ())
    | .error e => (t, .error e)
  | .discard file => (t.remove (t.location file), ())

/-- What is left of a request that is refused after some progress. Printing and discarding cannot be
refused. -/
def refuse (t : FileTree) (progress : Nat) (e : OsError) : (r : Request) → FileTree × r.Answer
  | .print _ | .printError _ => (t, ())
  | .readText _ => (t, .error (.os e))
  | .makeDirectories path =>
    ((t.makeFrom false (t.start path) ((names path).take progress)).1, .error e)
  | .createTemporary _ | .flush _ | .rename _ _ => (t, .error e)
  | .write file content =>
    (t.put (t.location file) (content.toUTF8.extract 0 progress), .error e)
  | .discard file => (t.remove (t.location file), ())

/-- What a host makes of the `n`-th request of a run. -/
def answer (t : FileTree) (h : Host) (n : Nat) (r : Request) : FileTree × r.Answer :=
  match h.refusal n with
  | some e => t.refuse (h.progress n) e r
  | none => t.grant (h.temporaryNames n) r

end FileTree

/-! ## Runs -/

/-- What a run has done so far. -/
structure Session where
  tree : FileTree
  output : String := ""
  errorOutput : String := ""
  /-- The number of requests. -/
  requests : Nat := 0

/-- The session after a request, and the answer to it. -/
def Session.answer (s : Session) (h : Host) (r : Request) : Session × r.Answer :=
  let (tree, answer) := s.tree.answer h s.requests r
  let requests := s.requests + 1
  match r with
  | .print text => ({ s with tree, requests, output := s.output ++ text }, answer)
  | .printError text => ({ s with tree, requests, errorOutput := s.errorOutput ++ text }, answer)
  | _ => ({ s with tree, requests }, answer)

/-- What is left when a script is over. -/
structure Script.Outcome (α : Type) extends Session where
  result : α

/-- Goes on with a script in a session. -/
def Script.runFrom {α : Type} (h : Host) (s : Session) : Script α → Script.Outcome α
  | pure result => { s with result }
  | request r rest =>
    let (s, answer) := s.answer h r
    (rest answer).runFrom h s

/-- Runs a script in a host and a file tree. -/
def Script.runIn {α : Type} (s : Script α) (h : Host) (t : FileTree) : Script.Outcome α :=
  s.runFrom h { tree := t }

/-- Runs a script in a file tree, in a host that refuses nothing. -/
def Script.runOn {α : Type} (s : Script α) (t : FileTree) : Script.Outcome α :=
  s.runIn {} t

end HeapLayout
