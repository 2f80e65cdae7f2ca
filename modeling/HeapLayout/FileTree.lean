/-!
# File trees

A model of the part of a file system that the command line works on: regular files with their
bytes, directories, and a working directory. A path is a text of limited length; it is resolved step
by step, a missing directory, a file in the place of a directory and a name that is too long each
being a fault of its own.

There are no links, so where a path leads can be read off its text (`FileTree.location`), whether or
not anything stands there. Two paths denote the same file if and only if they have one location.
-/

namespace HeapLayout

/-- Why the operating system refuses an operation. -/
inductive OsError where
  | notFound
  | busy
  | alreadyExists
  | notDirectory
  | isDirectory
  | nameTooLong
  /-- Any other cause, such as a missing permission or a full device. -/
  | other (description : String) (code : Nat)
  deriving DecidableEq, Repr

def OsError.message : OsError → String
  | notFound => "No such file or directory (os error 2)"
  | busy => "Device or resource busy (os error 16)"
  | alreadyExists => "File exists (os error 17)"
  | notDirectory => "Not a directory (os error 20)"
  | isDirectory => "Is a directory (os error 21)"
  | nameTooLong => "File name too long (os error 36)"
  | other description code => s!"{description} (os error {code})"

/-! ## Paths as texts -/

namespace Path

/-- The parts of a path between its slashes. -/
def segments (path : String) : List String :=
  (path.toList.splitOn '/').map String.ofList

def isAbsolute (path : String) : Bool :=
  path.startsWith "/"

/-- A file in a directory. -/
def join (dir file : String) : String :=
  if isAbsolute file then file
  else if dir.isEmpty || dir.endsWith "/" then dir ++ file
  else dir ++ "/" ++ file

/-- Drops slashes and parts of a single dot at the end; the first part of a relative path stays. -/
def trimEnd (segments : List String) : List String :=
  match segments with
  | [] => []
  | first :: rest =>
    first :: (rest.reverse.dropWhile fun s => s.isEmpty || s == ".").reverse

/-- The directory of a path, as it is written: the empty text for a file in the working directory,
nothing for the root. -/
def parent? (path : String) : Option String :=
  match trimEnd (segments path) with
  | [] | [""] => if isAbsolute path then none else some ""
  | [_] => some ""
  | parts =>
    match trimEnd parts.dropLast with
    | [""] => some "/"
    | parts => some (String.intercalate "/" parts)

end Path

/-! ## Locations -/

/-- A place in the tree: the names from the root down. -/
abbrev Location := List String

/-- Where a name leads from a directory. The directory above the root is the root itself. -/
def Location.enter (l : Location) (name : String) : Location :=
  if name.isEmpty || name == "." then l
  else if name == ".." then l.dropLast
  else l ++ [name]

structure FileTree where
  files : List (Location × ByteArray) := []
  /-- Known directories. Whatever stands above one of them, or above a file, is a directory, too. -/
  directories : List Location := []
  workingDirectory : Location := ["work"]

/-- What stands at a location. -/
inductive Entry where
  | file (content : ByteArray)
  | directory
  | missing

namespace FileTree

/-- Whether something is known to stand at a location or below it. -/
def reaches (t : FileTree) (l : Location) : Bool :=
  l.isPrefixOf t.workingDirectory || t.directories.any (l.isPrefixOf ·) ||
    t.files.any fun f => l.isPrefixOf f.1

/-- The content of the regular file at a location. -/
def file? (t : FileTree) (l : Location) : Option ByteArray :=
  t.files.lookup l

def entry (t : FileTree) (l : Location) : Entry :=
  match t.file? l with
  | some content => .file content
  | none => if t.reaches l then .directory else .missing

/-! ## Resolving paths -/

/-- Where resolving a path starts. -/
def start (t : FileTree) (path : String) : Location :=
  if Path.isAbsolute path then [] else t.workingDirectory

/-- The names that resolving a path goes through. -/
def names (path : String) : List String :=
  (Path.segments path).filter (!·.isEmpty)

/-- Where a path leads, if it can be resolved. -/
def location (t : FileTree) (path : String) : Location :=
  (names path).foldl Location.enter (t.start path)

/-- A path that is passed to the system is shorter than 4096 bytes. -/
def checkLength (path : String) : Except OsError Unit :=
  if path.utf8ByteSize < 4096 then .ok () else .error .nameTooLong

/-- Goes from a directory to the place of a name. -/
def enter (l : Location) (name : String) : Except OsError Location :=
  if name.utf8ByteSize > 255 then .error .nameTooLong else .ok (l.enter name)

/-- Whether a location is a directory that can be gone through. -/
def requireDirectory (t : FileTree) (l : Location) : Except OsError Unit :=
  match t.entry l with
  | .directory => .ok ()
  | .file _ => .error .notDirectory
  | .missing => .error .notFound

/-- Goes through directories, one name after the other. -/
def walk (t : FileTree) (l : Location) : List String → Except OsError Location
  | [] => .ok l
  | name :: names => do
    t.requireDirectory l
    t.walk (← enter l name) names

/-- A path with a slash at its end leads to a directory only. -/
def checkEnd (t : FileTree) (path : String) (l : Location) : Except OsError Unit :=
  if path.endsWith "/" then t.requireDirectory l else .ok ()

/-- The place of a path. -/
def resolve (t : FileTree) (path : String) : Except OsError Location := do
  checkLength path
  let l ← t.walk (t.start path) (names path)
  t.checkEnd path l
  return l

/-- The place of a path whose last name stands for a file that need not be there. -/
def resolveTarget (t : FileTree) (path : String) : Except OsError Location := do
  checkLength path
  let dir ← t.walk (t.start path) (names path).dropLast
  t.requireDirectory dir
  match (names path).getLast? with
  | none => throw .busy
  | some name => if name == "." || name == ".." then throw .busy else enter dir name

/-! ## Operations -/

/-- The bytes of a regular file. -/
def read (t : FileTree) (path : String) : Except OsError ByteArray := do
  match t.entry (← t.resolve path) with
  | .file content => return content
  | .directory => throw .isDirectory
  | .missing => throw .notFound

/-- Adds a directory where nothing is. The directories above it need not be kept any longer. -/
def addDirectory (t : FileTree) (l : Location) : FileTree :=
  { t with directories := l :: t.directories.filter (!·.isPrefixOf l) }

/-- Goes through names and makes the directories that are missing; `made` says whether one was. A
file in the way is no directory to go through, but where a directory is to be made, at the end or
below one that was made, it is the file that exists already. Directories that were made stay. -/
def makeFrom (t : FileTree) (made : Bool) (l : Location) :
    List String → FileTree × Except OsError Unit
  | [] => (t, .ok ())
  | name :: names =>
    match enter l name with
    | .error e => (t, .error e)
    | .ok l =>
      match t.entry l with
      | .directory => t.makeFrom made l names
      | .missing => (t.addDirectory l).makeFrom true l names
      | .file _ => (t, .error (if made || names.isEmpty then .alreadyExists else .notDirectory))

/-- Makes a directory and those above it, as far as they are missing. -/
def makeDirectories (t : FileTree) (path : String) : FileTree × Except OsError Unit :=
  match checkLength path with
  | .error e => (t, .error e)
  | .ok () => t.makeFrom false (t.start path) (names path)

/-- The tree without the file at a location. -/
def remove (t : FileTree) (l : Location) : FileTree :=
  { t with files := t.files.filter (·.1 != l) }

/-- Puts a file in place of whatever file is there. -/
def put (t : FileTree) (l : Location) (content : ByteArray) : FileTree :=
  { t with files := (t.remove l).files ++ [(l, content)] }

/-- Makes an empty file where nothing is. -/
def create (t : FileTree) (path : String) : Except OsError FileTree := do
  let l ← t.resolve path
  match t.entry l with
  | .missing => return t.put l .empty
  | _ => throw .alreadyExists

/-- Makes an empty file in a directory, under the first of some names that is not taken. -/
def createTemporary (t : FileTree) (dir : String) :
    List String → Except OsError (String × FileTree)
  | [] => .error .alreadyExists
  | name :: names =>
    match t.create (Path.join dir name) with
    | .ok t => .ok (Path.join dir name, t)
    | .error .alreadyExists => t.createTemporary dir names
    | .error e => .error e

/-- Whether a file can be put in place at a location. -/
def checkTarget (t : FileTree) (path : String) (l : Location) : Except OsError Unit :=
  if path.endsWith "/" then .error .notDirectory
  else
    match t.entry l with
    | .directory => .error .isDirectory
    | _ => .ok ()

/-- Moves a file to an existing directory, in place of whatever file is there. -/
def rename (t : FileTree) (source target : String) : Except OsError FileTree := do
  let content ← t.read source
  let l ← t.resolveTarget target
  t.checkTarget target l
  return (t.remove (t.location source)).put l content

/-! ## Building and comparing -/

/-- Adds a file below the working directory, or a directory if there is no content. -/
def add (t : FileTree) (path : String) (content : Option ByteArray) : FileTree :=
  let l := t.location path
  match content with
  | some bytes => { t with files := t.files ++ [(l, bytes)] }
  | none => { t with directories := t.directories ++ [l] }

def ofEntries (entries : List (String × Option ByteArray)) : FileTree :=
  entries.foldl (fun t e => t.add e.1 e.2) {}

/-- The files below the working directory that are new or have changed, with their paths from
there. -/
def changesSince (t old : FileTree) : List (String × ByteArray) :=
  (t.files.filter fun f =>
      old.file? f.1 != some f.2 && t.workingDirectory.isPrefixOf f.1).map fun f =>
    (String.intercalate "/" (f.1.drop t.workingDirectory.length), f.2)

end FileTree

end HeapLayout
