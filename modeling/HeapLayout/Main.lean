import HeapLayout.Command

/-!
# The program

Performs the script of a command line. The output of a command is printed as it comes, its failure
at the end. A fault of the system is told to the script by its code.
-/

namespace HeapLayout.Main

/-- The fault of a code of the system, which describes it in its own words. -/
def ofCode (code : UInt32) (description : String) : OsError :=
  if code = 2 then .notFound
  else if code = 16 then .busy
  else if code = 17 then .alreadyExists
  else if code = 20 then .notDirectory
  else if code = 21 then .isDirectory
  else if code = 36 then .nameTooLong
  else .other description code.toNat

/-- The fault that an error of the system stands for. -/
def osError : IO.Error → OsError
  | .noFileOrDirectory _ _ _ => .notFound
  | .alreadyExists _ code description | .inappropriateType _ code description
  | .invalidArgument _ code description | .permissionDenied _ code description
  | .resourceExhausted _ code description | .noSuchThing _ code description
  | .resourceBusy code description | .illegalOperation code description
  | .resourceVanished code description | .unsupportedOperation code description
  | .hardwareFault code description | .unsatisfiedConstraints code description
  | .protocolError code description | .timeExpired code description
  | .otherError code description => ofCode code description
  | .interrupted _ code description => ofCode code description
  | e => .other e.toString 0

/-- The outcome of an action, its fault being told. -/
def attempt {α : Type} (action : IO α) : IO (Except OsError α) := do
  try return .ok (← action)
  catch e => return .error (osError e)

def readText (path : String) : IO (Except ReadError String) := do
  match ← attempt (IO.FS.readBinFile path) with
  | .error e => return .error (.os e)
  | .ok bytes =>
    match String.fromUTF8? bytes with
    | some text => return .ok text
    | none => return .error .invalidUtf8

/-- Makes an empty file under the first of some names that is not taken. -/
def createTemporary (directory : String) : List String → IO (Except OsError String)
  | [] => return .error .alreadyExists
  | name :: names => do
    let file := Path.join directory name
    match ← attempt (IO.FS.Handle.mk file .writeNew) with
    | .ok _ => return .ok file
    | .error .alreadyExists => createTemporary directory names
    | .error e => return .error e

def answer : (r : Request) → IO r.Answer
  | .print text => IO.print text
  | .printError text => IO.eprint text
  | .readText path => readText path
  | .makeDirectories path => attempt (IO.FS.createDirAll path)
  | .createTemporary directory => do
    let suffixes ← (List.range 100).mapM fun _ => IO.rand 100000 999999
    createTemporary directory (suffixes.map fun n => ".tmp" ++ Numeral.ofNat n)
  | .write file content => attempt (IO.FS.writeFile file content)
  | .flush file => attempt do (← IO.FS.Handle.mk file .append).flush
  | .rename file target => attempt (IO.FS.rename file target)
  | .discard file => do
    let _ ← attempt (IO.FS.removeFile file)

def perform {α : Type} : Script α → IO α
  | .pure a => return a
  | .request r rest => do perform (rest (← answer r))

end HeapLayout.Main

def main (args : List String) : IO UInt32 := do
  return (← HeapLayout.Main.perform (HeapLayout.Command.program args)).toUInt32
