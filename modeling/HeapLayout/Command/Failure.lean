import HeapLayout.Code.Error
import HeapLayout.Command.Script
import HeapLayout.Schema.Error
import HeapLayout.Text.Lines

/-!
# Failures of a command

A failure is told as one sentence and the causes behind it, the nearest first. A single cause stands
on its own, several are numbered. The text of a cause comes in parts, since a name may have several
lines, which then stay indented below the cause; a line end at the end of a name is not told.
-/

namespace HeapLayout.Command

/-- Why a file cannot be replaced. -/
inductive ReplaceError where
  | makeDirectory (directory : String) (error : OsError)
  | createTemporary (directory : String) (error : OsError)
  | write (error : OsError)
  | flush (error : OsError)
  | putInPlace (error : OsError)
  deriving DecidableEq, Repr

inductive Failure where
  | unreadableSchema (path : String) (error : ReadError)
  /-- The file is no YAML, or no schema. -/
  | malformedSchema (path : String)
  | unsupportedWidth (bytes : Nat)
  | invalidSchema (error : SchemaError)
  | synthesis (error : Code.BuildError)
  | unknownLayout (name : String)
  | unwritable (path : String) (error : ReplaceError)
  deriving DecidableEq, Repr

namespace Failure

def message : Failure → String
  | unreadableSchema path _ => s!"Failed to read schema file {path}"
  | malformedSchema path => s!"Invalid schema file {path}"
  | unsupportedWidth n => (SchemaError.invalidPointerWidth n).message
  | invalidSchema _ => "Layout schema is invalid"
  | synthesis _ => "Failed to synthesize layout functions"
  | unknownLayout name => s!"Layout '{name}' not found in schema"
  | unwritable _ (.makeDirectory dir _) => s!"Failed to create output directory {dir}"
  | unwritable _ (.createTemporary dir _) => s!"Failed to create temporary file in {dir}"
  | unwritable path (.write _) => s!"Failed to write {path}"
  | unwritable path (.flush _) => s!"Failed to flush {path}"
  | unwritable path (.putInPlace _) => s!"Failed to replace {path}"

/-- What is said of a text that is no schema. -/
def parseFailure : String := "Failed to parse layout schema YAML"

/-- The causes, each in parts. -/
def causes : Failure → List (List String)
  | unreadableSchema _ e => [[e.message]]
  | malformedSchema _ => [[parseFailure], ["the text is not a well-formed layout schema"]]
  | unsupportedWidth _ => []
  | invalidSchema e => [e.parts]
  | synthesis e => [[e.message]]
  | unknownLayout _ => []
  | unwritable _ (.makeDirectory _ e) | unwritable _ (.createTemporary _ e)
  | unwritable _ (.write e) | unwritable _ (.flush e) => [[e.message]]
  | unwritable _ (.putInPlace e) =>
    [["failed to persist temporary file: ", e.message], [e.message]]

/-! ## Wording -/

/-- The parts of a text one after the other, where the lines of a part after its first are
indented. -/
def hang (indentation : String) (parts : List String) : String :=
  String.join (parts.map fun p => String.intercalate ("\n" ++ indentation) (Lines.ofString p))

def causeLines : List (List String) → List String
  | [cause] => ["    " ++ hang "    " cause]
  | causes =>
    causes.zipIdx.map fun c =>
      let number := Numeral.ofNat c.2
      String.ofList (List.replicate (5 - number.length) ' ') ++ number ++ ": " ++
        hang "       " c.1

/-- The whole text of a failure. -/
def report (f : Failure) : String :=
  let causes := if f.causes.isEmpty then []
    else "" :: "Caused by:" :: causeLines f.causes
  String.join ((("Error: " ++ f.message) :: causes).map (· ++ "\n"))

end Failure

end HeapLayout.Command
