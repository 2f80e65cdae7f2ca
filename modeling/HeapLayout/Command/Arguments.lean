import HeapLayout.Bits
import HeapLayout.Text.Numeral

/-!
# Command-line arguments

There are two commands, `codegen` and `analyze`. Each takes options, every one of them once at
most: flags, and options with a value, which follows as an argument of its own or, behind an equals
sign or a short name, in the same one. A value of its own does not start with a hyphen. Nothing else
may stand on the command line.

Help can be asked for in place of a command, or among its options. What follows is not read then,
and no command is run; what is in front must be in order.

How arguments are written is a convention, and nothing that the commands do depends on it. An
`ArgumentParser` is any such convention, and `CommandLine.ofArguments` the usual one.
-/

namespace HeapLayout.Command

/-! ## Options as they are written -/

inductive OptionKind where
  | flag
  /-- The option takes a value, which help knows under a name. -/
  | value (name : String) (default : Option String := none)
  /-- The flag that asks for help. -/
  | help
  deriving DecidableEq, Repr

structure OptionSpec where
  long : String
  short : Option Char := none
  kind : OptionKind

/-- An option that was given, with its value. -/
structure Given where
  option : String
  value : String := ""

/-- Whether an argument can be a value of its own. -/
def isDetachedValue (arg : String) : Bool :=
  !arg.startsWith "-" || arg == "-"

/-- What the options in some arguments are, the option that still waits for its value, and whether
help is asked for. -/
structure Parsed where
  given : List Given := []
  waiting : Option String := none
  help : Bool := false

/-- What is given first is put in front. -/
def Parsed.prepend (given : List Given) (p : Parsed) : Parsed :=
  { p with given := given ++ p.given }

/-- A long option, from behind its two hyphens. -/
def parseLong? (specs : List OptionSpec) (text : List Char) : Option Parsed := do
  let name := text.takeWhile (· != '=')
  let spec ← specs.find? fun s => s.long == String.ofList name
  match spec.kind, text.drop name.length with
  | .value _ _, [] => return { waiting := some spec.long }
  | .value _ _, _ :: value =>
    return { given := [{ option := spec.long, value := String.ofList value }] }
  | .flag, [] => return { given := [{ option := spec.long }] }
  | .help, [] => return { help := true }
  | _, _ => none

/-- A group of short options, from behind its hyphen. What follows an option with a value is that
value. -/
def parseShort? (specs : List OptionSpec) : List Char → Option Parsed
  | [] => some {}
  | c :: cs => do
    let spec ← specs.find? fun s => s.short == some c
    match spec.kind, cs with
    | .value _ _, [] => return { waiting := some spec.long }
    | .value _ _, '=' :: value | .value _ _, value =>
      return { given := [{ option := spec.long, value := String.ofList value }] }
    | .flag, cs => return (← parseShort? specs cs).prepend [{ option := spec.long }]
    | .help, _ => return { help := true }

/-- The options of a list of arguments, `waiting` being an option that waits for its value. -/
def parseFrom? (specs : List OptionSpec) (waiting : Option String) :
    List String → Option Parsed
  | [] => if waiting.isSome then none else some {}
  | arg :: args =>
    match waiting with
    | some option =>
      if isDetachedValue arg then do
        return (← parseFrom? specs none args).prepend [{ option, value := arg }]
      else none
    | none =>
      match arg.toList with
      | ['-', '-'] => if args.isEmpty then some {} else none
      | '-' :: '-' :: text => do
        let p ← parseLong? specs text
        if p.help then return p
        return (← parseFrom? specs p.waiting args).prepend p.given
      | '-' :: c :: text => do
        let p ← parseShort? specs (c :: text)
        if p.help then return p
        return (← parseFrom? specs p.waiting args).prepend p.given
      | _ => none

/-- The options of a list of arguments, none of them given twice. -/
def parse? (specs : List OptionSpec) (args : List String) : Option Parsed := do
  let p ← parseFrom? specs none args
  if (p.given.map (·.option)).Nodup then return p else none

/-! ## Values -/

/-- The value of an option that was given. -/
def value? (given : List Given) (option : String) : Option String :=
  (given.find? (·.option == option)).map (·.value)

def isGiven (given : List Given) (option : String) : Bool :=
  (value? given option).isSome

/-- A path that may be missing but not empty. -/
def path? (given : List Given) (option : String) : Option (Option String) :=
  match value? given option with
  | none => some none
  | some "" => none
  | some path => some (some path)

/-- A pointer width, which is an unsigned 64-bit number and eight if it is missing. -/
def pointerBytes? (given : List Given) : Option Nat :=
  match value? given "ptr-width" with
  | none => some 8
  | some text => (Numeral.readUnsigned? 10 text.toList).filter FitsUInt64

/-! ## The two commands -/

structure CodegenOptions where
  file : Option String
  outputDir : String
  dOut : Option String
  jsOut : Option String
  pointerBytes : Nat
  verbose : Bool
  deriving DecidableEq, Repr

structure AnalyzeOptions where
  file : Option String
  pointerBytes : Nat
  printProgram : Bool
  layout : Option String
  deriving DecidableEq, Repr

inductive Invocation where
  | codegen (options : CodegenOptions)
  | analyze (options : AnalyzeOptions)
  deriving DecidableEq, Repr

def fileSpec : OptionSpec := { long := "file", short := some 'f', kind := .value "FILE" }
def widthSpec : OptionSpec := { long := "ptr-width", kind := .value "BYTES" (some "8") }
def helpSpec : OptionSpec := { long := "help", short := some 'h', kind := .help }

def codegenSpecs : List OptionSpec :=
  [fileSpec, { long := "output", short := some 'o', kind := .value "DIR" (some ".") },
    { long := "d-out", kind := .value "PATH" }, { long := "js-out", kind := .value "PATH" },
    widthSpec, { long := "verbose", short := some 'v', kind := .flag }, helpSpec]

def analyzeSpecs : List OptionSpec :=
  [fileSpec, widthSpec, { long := "print-ir", kind := .flag },
    { long := "layout", kind := .value "NAME" }, helpSpec]

def codegenOptions? (given : List Given) : Option CodegenOptions := do
  return { file := ← path? given "file"
           outputDir := (← path? given "output").getD "."
           dOut := ← path? given "d-out"
           jsOut := ← path? given "js-out"
           pointerBytes := ← pointerBytes? given
           verbose := isGiven given "verbose" }

def analyzeOptions? (given : List Given) : Option AnalyzeOptions := do
  return { file := ← path? given "file"
           pointerBytes := ← pointerBytes? given
           printProgram := isGiven given "print-ir"
           layout := value? given "layout" }

/-! ## Help -/

namespace Help

def programName : String := "layout-gen"

/-- Two columns, the first as wide as its longest entry. -/
def columns (rows : List (String × String)) : List String :=
  let width := (rows.map (·.1.length)).foldl max 0
  rows.map fun (entry, about) =>
    "  " ++ entry ++ String.ofList (List.replicate (width - entry.length) ' ') ++ "  " ++ about

def optionEntry (s : OptionSpec) : String :=
  let short := match s.short with
    | some c => String.ofList ['-', c, ',', ' ']
    | none => "    "
  match s.kind with
  | .value name _ => short ++ "--" ++ s.long ++ " <" ++ name ++ ">"
  | .flag | .help => short ++ "--" ++ s.long

def optionAbout (s : OptionSpec) : String :=
  match s.kind with
  | .value _ (some default) => "[default: " ++ default ++ "]"
  | .help => "Print help"
  | _ => ""

def optionLines (specs : List OptionSpec) : List String :=
  "Options:" :: columns (specs.map fun s => (optionEntry s, optionAbout s))

def helpCommandAbout : String :=
  "Print this message or the help of the given subcommand(s)"

def text (lines : List String) : String :=
  String.join (lines.map (· ++ "\n"))

def ofProgram : String :=
  text (["Heap object layout compiler for the managed runtime", "",
    "Usage: " ++ programName ++ " <COMMAND>", "", "Commands:"] ++
    columns [("codegen", ""), ("analyze", ""), ("help", helpCommandAbout)] ++
    "" :: optionLines [helpSpec])

def ofCommand (name : String) (specs : List OptionSpec) : String :=
  text (["Usage: " ++ programName ++ " " ++ name ++ " [OPTIONS]", ""] ++ optionLines specs)

def ofHelpCommand : String :=
  text [helpCommandAbout, "", "Usage: " ++ programName ++ " help [COMMAND]...", "", "Arguments:",
    "  [COMMAND]...  Print help for the subcommand(s)"]

/-- What the command `help` prints for the commands that it is given. -/
def ofCommands? : List String → Option String
  | [] => some ofProgram
  | ["codegen"] => some (ofCommand "codegen" codegenSpecs)
  | ["analyze"] => some (ofCommand "analyze" analyzeSpecs)
  | ["help"] => some ofHelpCommand
  | _ => none

end Help

/-! ## Command lines -/

/-- What a command line asks for. -/
inductive CommandLine where
  | run (invocation : Invocation)
  /-- The text of the help that is asked for, and no command. -/
  | help (text : String)
  /-- What is wrong with the arguments. -/
  | invalid (report : String)
  deriving DecidableEq, Repr

abbrev ArgumentParser := List String → CommandLine

namespace CommandLine

def unexpected : CommandLine :=
  invalid "error: unexpected arguments\n"

/-- A command with its options, the values of which must be in order even if help is asked for. -/
def ofOptions {α : Type} (name : String) (specs : List OptionSpec)
    (options? : List Given → Option α) (invocation : α → Invocation) (args : List String) :
    CommandLine :=
  match parse? specs args with
  | none => unexpected
  | some p =>
    match options? p.given with
    | none => unexpected
    | some options => if p.help then help (Help.ofCommand name specs) else run (invocation options)

def ofArguments : ArgumentParser
  | "codegen" :: args => ofOptions "codegen" codegenSpecs codegenOptions? .codegen args
  | "analyze" :: args => ofOptions "analyze" analyzeSpecs analyzeOptions? .analyze args
  | "help" :: args => (Help.ofCommands? args).elim unexpected help
  | arg :: _ =>
    match parse? [helpSpec] [arg] with
    | some { help := true, .. } => help Help.ofProgram
    | _ => unexpected
  | [] => unexpected

def invocation? : CommandLine → Option Invocation
  | run invocation => some invocation
  | _ => none

end CommandLine

/-- The command that a command line asks for, if it is one to be run. -/
def Invocation.ofArguments? (args : List String) : Option Invocation :=
  (CommandLine.ofArguments args).invocation?

end HeapLayout.Command
