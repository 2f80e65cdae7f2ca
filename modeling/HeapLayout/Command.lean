import HeapLayout.Artifact
import HeapLayout.Command.Arguments
import HeapLayout.Command.Failure
import HeapLayout.Command.Report
import HeapLayout.Json.Code
import HeapLayout.Json.Text
import HeapLayout.Resolution
import HeapLayout.Schema.Builtin

/-!
# The commands

`codegen` writes the two artifacts of a schema, `analyze` reports on its layouts. Both read the
schema, resolve it for a pointer width, and tell what they do. Everything is computed before the
first file is touched; the artifacts are then replaced one after the other, and a failure of the
second leaves the first in place.

A file is replaced by way of a temporary one in its directory. The new content is put in place in
one step, so that no reader sees a part of it, and a temporary file that cannot be put in place is
discarded.

A command line may also ask for help, or be refused. Then no command is run: help is printed and the
program succeeds, a refusal is told of and has an exit status of its own.
-/

namespace HeapLayout.Command

/-- A script that may fail. -/
abbrev Work := ExceptT Failure Script

namespace Work

def ask (r : Request) : Work r.Answer :=
  ExceptT.mk (return .ok (← Script.ask r))

/-- Makes a request that may be refused, and fails if it is. -/
def attempt {ε α : Type} (failure : ε → Failure) (request : Script (Except ε α)) : Work α :=
  ExceptT.mk (return (← request).mapError failure)

def sayLine (text : String) : Work Unit :=
  ask (.print (text ++ "\n"))

def sayLines : List String → Work Unit
  | [] => return
  | text :: texts => do
    sayLine text
    sayLines texts

/-- Says lines if more is to be told than the results. -/
def tellLines (verbose : Bool) (texts : List String) : Work Unit :=
  if verbose then sayLines texts else return

def tellLine (verbose : Bool) (text : String) : Work Unit :=
  tellLines verbose [text]

def ofExcept {ε α : Type} (failure : ε → Failure) : Except ε α → Work α
  | .ok a => return a
  | .error e => throw (failure e)

end Work

open Work (sayLine sayLines tellLine tellLines)

/-! ## Replacing a file -/

/-- The directory in which a file is prepared before it is put in place. -/
def stagingDirectory (path : String) : String :=
  match Path.parent? path with
  | none | some "" => "."
  | some dir => dir

/-- Fills a temporary file and puts it in place. -/
def fill (file path content : String) : Work Unit := do
  Work.attempt (fun e => .unwritable path (.write e)) (.ask (.write file content))
  Work.attempt (fun e => .unwritable path (.flush e)) (.ask (.flush file))
  Work.attempt (fun e => .unwritable path (.putInPlace e)) (.ask (.rename file path))

/-- Fills a temporary file and puts it in place, or else discards it. -/
def fillOrDiscard (file path content : String) : Work Unit :=
  try fill file path content
  catch failure => do
    Work.ask (.discard file)
    throw failure

/-- Replaces a file, or makes a new one, with its directory if need be. -/
def replace (path content : String) : Work Unit := do
  let dir := stagingDirectory path
  Work.attempt (fun e => .unwritable path (.makeDirectory dir e)) (.ask (.makeDirectories dir))
  let file ← Work.attempt (fun e => .unwritable path (.createTemporary dir e))
    (.ask (.createTemporary dir))
  fillOrDiscard file path content

/-! ## Reading and resolving a schema -/

/-- The built-in schema; its text is one. -/
def builtinSchema : SchemaFile :=
  (SchemaFile.ofYaml? Schema.Builtin.text).getD {}

def readSchema (verbose : Bool) : Option String → Work SchemaFile
  | none => do
    tellLine verbose "[~] Using built-in runtime schema"
    return builtinSchema
  | some path => do
    tellLine verbose ("[~] Loading schema " ++ path)
    let text ← Work.attempt (.unreadableSchema path) (.ask (.readText path))
    match SchemaFile.ofYaml? text with
    | some schema => return schema
    | none => throw (.malformedSchema path)

def definitionLine (l : LayoutDef) : String :=
  match l.parent with
  | some parent => "  - " ++ l.name ++ " (extends " ++ parent ++ ")"
  | none => "  - " ++ l.name

/-- What is told of a schema that was read. -/
def schemaLines (s : SchemaFile) : List String :=
  ("[~] Loaded " ++ Numeral.ofNat s.layouts.length ++ " layout definitions") ::
    s.layouts.map definitionLine ++ [""]

def loadSchema (verbose : Bool) (file : Option String) : Work SchemaFile := do
  let schema ← readSchema verbose file
  tellLines verbose (schemaLines schema)
  return schema

def pointerWidth (bytes : Nat) : Work PointerWidth :=
  match PointerWidth.ofBytes? bytes with
  | some w => return w
  | none => throw (.unsupportedWidth bytes)

def resolve (w : PointerWidth) (s : SchemaFile) : Work (List Layout) :=
  match Schema.resolve w s.layouts with
  | .ok layouts => return layouts
  | .error e => do
    sayLine ("[✗] Schema resolution failed: " ++ e.message)
    throw (.invalidSchema e)

def loadLayouts (verbose : Bool) (file : Option String) (pointerBytes : Nat) :
    Work (PointerWidth × List Layout) := do
  let schema ← loadSchema verbose file
  let w ← pointerWidth pointerBytes
  tellLine verbose
    ("[~] Resolving layouts (pointer width " ++ Numeral.ofNat w.bytes ++ ")...")
  let layouts ← resolve w schema
  tellLine verbose ("[✓] Resolved " ++ Numeral.ofNat layouts.length ++ " layouts\n")
  return (w, layouts)

/-- The underlined title of a command. -/
def title (command : String) : List String :=
  ["Layout Generator - " ++ command, "=======================================", ""]

/-! ## The command `codegen` -/

namespace CodegenOptions

def dPath (o : CodegenOptions) : String :=
  o.dOut.getD (Path.join o.outputDir "layout.d")

def jsPath (o : CodegenOptions) : String :=
  o.jsOut.getD (Path.join o.outputDir "layout.js")

/-- What is told of the options. -/
def lines (o : CodegenOptions) : List String :=
  title "Code Generation Tool" ++
    ["[~] Configuration:", "  Schema: " ++ o.file.getD "<built-in runtime>",
      "  Pointer width: " ++ Numeral.ofNat o.pointerBytes, "  D output: " ++ o.dPath,
      "  JS output: " ++ o.jsPath, ""]

end CodegenOptions

/-- Both artifacts, before any file is touched. -/
def render (o : CodegenOptions) : Work Artifacts := do
  tellLines o.verbose o.lines
  let (w, layouts) ← loadLayouts o.verbose o.file o.pointerBytes
  let artifacts ← Work.ofExcept .synthesis (Artifacts.ofLayouts w layouts)
  tellLine o.verbose
    ("[~] Synthesized " ++ Numeral.ofNat artifacts.program.functions.length ++ " functions")
  return artifacts

def writeArtifact (path content : String) : Work Unit := do
  replace path content
  sayLine ("[✓] Generated " ++ path)

/-- Renders both artifacts and writes the first. -/
def renderFirst (o : CodegenOptions) : Work Artifacts := do
  let artifacts ← render o
  writeArtifact o.dPath artifacts.d
  return artifacts

def codegen (o : CodegenOptions) : Work Unit := do
  let artifacts ← renderFirst o
  writeArtifact o.jsPath artifacts.js

/-! ## The command `analyze` -/

/-- The layouts to report on: all of them, or the one of a given name. -/
def select (layouts : List Layout) : Option String → Work (List Layout)
  | none => return layouts
  | some name =>
    match layouts.find? fun l => l.name == name with
    | some l => return [l]
    | none => throw (.unknownLayout name)

def printProgram (w : PointerWidth) (layouts : List Layout) : Work Unit := do
  let program ← Work.ofExcept .synthesis (Code.Program.ofLayouts w layouts)
  sayLines ["[~] Layout IR:", program.toJson.pretty]

def analyze (o : AnalyzeOptions) : Work Unit := do
  sayLines (title "Layout Analysis Tool")
  let (w, layouts) ← loadLayouts true o.file o.pointerBytes
  let selected ← select layouts o.layout
  sayLines (selected.flatMap Report.lines)
  if o.printProgram then
    printProgram w layouts

/-! ## Command lines -/

def Invocation.work : Invocation → Work Unit
  | codegen o => Command.codegen o
  | analyze o => Command.analyze o

/-- The exit status of a run. -/
def exitCode : Except Failure Unit → Nat
  | .ok _ => 0
  | .error _ => 1

/-- What is printed to the error stream at the end of a run. -/
def errorText : Except Failure Unit → String
  | .ok _ => ""
  | .error f => f.report

/-- What the program does once its arguments are parsed; the result is the exit status. -/
def CommandLine.script : CommandLine → Script Nat
  | run invocation => do
    let result ← invocation.work.run
    Script.ask (.printError (errorText result))
    return exitCode result
  | help text => do
    Script.ask (.print text)
    return 0
  | invalid report => do
    Script.ask (.printError report)
    return 2

/-- The whole program; its result is the exit status. -/
def program (args : List String) (parser : ArgumentParser := CommandLine.ofArguments) :
    Script Nat :=
  (parser args).script

end HeapLayout.Command
