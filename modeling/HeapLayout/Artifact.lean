import HeapLayout.Artifact.D
import HeapLayout.Artifact.JS
import HeapLayout.Code.Dispatch

/-!
# The two artifacts of a schema

The program is synthesised once and printed twice, so the layout arithmetic of the two artifacts
comes from one tree.
-/

namespace HeapLayout

/-- A program and what it is printed as. -/
structure Artifacts where
  program : Code.Program
  d : String
  js : String

namespace Artifacts

def ofProgram (dOptions : Artifact.DOptions) (jsOptions : Artifact.JsOptions)
    (program : Code.Program) : Artifacts :=
  { program, d := Artifact.D.source dOptions program,
    js := Artifact.JS.source jsOptions program }

/-- The accessor library of a list of layouts, in both languages. -/
def ofLayouts (w : PointerWidth) (ls : List Layout) (dOptions : Artifact.DOptions := {})
    (jsOptions : Artifact.JsOptions := {}) : Except Code.BuildError Artifacts :=
  (Code.Program.ofLayouts w ls).map (ofProgram dOptions jsOptions)

end Artifacts

end HeapLayout
