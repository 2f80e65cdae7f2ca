import HeapLayout.Artifact
import HeapLayout.Artifact.D
import HeapLayout.Artifact.Dialect
import HeapLayout.Artifact.JS
import HeapLayout.Artifact.Outline
import HeapLayout.Bits
import HeapLayout.Code.Accessor
import HeapLayout.Code.Dispatch
import HeapLayout.Code.Error
import HeapLayout.Code.Expr
import HeapLayout.Code.Program
import HeapLayout.Command
import HeapLayout.Command.Arguments
import HeapLayout.Command.Failure
import HeapLayout.Command.Report
import HeapLayout.Command.Script
import HeapLayout.FileTree
import HeapLayout.Json
import HeapLayout.Json.Code
import HeapLayout.Json.Layout
import HeapLayout.Json.Schema
import HeapLayout.Json.Text
import HeapLayout.Layout
import HeapLayout.Layout.Padding
import HeapLayout.Main
import HeapLayout.Name
import HeapLayout.Prim
import HeapLayout.Proofs.Acceptance
import HeapLayout.Proofs.Access
import HeapLayout.Proofs.Allocation
import HeapLayout.Proofs.Bindings
import HeapLayout.Proofs.Boundary
import HeapLayout.Proofs.CallGraph
import HeapLayout.Proofs.Capture
import HeapLayout.Proofs.Contents
import HeapLayout.Proofs.CountOrder
import HeapLayout.Proofs.Depth
import HeapLayout.Proofs.Dispatch
import HeapLayout.Proofs.Encoding
import HeapLayout.Proofs.Evaluation
import HeapLayout.Proofs.FileEffects
import HeapLayout.Proofs.Flattening
import HeapLayout.Proofs.FoldedSums
import HeapLayout.Proofs.Folding
import HeapLayout.Proofs.Independence
import HeapLayout.Proofs.Inheritance
import HeapLayout.Proofs.Lineage
import HeapLayout.Proofs.Memory
import HeapLayout.Proofs.Naming
import HeapLayout.Proofs.Outline
import HeapLayout.Proofs.Placement
import HeapLayout.Proofs.References
import HeapLayout.Proofs.Replacement
import HeapLayout.Proofs.Resolution
import HeapLayout.Proofs.Scoping
import HeapLayout.Proofs.SharedAccess
import HeapLayout.Proofs.SlotAlignment
import HeapLayout.Proofs.SlotOrder
import HeapLayout.Proofs.SlotUpdate
import HeapLayout.Proofs.Spelling
import HeapLayout.Proofs.StaticOffsets
import HeapLayout.Proofs.Synthesis
import HeapLayout.Proofs.Termwise
import HeapLayout.Proofs.Unambiguity
import HeapLayout.Proofs.Validity
import HeapLayout.Proofs.Visit
import HeapLayout.Resolution
import HeapLayout.Schema.Binding
import HeapLayout.Schema.Builtin
import HeapLayout.Schema.Definition
import HeapLayout.Schema.Error
import HeapLayout.Schema.FromYaml
import HeapLayout.Schema.Header
import HeapLayout.Schema.Inheritance
import HeapLayout.Schema.Validity
import HeapLayout.Text.Blank
import HeapLayout.Text.Identifier
import HeapLayout.Text.Lines
import HeapLayout.Text.Numeral
import HeapLayout.Text.Uppercase
import HeapLayout.Yaml.Cursor
import HeapLayout.Yaml.Meaning
import HeapLayout.Yaml.Node
import HeapLayout.Yaml.Node.OfTokens
import HeapLayout.Yaml.Tag
import HeapLayout.Yaml.Token
import HeapLayout.Yaml.Token.Lexer
import HeapLayout.Yaml.Token.Property
import HeapLayout.Yaml.Token.Scalar
import HeapLayout.Proofs.Overflow
