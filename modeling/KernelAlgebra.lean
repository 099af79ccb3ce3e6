import KernelAlgebra.Assembly.Compile
import KernelAlgebra.Assembly.Lexer
import KernelAlgebra.Assembly.Lowering
import KernelAlgebra.Assembly.Parser
import KernelAlgebra.Assembly.SourceError
import KernelAlgebra.Assembly.Statement
import KernelAlgebra.Assembly.Token
import KernelAlgebra.Binding.Attribute
import KernelAlgebra.Binding.Target
import KernelAlgebra.Builder
import KernelAlgebra.CommandLine.Arguments
import KernelAlgebra.CommandLine.Reading
import KernelAlgebra.CommandLine.Session
import KernelAlgebra.Compose.Channels
import KernelAlgebra.Compose.Composer
import KernelAlgebra.Compose.Connect
import KernelAlgebra.Compose.Handle
import KernelAlgebra.Compose.Named
import KernelAlgebra.Compose.Record
import KernelAlgebra.Compose.Rename
import KernelAlgebra.ConstantPool
import KernelAlgebra.Document.Toml.Grammar
import KernelAlgebra.Document.Toml.Matching
import KernelAlgebra.Document.Toml.Table
import KernelAlgebra.Document.Yaml.Block
import KernelAlgebra.Document.Yaml.Fault
import KernelAlgebra.Document.Yaml.Meaning
import KernelAlgebra.Document.Yaml.Node
import KernelAlgebra.Document.Yaml.Place
import KernelAlgebra.Document.Yaml.Scalar
import KernelAlgebra.Document.Yaml.Stream
import KernelAlgebra.Document.Yaml.Tag
import KernelAlgebra.Error
import KernelAlgebra.Failure
import KernelAlgebra.Files
import KernelAlgebra.Fresh
import KernelAlgebra.Graph.Basic
import KernelAlgebra.Graph.Edit
import KernelAlgebra.Graph.Walk
import KernelAlgebra.Instruction
import KernelAlgebra.Log
import KernelAlgebra.Machine
import KernelAlgebra.Main
import KernelAlgebra.Metrics
import KernelAlgebra.Number.Power
import KernelAlgebra.Number.Binary
import KernelAlgebra.Number.Exponential
import KernelAlgebra.Number.Integer
import KernelAlgebra.Number.Layout
import KernelAlgebra.Number.Trigonometry
import KernelAlgebra.Number.Read
import KernelAlgebra.Op
import KernelAlgebra.Optimizer.Basic
import KernelAlgebra.Optimizer.DeadCode
import KernelAlgebra.Optimizer.Straighten
import KernelAlgebra.Pipeline.Build
import KernelAlgebra.Pipeline.Config
import KernelAlgebra.Pipeline.Load
import KernelAlgebra.Pipeline.Evaluation
import KernelAlgebra.Pipeline.Expr
import KernelAlgebra.Pipeline.FromToml
import KernelAlgebra.Pipeline.FromYaml
import KernelAlgebra.Pipeline.Parser
import KernelAlgebra.Program.Basic
import KernelAlgebra.Program.Listing
import KernelAlgebra.Program.Numbered
import KernelAlgebra.Program.Renaming
import KernelAlgebra.Program.Splice
import KernelAlgebra.Proofs.Assembly.Blueprint
import KernelAlgebra.Proofs.Assembly.Lowering
import KernelAlgebra.Proofs.Assembly.Nesting
import KernelAlgebra.Proofs.Assembly.Operands
import KernelAlgebra.Proofs.Assembly.Statements
import KernelAlgebra.Proofs.Assembly.Structured
import KernelAlgebra.Proofs.Builder.Draft
import KernelAlgebra.Proofs.Builder.Inlining
import KernelAlgebra.Proofs.Builder.Steps
import KernelAlgebra.Proofs.Compose.Assignment
import KernelAlgebra.Proofs.Compose.Associativity
import KernelAlgebra.Proofs.Compose.Behaviour
import KernelAlgebra.Proofs.Compose.Binding
import KernelAlgebra.Proofs.Compose.Bridges
import KernelAlgebra.Proofs.Compose.Call
import KernelAlgebra.Proofs.Compose.Channels
import KernelAlgebra.Proofs.Compose.Closure
import KernelAlgebra.Proofs.Compose.Code
import KernelAlgebra.Proofs.Compose.Composer
import KernelAlgebra.Proofs.Compose.Conduits
import KernelAlgebra.Proofs.Compose.Reordering
import KernelAlgebra.Proofs.Compose.Connect
import KernelAlgebra.Proofs.Compose.Connection
import KernelAlgebra.Proofs.Compose.Currying
import KernelAlgebra.Proofs.Compose.Facade
import KernelAlgebra.Proofs.Compose.Feeding
import KernelAlgebra.Proofs.Compose.Functional
import KernelAlgebra.Proofs.Compose.InOrder
import KernelAlgebra.Proofs.Compose.Matching
import KernelAlgebra.Proofs.Compose.Merging
import KernelAlgebra.Proofs.Compose.Named
import KernelAlgebra.Proofs.Compose.NamedConnection
import KernelAlgebra.Proofs.Compose.Offer
import KernelAlgebra.Proofs.Compose.Operands
import KernelAlgebra.Proofs.Compose.Resolution
import KernelAlgebra.Proofs.Compose.Routing
import KernelAlgebra.Proofs.Compose.Splitting
import KernelAlgebra.Proofs.Compose.Wires
import KernelAlgebra.Proofs.Computation
import KernelAlgebra.Proofs.Constants.Keys
import KernelAlgebra.Proofs.Constants.Sharing
import KernelAlgebra.Proofs.Graph.DepthFirst
import KernelAlgebra.Proofs.Graph.Reachability
import KernelAlgebra.Proofs.Graph.Sequence
import KernelAlgebra.Proofs.Instruction
import KernelAlgebra.Proofs.Machine.Copying
import KernelAlgebra.Proofs.Machine.Embedding
import KernelAlgebra.Proofs.Machine.Execution
import KernelAlgebra.Proofs.Machine.Simulation
import KernelAlgebra.Proofs.Machine.Paths
import KernelAlgebra.Proofs.Machine.Retracing
import KernelAlgebra.Proofs.Machine.Safety
import KernelAlgebra.Proofs.Machine.Sequence
import KernelAlgebra.Proofs.Machine.Start
import KernelAlgebra.Proofs.Machine.Views
import KernelAlgebra.Proofs.Optimizer.Basic
import KernelAlgebra.Proofs.Optimizer.Compaction
import KernelAlgebra.Proofs.Optimizer.DeadCode
import KernelAlgebra.Proofs.Optimizer.Liveness
import KernelAlgebra.Proofs.Optimizer.Straighten
import KernelAlgebra.Proofs.Program.Collection
import KernelAlgebra.Proofs.Program.Copies
import KernelAlgebra.Proofs.Program.Renaming
import KernelAlgebra.Proofs.Selection.Manipulation
import KernelAlgebra.Proofs.Selection.Parts
import KernelAlgebra.Proofs.Symbol
import KernelAlgebra.Proofs.Validity
import KernelAlgebra.Report.Interface
import KernelAlgebra.Selection.Fixed
import KernelAlgebra.Selection.Index
import KernelAlgebra.Selection.Manipulator
import KernelAlgebra.Shader.Expression
import KernelAlgebra.Shader.Namer
import KernelAlgebra.Shader.Version
import KernelAlgebra.Shader.Writer
import KernelAlgebra.Symbol
import KernelAlgebra.Text.Case
import KernelAlgebra.Text.Cut
import KernelAlgebra.Text.Pad
import KernelAlgebra.Text.Glyph
import KernelAlgebra.Text.Letter
import KernelAlgebra.Text.Lowercase
import KernelAlgebra.Text.Quote
import KernelAlgebra.Total
import KernelAlgebra.Validation
import KernelAlgebra.View
import KernelAlgebra.Workbench
import KernelAlgebra.Proofs.Builder.Soundness
import KernelAlgebra.Proofs.Assembly.Validity
import KernelAlgebra.Proofs.Compose.Target
import KernelAlgebra.Proofs.Binding.Attributes
import KernelAlgebra.Proofs.Compose.Arguments
import KernelAlgebra.Proofs.Compose.MergedNames
import KernelAlgebra.Proofs.Shader.Declarations
import KernelAlgebra.Proofs.Splice.Graph
import KernelAlgebra.Proofs.Splice.Reference
import KernelAlgebra.Proofs.Splice.Temporaries
import KernelAlgebra.Proofs.Splice.StandIn
import KernelAlgebra.Proofs.Splice.Replacement
import KernelAlgebra.Proofs.Selection.Conservation
import KernelAlgebra.Proofs.Compose.Replacing
import KernelAlgebra.Proofs.Instruction.Admission
import KernelAlgebra.Proofs.Optimizer.Discards
import KernelAlgebra.Proofs.Optimizer.Settled
import KernelAlgebra.Proofs.Optimizer.Links
import KernelAlgebra.Proofs.Optimizer.Idempotence
import KernelAlgebra.Proofs.Shader.Phrases
import KernelAlgebra.Proofs.Shader.Paragraphs
import KernelAlgebra.Proofs.Shader.Expressions
import KernelAlgebra.Proofs.Shader.Bodies
import KernelAlgebra.Proofs.Shader.Widths
import KernelAlgebra.Proofs.Selection.Moves
import KernelAlgebra.Proofs.Program.Lockstep
import KernelAlgebra.Proofs.Compose.Renaming
import KernelAlgebra.Proofs.Builder.Finality
import KernelAlgebra.Proofs.Assembly.Lexing
import KernelAlgebra.Proofs.Assembly.Positions
import KernelAlgebra.Proofs.Assembly.Recovery
import KernelAlgebra.Proofs.Builder.InPlace
import KernelAlgebra.Proofs.Compose.Acceptance
import KernelAlgebra.Proofs.Compose.Refusal
import KernelAlgebra.Proofs.Pipeline.Grammar
import KernelAlgebra.Proofs.Pipeline.Printing
import KernelAlgebra.Proofs.Optimizer.LeastSolution
import KernelAlgebra.Proofs.Optimizer.Renumbering
import KernelAlgebra.Proofs.Text.Frames
import KernelAlgebra.Proofs.Binding.Slots
