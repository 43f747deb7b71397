import Waveflow.Artifact
import Waveflow.Checked
import Waveflow.Compile.Compiler
import Waveflow.Compile.Error
import Waveflow.Compile.Options
import Waveflow.Config.Basic
import Waveflow.Config.Text
import Waveflow.Decimal.Layout
import Waveflow.Decimal.Reading
import Waveflow.Decimal.Shortest
import Waveflow.Decimal.Whole
import Waveflow.Diagnostic
import Waveflow.Dict
import Waveflow.Double
import Waveflow.Element
import Waveflow.Failure
import Waveflow.Graph.Basic
import Waveflow.Graph.Budget
import Waveflow.Graph.Correction
import Waveflow.Graph.Edit
import Waveflow.Graph.Hints
import Waveflow.Graph.Listing
import Waveflow.Graph.Node
import Waveflow.Graph.Order
import Waveflow.Graph.Patch
import Waveflow.Graph.Reach
import Waveflow.Graph.Waiting
import Waveflow.Json.Basic
import Waveflow.Json.Printer
import Waveflow.Json.Reader
import Waveflow.Literal
import Waveflow.Lowering
import Waveflow.Operation.Kind
import Waveflow.Operation.Registry
import Waveflow.Operation.Spec
import Waveflow.Pass.Basic
import Waveflow.Pass.Coherence
import Waveflow.Pass.Guard
import Waveflow.Pass.Levels
import Waveflow.Pass.Pipeline
import Waveflow.Pass.Protection
import Waveflow.Pass.Thermal
import Waveflow.Refusal
import Waveflow.Requirements
import Waveflow.Schedule.Basic
import Waveflow.Schedule.Greedy
import Waveflow.Search
import Waveflow.Service.Basic
import Waveflow.Service.Batch
import Waveflow.Setup
import Waveflow.Source.Error
import Waveflow.Source.Lexer
import Waveflow.Source.Parser
import Waveflow.Source.Program
import Waveflow.Source.Rules
import Waveflow.Source.Stored
import Waveflow.Source.Token
import Waveflow.ValueType
import Waveflow.Yaml.Basic
import Waveflow.Yaml.Cell
import Waveflow.Yaml.Decode
import Waveflow.Yaml.Property
import Waveflow.Yaml.Reader
import Waveflow.Yaml.Scan
import Waveflow.Yaml.Text.Block
import Waveflow.Yaml.Text.Plain
import Waveflow.Yaml.Text.Quoted
import Waveflow.Yaml.Token
import Waveflow.Proofs.Graph.Course
import Waveflow.Proofs.Graph.Order
import Waveflow.Proofs.Compile.Stages
import Waveflow.Proofs.Meaning.Lowering
import Waveflow.Proofs.Meaning.Optimize
import Waveflow.Graph.Store
import Waveflow.Proofs.Graph.Consistent
import Waveflow.Proofs.Pass.Guard
import Waveflow.Proofs.Decimal.Whole
import Waveflow.Proofs.Source.Grammar
import Waveflow.Proofs.Source.Parses
import Waveflow.Proofs.Pass.Reports
import Waveflow.Proofs.Lowering.Interface
import Waveflow.Proofs.Pass.Interface
import Waveflow.Proofs.Artifact
import Waveflow.Proofs.Compile.Contract
import Waveflow.Proofs.Requirements.Conflicts
import Waveflow.Proofs.Schedule.Levels
import Waveflow.Proofs.Lowering.Accepts
import Waveflow.Proofs.Pass.Convergence
import Waveflow.Proofs.Pass.Moves
import Waveflow.Proofs.Pass.Strength
import Waveflow.Proofs.Source.Settings
import Waveflow.Proofs.Lowering.Calls
import Waveflow.Proofs.Requirements.Validated
import Waveflow.Proofs.Pass.Divided
import Waveflow.Proofs.Source.Places
import Waveflow.Proofs.Lowering.Allocation
import Waveflow.Proofs.Requirements.Levels
import Waveflow.Proofs.Pass.Allocation
import Waveflow.Proofs.Schedule.Budgets
import Waveflow.Proofs.Compile.Answers
import Waveflow.Proofs.Service.Batch
import Waveflow.Proofs.Source.Chunks
import Waveflow.Proofs.Source.Written
import Waveflow.Proofs.Json.Text
import Waveflow.Proofs.Json.Decode
import Waveflow.Proofs.Json.Stored
import Waveflow.Proofs.Source.Spans
import Waveflow.Proofs.Lowering.Shape
import Waveflow.Proofs.Pass.Turns
import Waveflow.Proofs.Pass.Protected
import Waveflow.Proofs.Pass.Cooled
import Waveflow.Proofs.Graph.Leading
import Waveflow.Proofs.Schedule.Priority
import Waveflow.Proofs.Pass.Merging
import Waveflow.Proofs.Pass.Paths
import Waveflow.Proofs.Pass.Distinct
import Waveflow.Proofs.Pass.Changes
import Waveflow.Proofs.Schedule.Accepted
import Waveflow.Proofs.Schedule.Shuffled
import Waveflow.Proofs.Source.Lawful
import Waveflow.Proofs.Source.Required
import Waveflow.Proofs.Graph.Cycles
import Waveflow.Proofs.Lowering.Unused
import Waveflow.Proofs.Requirements.Skeleton
import Waveflow.Proofs.Source.Extents
import Waveflow.Proofs.Graph.Queue
import Waveflow.Proofs.Graph.Groups
import Waveflow.Proofs.Source.Loops
