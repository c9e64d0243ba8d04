import QuantumIR.Bindings
import QuantumIR.Builder.Basic
import QuantumIR.Builder.Error
import QuantumIR.Builder.Step
import QuantumIR.Canonical
import QuantumIR.Cli.Arguments
import QuantumIR.Cli.Command
import QuantumIR.Cli.Host
import QuantumIR.Cli.Run
import QuantumIR.Config
import QuantumIR.ControlFlow
import QuantumIR.Demo
import QuantumIR.Double.Basic
import QuantumIR.Double.Decimal
import QuantumIR.Double.Notation
import QuantumIR.Double.Shortest
import QuantumIR.Eval.Datum
import QuantumIR.Eval.Error
import QuantumIR.Eval.Frame
import QuantumIR.Eval.Machine
import QuantumIR.Eval.Perform
import QuantumIR.Eval.RunState
import QuantumIR.Evaluation
import QuantumIR.GateLog
import QuantumIR.Graph
import QuantumIR.Instruction
import QuantumIR.Intrinsic
import QuantumIR.Iteration
import QuantumIR.JsonValue
import QuantumIR.Loading
import QuantumIR.Main
import QuantumIR.Module
import QuantumIR.Operation
import QuantumIR.Outcomes
import QuantumIR.Reading.Basic
import QuantumIR.Reading.Error
import QuantumIR.Reading.Function
import QuantumIR.Reading.Instruction
import QuantumIR.Reading.Module
import QuantumIR.Reading.Operand
import QuantumIR.Source
import QuantumIR.Text.Blank
import QuantumIR.Text.Escape
import QuantumIR.Text.Name
import QuantumIR.Text.Numeral
import QuantumIR.Text.Utf8
import QuantumIR.Token
import QuantumIR.Token.Lexer
import QuantumIR.Ty
import QuantumIR.Value
import QuantumIR.Verification
import QuantumIR.Word
import QuantumIR.Yaml.Cursor
import QuantumIR.Yaml.Document
import QuantumIR.Yaml.Node
import QuantumIR.Yaml.Scalar
import QuantumIR.Yaml.Token
import QuantumIR.Yaml.Token.Lexer
import QuantumIR.Proofs.Text.Escape
import QuantumIR.Proofs.Text.Unescape
import QuantumIR.Proofs.Text.Numeral
import QuantumIR.Proofs.Token.Scanning
import QuantumIR.Proofs.Token.Spelling
import QuantumIR.Proofs.Token.Names
import QuantumIR.Proofs.Token.Naming
import QuantumIR.Proofs.Double.Rounding
import QuantumIR.Proofs.Double.Shortest
import QuantumIR.Proofs.Double.RoundTrip
import QuantumIR.Proofs.Double.Decimals
import QuantumIR.Proofs.Double.Constant
import QuantumIR.Proofs.Canonical.Tokens
import QuantumIR.Proofs.Canonical.InstructionTokens
import QuantumIR.Proofs.Canonical.ModuleTokens
import QuantumIR.Proofs.Canonical.GroupTokens
import QuantumIR.Proofs.Canonical.TextTokens
import QuantumIR.Proofs.Source.Metadata
import QuantumIR.Proofs.Reading.Taking
import QuantumIR.Proofs.Reading.Operands
import QuantumIR.Proofs.Reading.Instructions
import QuantumIR.Proofs.Reading.Functions
import QuantumIR.Proofs.Reading.Attributes
import QuantumIR.Proofs.Reading.Entities
import QuantumIR.Proofs.Reading.RoundTrip
import QuantumIR.Proofs.Reading.Faithful
import QuantumIR.Proofs.Reading.Needing
import QuantumIR.Proofs.Reading.Writable
import QuantumIR.Proofs.Token.Stability
import QuantumIR.Proofs.Token.Locality
import QuantumIR.Proofs.Token.Pieces
import QuantumIR.Proofs.Accepted.Giving
import QuantumIR.Proofs.Accepted.Operands
import QuantumIR.Proofs.Reading.Canonical
import QuantumIR.Proofs.Verified.Rules
import QuantumIR.Proofs.Verified.Canonical
import QuantumIR.Proofs.Execution.Reaches
import QuantumIR.Proofs.Verified.Faults
import QuantumIR.Proofs.Verified.Execution
import QuantumIR.Proofs.Building.Change
import QuantumIR.Proofs.Building.Moves
import QuantumIR.Proofs.Building.Session
import QuantumIR.Proofs.Building.Invariant
import QuantumIR.Proofs.Building.Finished
import QuantumIR.Proofs.Building.FreshLabels
import QuantumIR.Proofs.Building.Limits
import QuantumIR.Proofs.Building.Loads
import QuantumIR.Proofs.Building.Bodies
import QuantumIR.Proofs.Building.Failures
import QuantumIR.Proofs.Building.Numbered
import QuantumIR.Proofs.Structured.Program
import QuantumIR.Proofs.Structured.Gives
import QuantumIR.Proofs.Structured.Layout
import QuantumIR.Proofs.Structured.Steps
import QuantumIR.Proofs.Structured.Runs
import QuantumIR.Proofs.Structured.Points
import QuantumIR.Proofs.Structured.Compiles
import QuantumIR.Proofs.Structured.Correct
import QuantumIR.Proofs.Accepted.Canonical
import QuantumIR.Proofs.Execution.Canonical
import QuantumIR.Proofs.Execution.Formatted
import QuantumIR.Proofs.Verified.Starting
import QuantumIR.Proofs.Execution.Rules
import QuantumIR.Proofs.Execution.Registers
import QuantumIR.Proofs.Execution.Catalog
import QuantumIR.Proofs.Execution.Signatures
import QuantumIR.Proofs.Execution.Accounting
import QuantumIR.Proofs.Execution.Allocation
import QuantumIR.Proofs.Execution.Negative
import QuantumIR.Proofs.Execution.InRange
import QuantumIR.Proofs.Word.BitVectors
import QuantumIR.Proofs.Word.Arithmetic
import QuantumIR.Proofs.Word.Conversion
import QuantumIR.Proofs.Token.Literals
import QuantumIR.Proofs.Accepted.Constants
import QuantumIR.Proofs.Accepted.Literals
import QuantumIR.Proofs.Execution.Literals
import QuantumIR.Proofs.Verified.Masked
import QuantumIR.Proofs.Execution.Stops
import QuantumIR.Proofs.Execution.Parts
import QuantumIR.Proofs.Execution.Sources
import QuantumIR.Proofs.Execution.Streams
import QuantumIR.Proofs.Execution.Causes
import QuantumIR.Proofs.Execution.Supported
import QuantumIR.Proofs.Execution.Sizes
import QuantumIR.Proofs.Execution.Counted
import QuantumIR.Proofs.Execution.Labels
import QuantumIR.Proofs.Building.Strings
import QuantumIR.Proofs.Execution.Limits
import QuantumIR.Proofs.Verified.Exact
import QuantumIR.Proofs.Recursion.Evaluator
import QuantumIR.Proofs.Recursion.Unwinding
import QuantumIR.Proofs.Recursion.Calls
import QuantumIR.Proofs.Graph.Flow
import QuantumIR.Proofs.Execution.LoopFree
import QuantumIR.Proofs.Execution.Covered
import QuantumIR.Proofs.Renaming.Names
import QuantumIR.Proofs.Renaming.Runs
import QuantumIR.Proofs.Graph.Walk
import QuantumIR.Proofs.Execution.Lockstep
import QuantumIR.Proofs.Bounded.Steps
import QuantumIR.Proofs.Bounded.Grammar
import QuantumIR.Proofs.Bounded.Follows
import QuantumIR.Proofs.Bounded.Taking
import QuantumIR.Proofs.Bounded.Types
import QuantumIR.Proofs.Bounded.Operands
import QuantumIR.Proofs.Bounded.Instructions
import QuantumIR.Proofs.Bounded.Functions
import QuantumIR.Proofs.Bounded.Modules
import QuantumIR.Proofs.Bounded.Outlines
import QuantumIR.Proofs.Bounded.Lines
import QuantumIR.Proofs.Token.Order
import QuantumIR.Proofs.Bounded.Total
import QuantumIR.Proofs.Source.FirstLine
import QuantumIR.Proofs.Source.Places
import QuantumIR.Proofs.Token.Blanked
import QuantumIR.Proofs.Bounded.Places
import QuantumIR.Proofs.Bounded.Layout
import QuantumIR.Proofs.Written.Results
import QuantumIR.Proofs.Written.Names
import QuantumIR.Proofs.Written.Types
import QuantumIR.Proofs.Written.Bodies
import QuantumIR.Proofs.Written.Functions
import QuantumIR.Proofs.Written.Modules
import QuantumIR.Proofs.Written.Numbering
import QuantumIR.Proofs.Written.WellFormed
import QuantumIR.Proofs.Log.Lines
import QuantumIR.Proofs.Log.Counts
import QuantumIR.Proofs.Outcomes.Spellings
import QuantumIR.Proofs.Demo.HiddenPattern
