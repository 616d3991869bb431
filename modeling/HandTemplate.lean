import HandTemplate.Binary64
import HandTemplate.Binary64.Layout
import HandTemplate.Binary64.Shortest
import HandTemplate.Builtin
import HandTemplate.CommandLine.Batch
import HandTemplate.CommandLine.Host
import HandTemplate.CommandLine.Options
import HandTemplate.Config
import HandTemplate.Config.Parser
import HandTemplate.Expansion
import HandTemplate.Expansion.Evaluation
import HandTemplate.Expansion.Execution
import HandTemplate.Expr
import HandTemplate.Expr.Parser
import HandTemplate.Fault.Expansion
import HandTemplate.Fault.Grammar
import HandTemplate.Fault.Lexical
import HandTemplate.FileTree
import HandTemplate.Json
import HandTemplate.Json.Reader
import HandTemplate.LineIndex
import HandTemplate.Main
import HandTemplate.Metadata
import HandTemplate.Metadata.Parser
import HandTemplate.Number
import HandTemplate.Orderings
import HandTemplate.Outline
import HandTemplate.Outline.Program
import HandTemplate.Outline.Token
import HandTemplate.Path
import HandTemplate.Position
import HandTemplate.Program
import HandTemplate.Program.Parser
import HandTemplate.Proofs.Alongside.Atoms
import HandTemplate.Proofs.Alongside.Names
import HandTemplate.Proofs.Alongside.Pairing
import HandTemplate.Proofs.Alongside.Quoting
import HandTemplate.Proofs.Alongside.Unmentioned
import HandTemplate.Proofs.Batch.Collisions
import HandTemplate.Proofs.Batch.Delivery
import HandTemplate.Proofs.Batch.Fates
import HandTemplate.Proofs.Batch.Runs
import HandTemplate.Proofs.Batch.Selection
import HandTemplate.Proofs.Batch.Writing
import HandTemplate.Proofs.Expansion.Arithmetic
import HandTemplate.Proofs.Expansion.Denotation
import HandTemplate.Proofs.Expansion.Dependence
import HandTemplate.Proofs.Expansion.Difference
import HandTemplate.Proofs.Expansion.Failing
import HandTemplate.Proofs.Expansion.Frame
import HandTemplate.Proofs.Expansion.Intervals
import HandTemplate.Proofs.Expansion.Levels
import HandTemplate.Proofs.Expansion.Limit
import HandTemplate.Proofs.Expansion.Operations
import HandTemplate.Proofs.Expansion.Outermost
import HandTemplate.Proofs.Expansion.Pending
import HandTemplate.Proofs.Expansion.Ranges
import HandTemplate.Proofs.Expansion.Reading
import HandTemplate.Proofs.Expansion.Refinement
import HandTemplate.Proofs.Expansion.View
import HandTemplate.Proofs.Faults.Agreement
import HandTemplate.Proofs.Faults.Compilation
import HandTemplate.Proofs.Faults.Evaluation
import HandTemplate.Proofs.Faults.Execution
import HandTemplate.Proofs.Faults.Expression
import HandTemplate.Proofs.Faults.Program
import HandTemplate.Proofs.Faults.Statement
import HandTemplate.Proofs.Files.Changes
import HandTemplate.Proofs.Files.Listing
import HandTemplate.Proofs.Files.Steps
import HandTemplate.Proofs.Finality.Expression
import HandTemplate.Proofs.Finality.Program
import HandTemplate.Proofs.Finality.Prolonged
import HandTemplate.Proofs.Finality.Statement
import HandTemplate.Proofs.Grammar.Atom
import HandTemplate.Proofs.Grammar.Chain
import HandTemplate.Proofs.Grammar.Depth
import HandTemplate.Proofs.Grammar.Expression
import HandTemplate.Proofs.Grammar.Levels
import HandTemplate.Proofs.Grammar.Metadata
import HandTemplate.Proofs.Grammar.Operand
import HandTemplate.Proofs.Grammar.Series
import HandTemplate.Proofs.Grammar.Spelling
import HandTemplate.Proofs.Grammar.Within
import HandTemplate.Proofs.Json.Blanks
import HandTemplate.Proofs.Json.Decoding
import HandTemplate.Proofs.Json.Document
import HandTemplate.Proofs.Json.RoundTrip
import HandTemplate.Proofs.Layout.Body
import HandTemplate.Proofs.Layout.Header
import HandTemplate.Proofs.Layout.Levels
import HandTemplate.Proofs.Layout.Limit
import HandTemplate.Proofs.Layout.Spelling
import HandTemplate.Proofs.Layout.Statement
import HandTemplate.Proofs.Layout.Variations
import HandTemplate.Proofs.Layout.Writable
import HandTemplate.Proofs.Lexemes.Form
import HandTemplate.Proofs.Lexemes.Lines
import HandTemplate.Proofs.Lexemes.Places
import HandTemplate.Proofs.Lexemes.Scanning
import HandTemplate.Proofs.Lexemes.Segmentation
import HandTemplate.Proofs.Lexemes.Writing
import HandTemplate.Proofs.Nesting.Choice
import HandTemplate.Proofs.Nesting.Inlining
import HandTemplate.Proofs.Nesting.Level
import HandTemplate.Proofs.Nesting.Loops
import HandTemplate.Proofs.Nesting.Product
import HandTemplate.Proofs.Nesting.Size
import HandTemplate.Proofs.Orderings
import HandTemplate.Proofs.Orderings.Places
import HandTemplate.Proofs.Outcome
import HandTemplate.Proofs.Progress.Advance
import HandTemplate.Proofs.Progress.Ending
import HandTemplate.Proofs.Progress.Looping
import HandTemplate.Proofs.Progress.Loops
import HandTemplate.Proofs.Progress.Program
import HandTemplate.Proofs.Progress.Turns
import HandTemplate.Proofs.Reach.Bounded
import HandTemplate.Proofs.Reach.Compilation
import HandTemplate.Proofs.Reach.Depth
import HandTemplate.Proofs.Reach.Invariant
import HandTemplate.Proofs.Reach.Moment
import HandTemplate.Proofs.Reach.Written
import HandTemplate.Proofs.Records
import HandTemplate.Proofs.Rounding
import HandTemplate.Record
import HandTemplate.Rule
import HandTemplate.Statement
import HandTemplate.Statement.Parser
import HandTemplate.Template
import HandTemplate.Text.Quoted
import HandTemplate.Text.Unprintable
import HandTemplate.TileGroup
import HandTemplate.Token
import HandTemplate.Token.Lexer
import HandTemplate.Value
import HandTemplate.Variation
