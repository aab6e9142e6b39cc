import SelectionPlan.Analysis.Basic
import SelectionPlan.Analysis.Entry
import SelectionPlan.Backend.Basic
import SelectionPlan.Backend.Fault
import SelectionPlan.Backend.Memory
import SelectionPlan.Backend.Engine
import SelectionPlan.Backend.Session
import SelectionPlan.Backend.Table
import SelectionPlan.CommandLine.Completion
import SelectionPlan.CommandLine.Invocation
import SelectionPlan.CommandLine.Level
import SelectionPlan.CommandLine.Reading
import SelectionPlan.CommandLine.Run
import SelectionPlan.Decimal.Binary64
import SelectionPlan.Decimal.Shortest
import SelectionPlan.Decimal.Text
import SelectionPlan.Error
import SelectionPlan.Execution.Basic
import SelectionPlan.Execution.Error
import SelectionPlan.Execution.Evaluation
import SelectionPlan.Execution.Hosted
import SelectionPlan.Execution.Progress
import SelectionPlan.Execution.Run
import SelectionPlan.Expression
import SelectionPlan.Expression.Lexer
import SelectionPlan.Expression.Parser
import SelectionPlan.Expression.Term
import SelectionPlan.Expression.Token
import SelectionPlan.Graph.Action
import SelectionPlan.Graph.Build
import SelectionPlan.Graph.Builder
import SelectionPlan.Graph.Dot
import SelectionPlan.Main
import SelectionPlan.Naming.Namer
import SelectionPlan.Naming.Registry
import SelectionPlan.Naming.Systematic
import SelectionPlan.Ordered
import SelectionPlan.Output.FileTree
import SelectionPlan.Output.Writers
import SelectionPlan.Pattern.Basic
import SelectionPlan.Pattern.Bracket
import SelectionPlan.Pattern.Escape
import SelectionPlan.Pattern.Reader
import SelectionPlan.Region
import SelectionPlan.Schedule.Basic
import SelectionPlan.Schedule.Order
import SelectionPlan.Schedule.Sha256
import SelectionPlan.Scope.Basic
import SelectionPlan.Settings.Basic
import SelectionPlan.Settings.Layers
import SelectionPlan.Text.Blank
import SelectionPlan.Text.Expansion
import SelectionPlan.Text.Hexadecimal
import SelectionPlan.Text.Letters
import SelectionPlan.Text.Quoted
import SelectionPlan.Text.Split
import SelectionPlan.Toml.Document
import SelectionPlan.Toml.Numeral
import SelectionPlan.Toml.Quotation
import SelectionPlan.Toml.Reader
import SelectionPlan.Toml.Record
import SelectionPlan.Toml.Value
import SelectionPlan.Tree.Basic
import SelectionPlan.Tree.Drawing
import SelectionPlan.Tree.Edit
import SelectionPlan.Variable
import SelectionPlan.Proofs.Ordered
import SelectionPlan.Proofs.Tree.Reachable
import SelectionPlan.Proofs.Tree.Path
import SelectionPlan.Proofs.Scope.Reads
import SelectionPlan.Proofs.Scope.Place
import SelectionPlan.Proofs.Scope.Affects
import SelectionPlan.Proofs.Scope.Readable
import SelectionPlan.Proofs.Scope.Uncosted
import SelectionPlan.Proofs.Naming
import SelectionPlan.Proofs.Expression.Words
import SelectionPlan.Proofs.Expression.Lexing
import SelectionPlan.Proofs.Expression.Grammar
import SelectionPlan.Proofs.Expression.Unambiguous
import SelectionPlan.Proofs.Expression.Parsing
import SelectionPlan.Proofs.Expression.Accepting
import SelectionPlan.Proofs.Expression.Meaning
import SelectionPlan.Proofs.Expression.Occurrences
import SelectionPlan.Proofs.Expression.Respelling
import SelectionPlan.Proofs.Expression.Renaming
import SelectionPlan.Proofs.Graph.Lineage
import SelectionPlan.Proofs.Graph.Task
import SelectionPlan.Proofs.Graph.Content
import SelectionPlan.Proofs.Graph.Sound
import SelectionPlan.Proofs.Graph.Planning
import SelectionPlan.Proofs.Graph.Plans
import SelectionPlan.Proofs.Graph.Built
import SelectionPlan.Proofs.Graph.Consumer
import SelectionPlan.Proofs.Graph.Dependencies
import SelectionPlan.Proofs.Graph.Renumber
import SelectionPlan.Proofs.Graph.Subset
import SelectionPlan.Proofs.Graph.History
import SelectionPlan.Proofs.Graph.Unique
import SelectionPlan.Proofs.Graph.Sharing
import SelectionPlan.Proofs.Graph.Linear
import SelectionPlan.Proofs.Graph.Requests
import SelectionPlan.Proofs.Graph.Plannable
import SelectionPlan.Proofs.Graph.Coherent
import SelectionPlan.Proofs.Graph.Columns
import SelectionPlan.Proofs.Graph.Uncosted
import SelectionPlan.Proofs.Execution.Accounts
import SelectionPlan.Proofs.Execution.Along
import SelectionPlan.Proofs.Execution.Construct
import SelectionPlan.Proofs.Execution.Realize
import SelectionPlan.Proofs.Execution.Delivery
import SelectionPlan.Proofs.Schedule.Built
import SelectionPlan.Proofs.Execution.Reached
import SelectionPlan.Proofs.Execution.Isolation
import SelectionPlan.Proofs.Execution.Orderly
import SelectionPlan.Proofs.Meaning.Frames
import SelectionPlan.Proofs.Meaning.Evaluate
import SelectionPlan.Proofs.Meaning.Results
import SelectionPlan.Proofs.Meaning.Execute
import SelectionPlan.Proofs.Execution.Subset
import SelectionPlan.Proofs.Execution.Unaffected
import SelectionPlan.Proofs.Meaning.Shadowing
import SelectionPlan.Proofs.Backend.Plain
import SelectionPlan.Proofs.Backend.Engine
import SelectionPlan.Proofs.Execution.Exchange
import SelectionPlan.Proofs.Schedule.Permutation
import SelectionPlan.Proofs.Execution.Reports
import SelectionPlan.Proofs.Execution.Steps
import SelectionPlan.Proofs.Execution.Outcome
import SelectionPlan.Proofs.Execution.Journal
import SelectionPlan.Proofs.Schedule.Cost
import SelectionPlan.Proofs.Graph.Nominal
import SelectionPlan.Proofs.Schedule.Skipped
import SelectionPlan.Proofs.Scope.Reach
import SelectionPlan.Proofs.Meaning.Reach
import SelectionPlan.Proofs.Output.Paths
import SelectionPlan.Proofs.Output.Files
import SelectionPlan.Proofs.Schedule.Greedy
import SelectionPlan.Proofs.Schedule.Counting
import SelectionPlan.Proofs.Tree.Weighing
import SelectionPlan.Proofs.Tree.Schema
import SelectionPlan.Proofs.Meaning.Weights
import SelectionPlan.Proofs.Analysis
import SelectionPlan.Proofs.Tree.Edits
import SelectionPlan.Proofs.Tree.Named
import SelectionPlan.Proofs.Tree.Linked
import SelectionPlan.Proofs.Tree.Traversal
import SelectionPlan.Proofs.Tree.Failed
import SelectionPlan.Proofs.Graph.DotReader
import SelectionPlan.Proofs.Graph.Drawn
import SelectionPlan.Proofs.Execution.Notices
import SelectionPlan.Proofs.Expression.Bytes
import SelectionPlan.Proofs.Expression.ByteLexer
import SelectionPlan.Proofs.Expression.Recorder
import SelectionPlan.Proofs.Expression.Safety
import SelectionPlan.Proofs.Scope.Tables
import SelectionPlan.Proofs.Scope.Lookup
import SelectionPlan.Proofs.Graph.Worklist
import SelectionPlan.Proofs.Graph.Needs
