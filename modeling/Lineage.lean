import Lineage.Analysis.Basic
import Lineage.Analysis.Closure
import Lineage.Analysis.Document
import Lineage.Analysis.Members
import Lineage.Analyze
import Lineage.Binding.Basic
import Lineage.Binding.Kind
import Lineage.Catalog
import Lineage.Command.Arguments
import Lineage.Command.Documents
import Lineage.Command.Help
import Lineage.Command.Pool
import Lineage.Command.Run
import Lineage.Dialect.Basic
import Lineage.Dialect.Grammar
import Lineage.Dialect.Rule
import Lineage.Error
import Lineage.Files.Basic
import Lineage.Files.Glob
import Lineage.Graph
import Lineage.Json.Basic
import Lineage.Json.Fields
import Lineage.Json.Literal
import Lineage.Json.Parser
import Lineage.Json.Printer
import Lineage.Location
import Lineage.Main
import Lineage.Proofs.Dialect.Operators
import Lineage.Proofs.Graph.Extension
import Lineage.Proofs.Graph.Growth
import Lineage.Proofs.Graph.WellFormed
import Lineage.Proofs.Scope.Faults
import Lineage.Proofs.Scope.Learning
import Lineage.Proofs.Scope.Schema
import Lineage.Proofs.Scope.Offers
import Lineage.Proofs.Scope.Progress
import Lineage.Proofs.Scope.Signals
import Lineage.Proofs.Scope.Tables
import Lineage.Proofs.Scope.WellFormed
import Lineage.Proofs.Text.Fold
import Lineage.Proofs.Tree.Links
import Lineage.Proofs.Walk.Barriers
import Lineage.Proofs.Walk.Discipline
import Lineage.Proofs.Walk.History
import Lineage.Proofs.Walk.Invariants
import Lineage.Proofs.Walk.Levels
import Lineage.Proofs.Walk.Moments
import Lineage.Proofs.Walk.Operations
import Lineage.Proofs.Walk.Operators
import Lineage.Proofs.Walk.Pairing
import Lineage.Proofs.Walk.Quiet
import Lineage.Proofs.Walk.Reached
import Lineage.Proofs.Walk.Script
import Lineage.Proofs.Walk.SelectList
import Lineage.Proofs.Walk.Sources
import Lineage.Proofs.Walk.Tables
import Lineage.Proofs.Walk.WellFormed
import Lineage.QualifiedName
import Lineage.Report.Duration
import Lineage.Report.Message
import Lineage.Report.Style
import Lineage.Report.Table
import Lineage.Schema.Basic
import Lineage.Schema.Document
import Lineage.Scope.Basic
import Lineage.Scope.Frame
import Lineage.Scope.Query
import Lineage.Scope.Reference
import Lineage.Scope.Resolve
import Lineage.Scope.Signal
import Lineage.Settings.Basic
import Lineage.Settings.Store
import Lineage.Stateful
import Lineage.Text.Blank
import Lineage.Text.CaseTable
import Lineage.Text.Fold
import Lineage.Text.Hex
import Lineage.Text.Lowercase
import Lineage.Text.Segments
import Lineage.Text.Width
import Lineage.Toml.Basic
import Lineage.Toml.Parser
import Lineage.Toml.Quoted
import Lineage.Toml.Scalar
import Lineage.Toml.Table
import Lineage.Tree.Basic
import Lineage.Tree.Document
import Lineage.Tree.Node
import Lineage.View.Declarations
import Lineage.View.Names
import Lineage.View.Queries
import Lineage.View.Statements
import Lineage.Walk.Basic
import Lineage.Walk.Declarations
import Lineage.Walk.Dispatch
import Lineage.Walk.Queries
import Lineage.Walk.Statements
import Lineage.Proofs.Text.Spelling
import Lineage.Proofs.Tree.Alike
import Lineage.Proofs.View.Alike
import Lineage.Proofs.Walk.Alike
import Lineage.Proofs.Scope.Names
import Lineage.Proofs.Walk.Names
import Lineage.Proofs.Graph.Kinds
import Lineage.Proofs.Scope.Kinds
import Lineage.Proofs.Tree.Spans
import Lineage.Proofs.Walk.Ledger
import Lineage.Proofs.Walk.Regions
import Lineage.Proofs.Walk.Hoisting
import Lineage.Proofs.Graph.Privacy
import Lineage.Proofs.Scope.Privacy
import Lineage.Proofs.Analysis.Closure
import Lineage.Proofs.Scope.Seeding
import Lineage.Proofs.Walk.Visits
import Lineage.Proofs.Walk.Located
import Lineage.Proofs.Walk.Arguments
import Lineage.Proofs.Tree.Preorder
import Lineage.Proofs.Command.Pool
import Lineage.Proofs.Json.Literal
import Lineage.Proofs.Json.RoundTrip
import Lineage.Proofs.Analysis.Document
import Lineage.Proofs.Walk.Aliases
import Lineage.Proofs.Text.Dots
import Lineage.Proofs.Scope.Columns
import Lineage.Proofs.Walk.Columns
import Lineage.Proofs.Walk.Existence
import Lineage.Proofs.Scope.Inserts
import Lineage.Proofs.Scope.External
import Lineage.Proofs.Walk.Inserts
import Lineage.Proofs.Walk.Records
import Lineage.Proofs.Tree.Navigation
import Lineage.Proofs.Scope.Qualified
import Lineage.Proofs.Scope.Shadowing
import Lineage.Proofs.Walk.Exits
import Lineage.Proofs.Walk.Packages
import Lineage.Proofs.Text.Segmentwise
import Lineage.Proofs.Graph.Edges
import Lineage.Proofs.Walk.Spellings
import Lineage.Proofs.Scope.Routing
import Lineage.Proofs.Scope.Collecting
import Lineage.Proofs.Scope.References
import Lineage.Proofs.Walk.NameRuns
import Lineage.Proofs.Analysis.Members
import Lineage.Proofs.Analysis.Paths
import Lineage.Proofs.Text.LastDot
import Lineage.Proofs.Graph.Catalogs
