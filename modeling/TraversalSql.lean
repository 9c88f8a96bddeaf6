import TraversalSql.CommandLine
import TraversalSql.Document.Basic
import TraversalSql.Document.Yaml
import TraversalSql.Document.Yaml.Character
import TraversalSql.Document.Yaml.Cursor
import TraversalSql.Document.Yaml.Layout
import TraversalSql.Document.Yaml.Scalar
import TraversalSql.Document.Yaml.Tag
import TraversalSql.Document.Yaml.Token
import TraversalSql.Fusion.Bucket
import TraversalSql.Fusion.Chain
import TraversalSql.Fusion.Error
import TraversalSql.Fusion.Feasibility
import TraversalSql.Fusion.Machine
import TraversalSql.Main
import TraversalSql.Number.Double
import TraversalSql.Number.Notation
import TraversalSql.Number.Reading
import TraversalSql.Number.Shortest
import TraversalSql.Proofs.Arena
import TraversalSql.Proofs.Arrivals
import TraversalSql.Proofs.Descent
import TraversalSql.Proofs.Growth
import TraversalSql.Proofs.IdFilters
import TraversalSql.Proofs.PlainRuns
import TraversalSql.Proofs.Pruning
import TraversalSql.Proofs.Sorted
import TraversalSql.Proofs.Statements
import TraversalSql.Proofs.StoredGraph
import TraversalSql.Proofs.Topology
import TraversalSql.Proofs.Walks
import TraversalSql.Rows.Assembler
import TraversalSql.Rows.Decoder
import TraversalSql.Rows.Element
import TraversalSql.Rows.Error
import TraversalSql.Rows.Export
import TraversalSql.Rows.Session
import TraversalSql.Schema.Description
import TraversalSql.Schema.Error
import TraversalSql.Schema.Table
import TraversalSql.Schema.Topology
import TraversalSql.Settings
import TraversalSql.Sorted.Map
import TraversalSql.Sorted.Set
import TraversalSql.Sql.Alias
import TraversalSql.Sql.Bulk
import TraversalSql.Sql.Compose
import TraversalSql.Sql.Condition
import TraversalSql.Sql.Dialect
import TraversalSql.Sql.Drop
import TraversalSql.Sql.Error
import TraversalSql.Sql.Fragment
import TraversalSql.Sql.Plan
import TraversalSql.Sql.Select
import TraversalSql.Sql.Statement
import TraversalSql.Text.Blank
import TraversalSql.Text.Cut
import TraversalSql.Traversal.Call
import TraversalSql.Traversal.Hop
import TraversalSql.Traversal.Ordering
import TraversalSql.Traversal.Parser
import TraversalSql.Traversal.Step
import TraversalSql.Tree.Basic
import TraversalSql.Tree.Build
import TraversalSql.Tree.Expand
import TraversalSql.Tree.Ids
import TraversalSql.Tree.Paths
import TraversalSql.Tree.Prune
import TraversalSql.Value.Basic
import TraversalSql.Value.Predicate
import TraversalSql.Value.Record
import TraversalSql.Proofs.OptionalParts
import TraversalSql.Proofs.Reading
import TraversalSql.Proofs.Scanning
import TraversalSql.Proofs.Composing
import TraversalSql.Proofs.Chains
import TraversalSql.Proofs.Stacks
import TraversalSql.Proofs.Aliases
import TraversalSql.Proofs.Scopes
import TraversalSql.Proofs.Identifiers
import TraversalSql.Proofs.Placeholders
import TraversalSql.Proofs.Layers
import TraversalSql.Proofs.Projection
import TraversalSql.Proofs.Decoding
import TraversalSql.Proofs.FusedRuns
import TraversalSql.Proofs.Refusals
import TraversalSql.Proofs.Executions
import TraversalSql.Proofs.SortKeys
import TraversalSql.Proofs.Assembly
import TraversalSql.Proofs.Literals
import TraversalSql.Proofs.LiteralTrees
import TraversalSql.Proofs.LiteralStatements
import TraversalSql.Proofs.HiddenLiterals
import TraversalSql.Proofs.Transcripts
import TraversalSql.Proofs.Courses
import TraversalSql.Proofs.TemporaryNames
import TraversalSql.Proofs.Readiness
import TraversalSql.Proofs.Release
import TraversalSql.Proofs.Doubles
import TraversalSql.Proofs.Memberships
import TraversalSql.Proofs.BulkJoins
import TraversalSql.Proofs.Registrations
import TraversalSql.Proofs.Survivors
import TraversalSql.Proofs.TerminalNames
import TraversalSql.Proofs.Results
import TraversalSql.Proofs.Spelling
import TraversalSql.Proofs.ParsedChains
import TraversalSql.Proofs.Printing
import TraversalSql.Proofs.TreeCalls
import TraversalSql.Proofs.Phases
import TraversalSql.Proofs.Segments
import TraversalSql.Proofs.SilentRoots
import TraversalSql.Proofs.IdLiterals
import TraversalSql.Proofs.Absorption
import TraversalSql.Proofs.BoundRoots
import TraversalSql.Proofs.SharedPrefixes
import TraversalSql.Proofs.RenderedFilters
import TraversalSql.Proofs.HopEdits
import TraversalSql.Proofs.RunShapes
import TraversalSql.Proofs.SortSteps
import TraversalSql.Proofs.SortPriority
import TraversalSql.Proofs.Windows
import TraversalSql.Proofs.ColumnNames
import TraversalSql.Proofs.Deletions
import TraversalSql.Proofs.InnerJoins
import TraversalSql.Proofs.Escapes
import TraversalSql.Proofs.Reprints
import TraversalSql.Proofs.AliasCalls
import TraversalSql.Proofs.IdTables
import TraversalSql.Proofs.RecordTexts
import TraversalSql.Proofs.LoopControls
import TraversalSql.Proofs.DoubleTexts
import TraversalSql.Proofs.Fitting
import TraversalSql.Proofs.IntegerTexts
import TraversalSql.Proofs.Phrases
import TraversalSql.Proofs.ScopedTexts
import TraversalSql.Proofs.WholeLinks
import TraversalSql.Proofs.Wording
