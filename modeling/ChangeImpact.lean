import ChangeImpact.Decimal.Shortest
import ChangeImpact.Diff.Group
import ChangeImpact.Diff.Hunk
import ChangeImpact.Diff.Script
import ChangeImpact.Diff.Settle
import ChangeImpact.Diff.Snake
import ChangeImpact.Extraction.C
import ChangeImpact.Extraction.CSharp
import ChangeImpact.Extraction.Facet
import ChangeImpact.Extraction.Go
import ChangeImpact.Extraction.Java
import ChangeImpact.Extraction.Php
import ChangeImpact.Extraction.Pool
import ChangeImpact.Extraction.Project
import ChangeImpact.Extraction.Python
import ChangeImpact.Extraction.Ruby
import ChangeImpact.Extraction.Rust
import ChangeImpact.Extraction.TypeScript
import ChangeImpact.Failure
import ChangeImpact.Findings
import ChangeImpact.Graph.Build
import ChangeImpact.Graph.Edge
import ChangeImpact.Graph.Index
import ChangeImpact.Instant
import ChangeImpact.Json.Basic
import ChangeImpact.Json.Decode
import ChangeImpact.Json.Number
import ChangeImpact.Json.Printer
import ChangeImpact.Json.Reader
import ChangeImpact.Language
import ChangeImpact.Locks
import ChangeImpact.Objects.Directory
import ChangeImpact.Objects.Key
import ChangeImpact.Objects.Memory
import ChangeImpact.Ordered
import ChangeImpact.Ownership
import ChangeImpact.Path
import ChangeImpact.Proofs.Graph.Current
import ChangeImpact.Proofs.Graph.Dependents
import ChangeImpact.Proofs.Graph.Edges
import ChangeImpact.Proofs.Graph.Exact
import ChangeImpact.Proofs.Graph.Index
import ChangeImpact.Proofs.Graph.Stored
import ChangeImpact.Proofs.Operation
import ChangeImpact.Proofs.Ordered
import ChangeImpact.Proofs.Propagation
import ChangeImpact.Proofs.Store.Frames
import ChangeImpact.Proofs.Store.Intact
import ChangeImpact.Proofs.Store.Promoted
import ChangeImpact.Proofs.Store.Reading
import ChangeImpact.Proofs.Store.Rows
import ChangeImpact.Proofs.Workflow.Accountability
import ChangeImpact.Proofs.Workflow.Advance
import ChangeImpact.Proofs.Workflow.Aged
import ChangeImpact.Proofs.Workflow.Agreement
import ChangeImpact.Proofs.Workflow.Analysed
import ChangeImpact.Proofs.Workflow.Authority
import ChangeImpact.Proofs.Workflow.Decided
import ChangeImpact.Proofs.Workflow.Dossier
import ChangeImpact.Proofs.Workflow.Exactness
import ChangeImpact.Proofs.Workflow.Identifiers
import ChangeImpact.Proofs.Workflow.Indexed
import ChangeImpact.Proofs.Workflow.Lifecycle
import ChangeImpact.Proofs.Workflow.Outcomes
import ChangeImpact.Proofs.Workflow.Promotion
import ChangeImpact.Proofs.Workflow.Refusal
import ChangeImpact.Proofs.Workflow.Run
import ChangeImpact.Propagation
import ChangeImpact.Records
import ChangeImpact.Records.Written
import ChangeImpact.Scan.FileTree
import ChangeImpact.Scan.Glob
import ChangeImpact.Scan.Ignore
import ChangeImpact.Scan.Pattern
import ChangeImpact.Scan.Walk
import ChangeImpact.Settings
import ChangeImpact.Store.Decisions
import ChangeImpact.Store.Files
import ChangeImpact.Store.Graph
import ChangeImpact.Store.Location
import ChangeImpact.Store.Overwrite
import ChangeImpact.Store.Projects
import ChangeImpact.Store.Requests
import ChangeImpact.Store.Schema
import ChangeImpact.Store.Tables
import ChangeImpact.Symbols.Basic
import ChangeImpact.Symbols.Snapshot
import ChangeImpact.Syntax.Node
import ChangeImpact.Syntax.Tree
import ChangeImpact.Text.Classes
import ChangeImpact.Text.Digest
import ChangeImpact.Text.Pieces
import ChangeImpact.Text.Utf8
import ChangeImpact.Words
import ChangeImpact.Workflow.Aging
import ChangeImpact.Workflow.Analysis
import ChangeImpact.Workflow.Approval
import ChangeImpact.Workflow.Indexing
import ChangeImpact.Workflow.Requests
import ChangeImpact.Workflow.World
import ChangeImpact.Proofs.Store.Content
import ChangeImpact.Proofs.Workflow.Effects
import ChangeImpact.Proofs.Workflow.Found
import ChangeImpact.Proofs.Workflow.Reviewed
import ChangeImpact.Proofs.Workflow.Flags
import ChangeImpact.Proofs.Workflow.Snapshots
import ChangeImpact.Proofs.Workflow.Committed
import ChangeImpact.Proofs.Workflow.Swept
import ChangeImpact.Proofs.Workflow.Ledger
import ChangeImpact.Proofs.Workflow.Reindexed
import ChangeImpact.Proofs.Store.Uncommented
import ChangeImpact.Proofs.Workflow.Assistance
import ChangeImpact.Proofs.Workflow.News
import ChangeImpact.Proofs.Workflow.Announcements
import ChangeImpact.Proofs.Store.Parts
import ChangeImpact.Proofs.Workflow.Isolation
import ChangeImpact.Store.Connection
import ChangeImpact.Store.Database
import ChangeImpact.Proofs.Store.Connection
import ChangeImpact.Proofs.Store.Transactions
import ChangeImpact.Proofs.Store.Commands
import ChangeImpact.Store.Migration
import ChangeImpact.Proofs.Settings
import ChangeImpact.Proofs.Store.Migration
import ChangeImpact.Proofs.Instant
import ChangeImpact.Proofs.Workflow.Calendar
import ChangeImpact.Proofs.Extraction.Lines
import ChangeImpact.Proofs.Symbols.Snapshot
import ChangeImpact.Proofs.Syntax.Preorder
import ChangeImpact.Proofs.Objects.Directory
import ChangeImpact.Proofs.Changed
import ChangeImpact.Proofs.Reach.Exact
import ChangeImpact.Proofs.Reach.Union
import ChangeImpact.Proofs.Workflow.Approval
import ChangeImpact.Proofs.Diff.Script
import ChangeImpact.Proofs.Diff.Settle
import ChangeImpact.Proofs.Diff.Group
import ChangeImpact.Proofs.Diff.Lines
import ChangeImpact.Proofs.Diff.Rebuild
import ChangeImpact.Proofs.Diff.Numbers
import ChangeImpact.Proofs.Text.Utf8
import ChangeImpact.Proofs.Workflow.Unchanged
import ChangeImpact.Proofs.Text.Pieces
import ChangeImpact.Proofs.Path.Normal
import ChangeImpact.Proofs.Path.Resolution
import ChangeImpact.Proofs.Graph.Merge
import ChangeImpact.Proofs.Graph.History
import ChangeImpact.Proofs.Workflow.Locality
import ChangeImpact.Proofs.Findings
import ChangeImpact.Proofs.Scan.Sensitive
import ChangeImpact.Proofs.Extraction.Relative
import ChangeImpact.Proofs.Extraction.Statements
import ChangeImpact.Proofs.Extraction.Clauses
import ChangeImpact.Proofs.Extraction.Defaults
import ChangeImpact.Proofs.Extraction.Signatures
import ChangeImpact.Proofs.Extraction.UseTrees
import ChangeImpact.Proofs.Graph.Exporters
import ChangeImpact.Proofs.Syntax.Walk
