import SemanticIndex.Collect.Basic
import SemanticIndex.Collect.Documentation
import SemanticIndex.Command.Args
import SemanticIndex.Command.Basic
import SemanticIndex.Command.Report
import SemanticIndex.Command.Run
import SemanticIndex.Command.World
import SemanticIndex.Config.Basic
import SemanticIndex.Config.Setting
import SemanticIndex.Files.Discovery
import SemanticIndex.Files.Exclusion
import SemanticIndex.Files.FileTree
import SemanticIndex.Files.Path
import SemanticIndex.Glob.Lexeme
import SemanticIndex.Glob.Match
import SemanticIndex.Glob.Pattern
import SemanticIndex.Index.Channel
import SemanticIndex.Index.Lookup
import SemanticIndex.Index.Query
import SemanticIndex.Index.Repository
import SemanticIndex.Index.State
import SemanticIndex.Index.Waiter
import SemanticIndex.Index.Walk
import SemanticIndex.Json.Double
import SemanticIndex.Json.Fields
import SemanticIndex.Json.Number
import SemanticIndex.Json.Raw
import SemanticIndex.Json.Text
import SemanticIndex.Json.Token
import SemanticIndex.Json.Value
import SemanticIndex.Main
import SemanticIndex.Name.Context
import SemanticIndex.Name.Fqn
import SemanticIndex.Name.Region
import SemanticIndex.Record.Basic
import SemanticIndex.Resolve.Declared
import SemanticIndex.Resolve.Enclosing
import SemanticIndex.Resolve.Referenced
import SemanticIndex.Resolve.Target
import SemanticIndex.Rpc.Connection
import SemanticIndex.Rpc.Message
import SemanticIndex.Rpc.Reply
import SemanticIndex.Server.Call
import SemanticIndex.Server.Completion
import SemanticIndex.Server.Lifecycle
import SemanticIndex.Server.Listing
import SemanticIndex.Server.Lookup
import SemanticIndex.Server.Package
import SemanticIndex.Server.Params
import SemanticIndex.Server.Place
import SemanticIndex.Snapshot.Load
import SemanticIndex.Snapshot.Store
import SemanticIndex.Snapshot.Tables
import SemanticIndex.Snapshot.Timestamp
import SemanticIndex.Source.Line
import SemanticIndex.Source.Position
import SemanticIndex.Sync.Disk
import SemanticIndex.Sync.Documents
import SemanticIndex.Sync.Indexer
import SemanticIndex.Sync.Php
import SemanticIndex.Sync.Sweep
import SemanticIndex.Sync.Watch
import SemanticIndex.Text.Blank
import SemanticIndex.Text.Bytes
import SemanticIndex.Text.CaseTable
import SemanticIndex.Text.Lowercase
import SemanticIndex.Text.Search
import SemanticIndex.Text.Utf8
import SemanticIndex.Toml.Parse
import SemanticIndex.Toml.Quoted
import SemanticIndex.Toml.Scalar
import SemanticIndex.Toml.Value
import SemanticIndex.Tree.Basic
import SemanticIndex.Tree.Concrete
import SemanticIndex.Tree.Kind
import SemanticIndex.Tree.Label
import SemanticIndex.Tree.Listing
import SemanticIndex.Tree.Lowering
import SemanticIndex.Url.Basic
import SemanticIndex.Url.File
import SemanticIndex.Url.Host
import SemanticIndex.Url.Parse
import SemanticIndex.Url.Percent
import SemanticIndex.Url.Punycode
import SemanticIndex.Url.Segments
import SemanticIndex.Proofs.Index.Consistency
import SemanticIndex.Proofs.Text.ByteOrder
import SemanticIndex.Proofs.Index.FileList
import SemanticIndex.Proofs.Index.Insertion
import SemanticIndex.Proofs.Index.Refinement
import SemanticIndex.Proofs.Index.Ancestry
import SemanticIndex.Proofs.Index.Announcement
import SemanticIndex.Proofs.Index.Restoration
import SemanticIndex.Proofs.Waiting.Traffic
import SemanticIndex.Proofs.Waiting.Wakeup
import SemanticIndex.Proofs.Waiting.History
import SemanticIndex.Proofs.Index.SearchOrder
import SemanticIndex.Proofs.Waiting.EarlyAnswer
import SemanticIndex.Proofs.Tree.Preorder
import SemanticIndex.Proofs.Collect.Regions
import SemanticIndex.Proofs.Collect.Agreement
import SemanticIndex.Proofs.Source.Positions
import SemanticIndex.Proofs.Tree.Descent
import SemanticIndex.Proofs.Resolve.Cursor
import SemanticIndex.Proofs.Collect.Records
import SemanticIndex.Proofs.Resolve.Declaration
import SemanticIndex.Proofs.Index.Liveness
import SemanticIndex.Proofs.Index.OrderIndependence
import SemanticIndex.Proofs.Json.NameList
import SemanticIndex.Proofs.Snapshot.Filing
import SemanticIndex.Proofs.Snapshot.RoundTrip
import SemanticIndex.Proofs.Sweep.Contents
import SemanticIndex.Proofs.Index.Ownership
import SemanticIndex.Proofs.Server.Usages
import SemanticIndex.Proofs.Sweep.Rest
import SemanticIndex.Proofs.Sweep.Repetition
import SemanticIndex.Proofs.Sync.Overlay
import SemanticIndex.Proofs.Server.Session
import SemanticIndex.Proofs.Sync.LastWrite
import SemanticIndex.Proofs.Sync.Versions
import SemanticIndex.Proofs.Snapshot.Interruption
import SemanticIndex.Proofs.Snapshot.Acceptance
import SemanticIndex.Proofs.Rpc.Replies
import SemanticIndex.Proofs.Index.Inheritance
import SemanticIndex.Proofs.Source.Columns
import SemanticIndex.Proofs.Tree.Traversal
import SemanticIndex.Proofs.Tree.Lowered
import SemanticIndex.Proofs.Server.Handling
import SemanticIndex.Proofs.Server.Phases
import SemanticIndex.Proofs.Server.Lifecycle
import SemanticIndex.Proofs.Sync.Isolation
import SemanticIndex.Proofs.Server.Vanished
import SemanticIndex.Proofs.Server.Freshness
import SemanticIndex.Proofs.Snapshot.Namespaces
import SemanticIndex.Proofs.Index.Events
import SemanticIndex.Proofs.Collect.Integrity
import SemanticIndex.Proofs.Text.Folding
import SemanticIndex.Proofs.Collect.Naming
import SemanticIndex.Proofs.Name.Resolution
import SemanticIndex.Proofs.Sync.Registers
import SemanticIndex.Proofs.Files.Pruning
import SemanticIndex.Proofs.Tree.NameEnd
import SemanticIndex.Proofs.Index.Representation
import SemanticIndex.Proofs.Text.Trimming
import SemanticIndex.Proofs.Collect.Comments
import SemanticIndex.Proofs.Server.Arrangement
import SemanticIndex.Proofs.Index.Visiting
import SemanticIndex.Proofs.Server.Access
import SemanticIndex.Proofs.Server.Members
