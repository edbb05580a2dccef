import Bkndb.Basic.Bytes
import Bkndb.Basic.Except
import Bkndb.Basic.Ieee
import Bkndb.Basic.Run
import Bkndb.Basic.OrdMap
import Bkndb.Core.Error
import Bkndb.Core.Text
import Bkndb.Core.Value
import Bkndb.Relational.Ann.Graph
import Bkndb.Relational.Ann.Index
import Bkndb.Relational.Ann.Invariant
import Bkndb.Relational.Catalog
import Bkndb.Relational.Codec
import Bkndb.Relational.Consistent
import Bkndb.Relational.Db
import Bkndb.Relational.Expr
import Bkndb.Relational.Fulltext
import Bkndb.Relational.FulltextMirror
import Bkndb.Relational.Invariant
import Bkndb.Relational.Migrate
import Bkndb.Relational.Plan
import Bkndb.Relational.Query
import Bkndb.Relational.RowChange
import Bkndb.Relational.Run
import Bkndb.Relational.Schema
import Bkndb.Relational.Select
import Bkndb.Relational.StoreInvariant
import Bkndb.Relational.Table
import Bkndb.Relational.Values
import Bkndb.Relational.VectorMirror
import Bkndb.Relational.Write
import Bkndb.Graph.Codec
import Bkndb.Graph.Delete
import Bkndb.Graph.Entries
import Bkndb.Graph.Index
import Bkndb.Graph.Invariant
import Bkndb.Graph.Maintain
import Bkndb.Graph.Manage
import Bkndb.Graph.Ops
import Bkndb.Graph.Preserve
import Bkndb.Graph.Run
import Bkndb.Graph.StoreInvariant
import Bkndb.Ffi.Transaction
import Bkndb.Ffi.AbortRule
import Bkndb.Basic.Crc32
import Bkndb.Basic.File
import Bkndb.Basic.Bincode
import Bkndb.Lsm.Container
import Bkndb.Lsm.TornHeader
import Bkndb.Lsm.Manifest
import Bkndb.Lsm.Wal
import Bkndb.Basic.Effect
import Bkndb.Basic.Os
import Bkndb.Lsm.WalRun
import Bkndb.Lsm.Bloom
import Bkndb.Lsm.Memtable
import Bkndb.Lsm.SstFormat
import Bkndb.Lsm.Sstable
import Bkndb.Lsm.SstHolds
import Bkndb.Lsm.SstWrite
import Bkndb.Lsm.SstOpen
import Bkndb.Lsm.SstRoundTrip
import Bkndb.Basic.Layers
import Bkndb.Lsm.Compaction
import Bkndb.Lsm.Keys
import Bkndb.Lsm.Engine
import Bkndb.Lsm.Tx
import Bkndb.Lsm.Image
import Bkndb.Lsm.Writes
import Bkndb.Lsm.Invariant
import Bkndb.Lsm.Flush
import Bkndb.Lsm.Malformed
import Bkndb.Lsm.MergeHeap
import Bkndb.Relational.PointAccess
import Bkndb.Graph.NodePart
import Bkndb.Graph.FindNodes
import Bkndb.Graph.Neighbors
import Bkndb.Relational.WriteErrors
import Bkndb.Relational.PkCounter
import Bkndb.Relational.FreshKeys
import Bkndb.Relational.Statement
import Bkndb.Relational.Atomic
import Bkndb.Relational.Adopt
import Bkndb.Relational.Builder
import Bkndb.Relational.EnsureTable
import Bkndb.Basic.Search
import Bkndb.Graph.Traversal
import Bkndb.Graph.CallTree
import Bkndb.Graph.ShortestPath
import Bkndb.Graph.Cascade
import Bkndb.Basic.Selection
import Bkndb.Graph.Hubs
import Bkndb.Graph.Bulk
import Bkndb.Db.Sync
import Bkndb.Basic.Dijkstra
import Bkndb.Graph.WeightedPath
import Bkndb.Db.Join
import Bkndb.Relational.TextSearch
import Bkndb.Relational.Search
import Bkndb.Relational.VectorSearch
import Bkndb.Lsm.Quiet
import Bkndb.Lsm.Writer
import Bkndb.Lsm.SnapshotRun
import Bkndb.Lsm.Open
import Bkndb.Lsm.Fresh
import Bkndb.Lsm.Sections
import Bkndb.Lang.AggState
import Bkndb.Lang.Hex
import Bkndb.Relational.VectorScan
import Bkndb.Lang.Cond
import Bkndb.Lang.Like
import Bkndb.Core.Leaves
import Bkndb.Core.TotalCmp
import Bkndb.Lang.Lexer
import Bkndb.Lang.Lexeme
import Bkndb.Lang.Tokenize
import Bkndb.Basic.Calendar
import Bkndb.Lang.Time
import Bkndb.Lang.Stamp
import Bkndb.Basic.Grouping
import Bkndb.Core.Serialize
import Bkndb.Relational.Aggregate
import Bkndb.Relational.GroupBy
import Bkndb.Basic.Tiling
import Bkndb.Lang.Civil
import Bkndb.Relational.KeyOrder
import Bkndb.Basic.Separator
import Bkndb.Relational.Names
import Bkndb.Relational.ReadSet
import Bkndb.Db.Physical
import Bkndb.Db.Kv
import Bkndb.Lang.MatchCond
import Bkndb.Lang.Conditions
import Bkndb.Lsm.Contents
import Bkndb.Lsm.Undisturbed
import Bkndb.Lsm.Session
import Bkndb.Lsm.Survival
import Bkndb.Lsm.FirstOpen
import Bkndb.Lsm.Client
import Bkndb.Lsm.ClientRun
import Bkndb.Lsm.Outcome
import Bkndb.Lsm.FailedFlush
import Bkndb.Lsm.Integrity
import Bkndb.Mem.Backend
import Bkndb.Mem.Agreement
import Bkndb.Mem.Client
import Bkndb.Lsm.Footprint
import Bkndb.Lsm.Backup
import Bkndb.Lsm.OnlineBackup
import Bkndb.Lang.MatchExec
import Bkndb.Lang.MatchExpand
import Bkndb.Lang.MatchSearch
import Bkndb.Lang.MatchBinding
import Bkndb.Lang.MatchAnchor
import Bkndb.Lang.MatchFind
import Bkndb.Lang.MatchPath
import Bkndb.Lang.MatchMeaning
import Bkndb.Lang.MatchIndex
import Bkndb.Lang.MatchProject
