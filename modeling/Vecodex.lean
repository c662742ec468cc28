import Vecodex.Lib.TopK
import Vecodex.Lib.Machine
import Vecodex.Lib.Grid
import Vecodex.Lib.Runs
import Vecodex.Lib.Ledger
import Vecodex.Lib.Binary
import Vecodex.Lib.Paths
import Vecodex.Index.Segment
import Vecodex.Index.Storage
import Vecodex.Index.Index
import Vecodex.Index.Codec
import Vecodex.App.Writer
import Vecodex.App.System
import Vecodex.App.Etcd
import Vecodex.Laws.Faiss
import Vecodex.Laws.Base
import Vecodex.Laws.Contents
import Vecodex.Laws.SegmentSearch
import Vecodex.Laws.Steps
import Vecodex.Laws.Shape
import Vecodex.Laws.Visited
import Vecodex.Laws.SegmentIds
import Vecodex.Laws.Search
import Vecodex.Laws.Documents
import Vecodex.Laws.Total
import Vecodex.Laws.BruteForce
import Vecodex.Laws.Deletion
import Vecodex.Laws.Callback
import Vecodex.Laws.SegmentLists
import Vecodex.Laws.Pool
import Vecodex.Laws.Merging
import Vecodex.Laws.Feed
import Vecodex.Laws.Codec
import Vecodex.Laws.Writer
import Vecodex.Laws.DeleteRequests
import Vecodex.Laws.Tasks
import Vecodex.Laws.UpdateLog
import Vecodex.Laws.Casts
import Vecodex.Laws.Routing
import Vecodex.Laws.Registry
import Vecodex.App.Merging
import Vecodex.App.Coordinator
import Vecodex.Laws.Coordinator
import Vecodex.Laws.RankFusion
import Vecodex.Laws.Objects
import Vecodex.App.Archive
import Vecodex.Laws.Archive
import Vecodex.Laws.Growth
import Vecodex.Laws.StoreRule
import Vecodex.Laws.Durability
import Vecodex.Laws.Buckets
import Vecodex.Laws.Replication
import Vecodex.Laws.Fusion
import Vecodex.App.Answers
import Vecodex.Laws.Stats
import Vecodex.Laws.Answers
import Vecodex.App.Updates
import Vecodex.Laws.Updates
import Vecodex.Laws.Sealing
import Vecodex.Laws.Sizes
import Vecodex.Laws.Truncation
import Vecodex.Laws.ResultLists
import Vecodex.Laws.Rows
import Vecodex.Laws.Access
import Vecodex.Laws.Fresh
import Vecodex.Laws.Levels
import Vecodex.Laws.Budget
import Vecodex.App.Process
import Vecodex.Laws.Process
import Vecodex.Laws.ShardTable
import Vecodex.Laws.LiveIds
import Vecodex.Laws.Gauge
import Vecodex.App.Operator
import Vecodex.Laws.Operator
import Vecodex.Laws.Holdings
import Vecodex.Laws.Replicas
import Vecodex.Lib.ReadersWriter
import Vecodex.Index.Shared
import Vecodex.Laws.Linearizability
import Vecodex.App.Exposer
import Vecodex.Laws.Exposer
import Vecodex.App.Locks
import Vecodex.Laws.Locks
import Vecodex.App.World
import Vecodex.Laws.Provenance
import Vecodex.Laws.Availability
import Vecodex.Laws.Inert
import Vecodex.App.Fleet
import Vecodex.Laws.Fleet
import Vecodex.Laws.Visibility
import Vecodex.App.Scaling
import Vecodex.Laws.Scaling
import Vecodex.App.Handlers
import Vecodex.Laws.Handlers
