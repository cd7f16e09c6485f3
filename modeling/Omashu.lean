import Omashu.Lib.Run
import Omashu.Lib.WaterMark
import Omashu.Store.Badger
import Omashu.Store.Fsm
import Omashu.Store.Reads
import Omashu.Store.Scans
import Omashu.Store.Paging
import Omashu.Tso.Monotone
import Omashu.Leader.FailedWrites
import Omashu.Leader.Oracle
import Omashu.Leader.System
import Omashu.Leader.Conflicts
import Omashu.Leader.Snapshots
import Omashu.Leader.Serial
import Omashu.Store.Counter
import Omashu.Leader.Counters
import Omashu.Tso.Window
import Omashu.Tso.Terms
import Omashu.Raft.Propose
import Omashu.Lib.Suffix
import Omashu.Raft.Storage
import Omashu.Raft.Applied
import Omashu.Lib.Lift
import Omashu.Store.View
import Omashu.Store.Applicable
import Omashu.Leader.Accepted
import Omashu.Lib.Reinstall
import Omashu.Raft.Replicas
import Omashu.Leader.Order
import Omashu.Leader.Pipeline
import Omashu.Leader.Writers
import Omashu.Raft.Batches
import Omashu.Leader.Gc
import Omashu.Leader.Serving
import Omashu.Raft.ReadIndex
import Omashu.Store.Timed
import Omashu.Store.Transaction
import Omashu.Store.Sequences
import Omashu.Store.PrefixDeletion
import Omashu.Leader.OwnWrites
import Omashu.Raft.ConfStates
import Omashu.Raft.ReadStates
import Omashu.Tso.Compose
import Omashu.Tso.Edge
import Omashu.Tso.Bound
import Omashu.Leader.Marks
import Omashu.Raft.Responses
import Omashu.Leader.Alone
import Omashu.Store.Settled
import Omashu.Leader.Sequential
import Omashu.Raft.Recovery
import Omashu.Raft.Crash
import Omashu.Raft.Restart
import Omashu.Leader.Registrations
import Omashu.Raft.Removal
import Omashu.Raft.Thresholds
import Omashu.Leader.Lifecycle
import Omashu.Leader.ConflictSet
import Omashu.Leader.ReadOnly
import Omashu.Store.Counting
import Omashu.Lib.Protobuf
import Omashu.Store.Protobuf
import Omashu.Lib.Json
import Omashu.Store.JsonUpdates
import Omashu.Lib.Wire
import Omashu.Store.Encoding
import Omashu.Store.Entries
import Omashu.Raft.Transport
import Omashu.Raft.Shutdown
import Omashu.Lib.Overlay
import Omashu.Raft.SnapshotMessages
import Omashu.Leader.Startup
import Omashu.Lib.Writers
import Omashu.Raft.ReadPressure
import Omashu.Store.JsonPaths
import Omashu.Store.LogOrder
import Omashu.Lib.Optimistic
import Omashu.Store.SingleNode
import Omashu.Raft.Bootstrap
import Omashu.Lib.Ratchet
import Omashu.Store.BulkReads
import Omashu.Lib.Outcomes
import Omashu.Raft.CatchUp
import Omashu.Store.Config
import Omashu.Leader.Schemas
import Omashu.Store.Managed
