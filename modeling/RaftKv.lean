import RaftKv.Library.Run
import RaftKv.Library.Rounds
import RaftKv.Library.Iterate
import RaftKv.Library.Unwinding
import RaftKv.Library.Ledger
import RaftKv.Library.LedgerSteps
import RaftKv.Library.IndexedLog
import RaftKv.Library.Chunks
import RaftKv.Library.Framing
import RaftKv.Library.Storage
import RaftKv.Library.Wire
import RaftKv.Library.Protobuf
import RaftKv.Library.Uvarint
import RaftKv.Library.Digits
import RaftKv.Library.Selection
import RaftKv.Library.Channel
import RaftKv.Raft.Basic
import RaftKv.Raft.Handlers
import RaftKv.Raft.Cluster
import RaftKv.Raft.Frame
import RaftKv.Raft.Quorum
import RaftKv.Raft.Election
import RaftKv.Raft.FullLog
import RaftKv.Raft.Leader
import RaftKv.Raft.Refinement
import RaftKv.Raft.Quiet
import RaftKv.Raft.Compaction
import RaftKv.Raft.Merge
import RaftKv.Raft.Replication
import RaftKv.Raft.Simulation
import RaftKv.Raft.Safety
import RaftKv.Raft.Delivery
import RaftKv.Raft.Commit
import RaftKv.Raft.Indices
import RaftKv.Raft.Leadership
import RaftKv.Raft.Heartbeat
import RaftKv.Raft.Backtracking
import RaftKv.Raft.OneVote
import RaftKv.Raft.CommittedLog
import RaftKv.Raft.Entries
import RaftKv.Server.KVServer
import RaftKv.Server.ExactlyOnce
import RaftKv.Server.System
import RaftKv.Server.ApplyStream
import RaftKv.Server.ReadIndex
import RaftKv.Server.Effects
import RaftKv.Server.Replicas
import RaftKv.Server.Provenance
import RaftKv.Server.Clerk
import RaftKv.Persister.Basic
import RaftKv.Persister.Restart
import RaftKv.Persister.Writer
import RaftKv.Persister.Durability
import RaftKv.Persister.Crash
import RaftKv.Persister.Recovery
import RaftKv.Persister.Channel
import RaftKv.Persister.Terms
import RaftKv.Persister.Lifecycle
import RaftKv.Persister.StatFile
import RaftKv.Persister.Shared
import RaftKv.Persister.CheckSums
import RaftKv.Persister.Ahead
import RaftKv.Persister.SnapFiles
import RaftKv.Wal.Basic
import RaftKv.Wal.Memory
import RaftKv.Wal.Entries
import RaftKv.Wal.Directory
import RaftKv.Wal.Truncate
import RaftKv.Wal.Refinement
import RaftKv.Wal.Crash
import RaftKv.Wal.Torn
import RaftKv.Wal.Failed
import RaftKv.Wal.Faults
import RaftKv.Wal.Containment
import RaftKv.Wal.Parsing
import RaftKv.Proxy.Messages
import RaftKv.Proxy.Receive
import RaftKv.Proxy.Malformed
import RaftKv.Proxy.Endpoints
import RaftKv.Server.ClusterManager
import RaftKv.Server.StatusSync
import RaftKv.Server.Weights
import RaftKv.Server.Accounts
import RaftKv.Server.Connections
import RaftKv.Server.Pipeline
import RaftKv.Server.Requests
import RaftKv.Server.Stalled
import RaftKv.Server.Pick
import RaftKv.Server.Dialing
