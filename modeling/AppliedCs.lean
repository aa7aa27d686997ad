import AppliedCs.Cache.Theorems.Backlog
import AppliedCs.Cache.Theorems.CheckedResp
import AppliedCs.Cache.Theorems.Dict
import AppliedCs.Cache.Theorems.StringValues
import AppliedCs.Cache.Theorems.ZSets
import AppliedCs.Columnar.Theorems.Scan
import AppliedCs.Crdt.Theorems.AnyOrder
import AppliedCs.Crdt.Theorems.Counter
import AppliedCs.Crdt.Theorems.Formatting
import AppliedCs.Crdt.Theorems.FreshPosition
import AppliedCs.Crdt.Theorems.Intention
import AppliedCs.Crdt.Theorems.Offline
import AppliedCs.Crdt.Theorems.VectorClock
import AppliedCs.Crdt.Theorems.VersionHistory
import AppliedCs.GpuMemory.Theorems.Allocator
import AppliedCs.GpuMemory.Theorems.Topology
import AppliedCs.Interpreter.Theorems.Lexer
import AppliedCs.LogSystem.Theorems.Group
import AppliedCs.LogSystem.Theorems.Idempotent
import AppliedCs.LogSystem.Theorems.Watermark
import AppliedCs.MessageQueue.Theorems.Recovery
import AppliedCs.MessageQueue.Theorems.SegmentManager
import AppliedCs.MessageQueue.Theorems.Session
import AppliedCs.NetworkStack.Theorems.Congestion
import AppliedCs.NetworkStack.Theorems.Delivery
import AppliedCs.NetworkStack.Theorems.Http
import AppliedCs.NetworkStack.Theorems.Sender
import AppliedCs.Raft.Theorems.Acknowledgement
import AppliedCs.Raft.Theorems.CommitRule
import AppliedCs.Raft.Theorems.Compaction
import AppliedCs.Raft.Theorems.ElectionSafety
import AppliedCs.Raft.Theorems.Follower
import AppliedCs.Raft.Theorems.LogMatching
import AppliedCs.Raft.Theorems.MatchIndex
import AppliedCs.Raft.Theorems.Membership
import AppliedCs.Raft.Theorems.Progress
import AppliedCs.Raft.Theorems.Transfer
import AppliedCs.Raft.Theorems.Votes
import AppliedCs.Raft.Theorems.WalIndex
import AppliedCs.Tsdb.Theorems.Aggregation
import AppliedCs.Tsdb.Theorems.BatchWrite
import AppliedCs.Tsdb.Theorems.Database
import AppliedCs.Tsdb.Theorems.Faults
import AppliedCs.Tsdb.Theorems.ReadPath
import AppliedCs.Tsdb.Theorems.Rle
import AppliedCs.Tsdb.Theorems.TornLog
