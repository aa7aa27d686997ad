import AppliedCs.Raft.Node

namespace Raft

-- A node as it is created, with the storage and the snapshot store that it is given.
def RaftNode.create (config : RaftConfig) (now : Instant) (storage : Option MemoryStorage)
    (snapshotStore : Option SnapshotStore) : RaftNode :=
  { RaftNode.new config now with storage, snapshotStore }

-- The calls that change a single node, from its peers, its clients and its own event loop.
inductive Call
  | transitionToCandidate (now : Instant)
  | transitionToLeader
  | handleRequestVote (req : RequestVoteRequest) (now : Instant)
  | handleRequestVoteResponse (fromId : NodeId) (resp : RequestVoteResponse)
  | handleAppendEntries (req : AppendEntriesRequest) (now : Instant)
  | handleAppendEntriesResponse (fromId : NodeId) (resp : AppendEntriesResponse) (entriesSent : ℕ)
      (now : Instant)
  | propose (command : Command)
  | batchPropose (commands : List Command)
  | handleInstallSnapshot (req : InstallSnapshotRequest) (now : Instant)
  | clusterHandleInstallSnapshot (req : InstallSnapshotRequest) (now : Instant)
  | installSnapshotData (lastIncludedIndex lastIncludedTerm : ℕ)
  | createSnapshot
  | compactLog (upTo : ℕ)
  | transferLeadership (target : NodeId)
  | startPreVote
  | handlePreVoteRequest (req : RequestVoteRequest) (now : Instant) (timeout : Duration)
  | handlePreVoteResponse (fromId : NodeId) (resp : RequestVoteResponse) (now : Instant)

-- The node after a call. A call that returns an error leaves the node as it was.
def RaftNode.call (n : RaftNode) : Call → RaftNode
  | .transitionToCandidate now => n.transitionToCandidate now
  | .transitionToLeader => n.transitionToLeader
  | .handleRequestVote req now => (n.handleRequestVote req now).1
  | .handleRequestVoteResponse fromId resp => n.handleRequestVoteResponse fromId resp
  | .handleAppendEntries req now => (n.handleAppendEntries req now).1
  | .handleAppendEntriesResponse fromId resp entriesSent now =>
    n.handleAppendEntriesResponse fromId resp entriesSent now
  | .propose command => ((n.propose command).map (·.1)).toOption.getD n
  | .batchPropose commands =>
    ((n.batchPropose commands).map (·.1)).toOption.getD n
  | .handleInstallSnapshot req now => (n.handleInstallSnapshot req now).1
  | .clusterHandleInstallSnapshot req now =>
    (RaftClusterNode.handleInstallSnapshot n req now).1
  | .installSnapshotData lastIncludedIndex lastIncludedTerm =>
    n.installSnapshotData lastIncludedIndex lastIncludedTerm
  | .createSnapshot => n.createSnapshot
  | .compactLog upTo => n.compactLog upTo
  | .transferLeadership target => (n.transferLeadership target).toOption.getD n
  | .startPreVote => n.startPreVote.1
  | .handlePreVoteRequest .. => n
  | .handlePreVoteResponse fromId resp now => (n.handlePreVoteResponse fromId resp now).1

end Raft
