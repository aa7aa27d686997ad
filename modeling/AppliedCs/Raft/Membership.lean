import AppliedCs.Raft.Node

namespace Raft

def ClusterConfig.isJoint (c : ClusterConfig) : Bool :=
  c.next.isSome

namespace RaftNode

variable (n : RaftNode)

-- The entry of a membership change does not say which nodes it is about.
def configurationEntry : LogEntry where
  term := n.currentTerm
  index := n.lastLogIndex + 1
  command := .noOp
  entryType := .configuration

def proposeMembershipChange (newNodes : Finset NodeId) : Except Error (RaftNode × ℕ) :=
  if !n.isLeader then
    .error <| .notLeader n.leaderId
  else if n.clusterConfig.isJoint then
    .error <| .invalidStateTransition "Already in joint consensus"
  else
    let entry := n.configurationEntry
    .ok ({ n with
      log := n.log ++ [entry]
      clusterConfig := { n.clusterConfig with next := some newNodes } }, entry.index)

def addNode (nodeId : NodeId) : Except Error (RaftNode × ℕ) :=
  n.proposeMembershipChange (insert nodeId n.clusterConfig.current)

def removeNode (nodeId : NodeId) : Except Error (RaftNode × ℕ) :=
  n.proposeMembershipChange (n.clusterConfig.current.erase nodeId)

end RaftNode

-- A node with the fields that only the check of the quorum reads.
structure MonitoredNode extends RaftNode where
  enableCheckQuorum : Bool := true
  lastQuorumCheck : Instant := 0
  peerLastContact : AList (fun _ : NodeId => Instant) := ∅

namespace MonitoredNode

variable (n : MonitoredNode)

-- The peers that were heard of within the election timeout.
def reachablePeers (now : Instant) : List NodeId :=
  (n.peerLastContact.entries.filter fun p => now - p.2 < n.config.electionTimeoutMax).map (·.1)

-- Whether the call looks at the peers at all.
def checksQuorum (now : Instant) : Bool :=
  n.isLeader && n.enableCheckQuorum && !(now - n.lastQuorumCheck < n.config.electionTimeoutMin)

def checkQuorum (now : Instant) : MonitoredNode × Bool :=
  if !n.checksQuorum now then
    (n, true)
  else
    let n := { n with lastQuorumCheck := now }
    let reachable := 1 + (n.reachablePeers now).length
    if reachable < n.clusterConfig.quorumSize then
      ({ n with toRaftNode := n.transitionToFollower none }, false)
    else
      (n, true)

end MonitoredNode

end Raft
