import AppliedCs.Lib.Transition
import AppliedCs.Raft.Node

namespace Raft

-- A fixed cluster: every member is configured with its own identifier and with the other members
-- as its peers. Members may differ in their other settings.
structure Membership where
  members : Finset NodeId
  config : NodeId → RaftConfig
  config_id : ∀ i ∈ members, (config i).id = i
  peers_nodup : ∀ i ∈ members, (config i).peerIds.Nodup
  mem_peers : ∀ i ∈ members, ∀ j, j ∈ (config i).peerIds ↔ j ∈ members ∧ j ≠ i

-- The cluster that the source's tests set up: every node lists all others as its peers.
def Membership.create (ids : List NodeId) (h : ids.Nodup) : Membership where
  members := ids.toFinset
  config i := { id := i, peers := (ids.filter (· ≠ i)).map (⟨·⟩) }
  config_id _ _ := rfl
  peers_nodup i _ := by simpa [RaftConfig.peerIds, Function.comp_def] using h.filter (· ≠ i)
  mem_peers i _ j := by simp [RaftConfig.peerIds]

def threeNodes : Membership :=
  .create [1, 2, 3] (by decide)

-- A response together with the request that it answers and the node that produced it.
structure VoteReply where
  voter : NodeId
  request : RequestVoteRequest
  response : RequestVoteResponse
  deriving DecidableEq

structure AppendReply where
  follower : NodeId
  request : AppendEntriesRequest
  response : AppendEntriesResponse
  deriving DecidableEq

-- A call of `RaftClusterNode::propose`, with the entry that it appended.
structure Proposal where
  node : NodeId
  entry : LogEntry
  deriving DecidableEq

-- What the state machine was fed between two states of a node, with the index for which the apply
-- loop picked each entry.
def RaftNode.appliedSince (n₁ n₂ : RaftNode) : List (ℕ × LogEntry) :=
  (List.range' (n₁.lastApplied + 1) (n₂.lastApplied - n₁.lastApplied)).filterMap fun index =>
    (n₂.getLogEntry index).map (index, ·)

-- The nodes and everything that was ever sent between them. Messages are never taken out, since
-- each of them may be lost, or delivered at any later time and in any order. The last three fields
-- record the calls of `propose` that wait for their entry, those that returned `Ok`, and the
-- entries that each node applied.
structure Cluster where
  nodes : NodeId → RaftNode
  voteRequests : List RequestVoteRequest := []
  voteReplies : List VoteReply := []
  appendRequests : List AppendEntriesRequest := []
  appendReplies : List AppendReply := []
  pending : List Proposal := []
  acknowledged : List Proposal := []
  applied : NodeId → List (ℕ × LogEntry) := fun _ => []

namespace Cluster

inductive Event
  | startElection (i : NodeId) (now : Instant)
  | requestVote (i : NodeId) (req : RequestVoteRequest) (now : Instant)
  | requestVoteResponse (reply : VoteReply)
  | replicate (i peer : NodeId)
  | appendEntries (i : NodeId) (req : AppendEntriesRequest) (now : Instant)
  | appendEntriesResponse (reply : AppendReply) (now : Instant)
  | propose (i : NodeId) (command : Command)
  | batchPropose (i : NodeId) (commands : List Command)
  | poll (p : Proposal)
  | expire (p : Proposal)

def setNode (s : Cluster) (i : NodeId) (n : RaftNode) : Cluster :=
  { s with
    nodes := Function.update s.nodes i n
    applied := Function.update s.applied i (s.applied i ++ (s.nodes i).appliedSince n) }

@[simp]
theorem setNode_self (s : Cluster) (i : NodeId) (n : RaftNode) : (s.setNode i n).nodes i = n :=
  Function.update_self ..

theorem setNode_of_ne (s : Cluster) (h : j ≠ i) (n : RaftNode) :
    (s.setNode i n).nodes j = s.nodes j :=
  Function.update_of_ne h ..

-- One atomic section of the code: a handler runs under the node's write lock.
def step (M : Membership) (s : Cluster) : Event → Option Cluster
  | .startElection i now =>
    if i ∈ M.members then
      let n := (s.nodes i).transitionToCandidate now
      some { s.setNode i n with voteRequests := n.buildRequestVoteRequest :: s.voteRequests }
    else
      none
  | .requestVote i req now =>
    if i ∈ M.members ∧ req ∈ s.voteRequests then
      let (n, response) := (s.nodes i).handleRequestVote req now
      some { s.setNode i n with voteReplies := ⟨i, req, response⟩ :: s.voteReplies }
    else
      none
  | .requestVoteResponse reply =>
    if reply ∈ s.voteReplies then
      let i := reply.request.candidateId
      some <| s.setNode i <| (s.nodes i).handleRequestVoteResponse reply.voter reply.response
    else
      none
  | .replicate i peer =>
    if i ∈ M.members then
      some { s with
        appendRequests := (s.nodes i).buildAppendEntriesRequest peer :: s.appendRequests }
    else
      none
  | .appendEntries i req now =>
    if i ∈ M.members ∧ req ∈ s.appendRequests then
      let (n, response) := (s.nodes i).handleAppendEntries req now
      some { s.setNode i n with appendReplies := ⟨i, req, response⟩ :: s.appendReplies }
    else
      none
  | .appendEntriesResponse reply now =>
    if reply ∈ s.appendReplies then
      let i := reply.request.leaderId
      some <| s.setNode i <| (s.nodes i).handleAppendEntriesResponse reply.follower reply.response
        reply.request.entries.length now
    else
      none
  | .propose i command =>
    if i ∈ M.members then
      match (s.nodes i).propose command with
      | .ok (n, _) =>
        some { s.setNode i n with pending := (n.log.getLast?.map (⟨i, ·⟩)).toList ++ s.pending }
      | .error _ => some s
    else
      none
  | .batchPropose i commands =>
    if i ∈ M.members then
      match (s.nodes i).batchPropose commands with
      | .ok (n, _) => some <| s.setNode i n
      | .error _ => some s
    else
      none
  | .poll p =>
    if p ∈ s.pending then
      match RaftClusterNode.pollProposal (s.nodes p.node) p.entry.index with
      | some (.ok _) =>
        some { s with pending := s.pending.erase p, acknowledged := p :: s.acknowledged }
      | some (.error _) => some { s with pending := s.pending.erase p }
      | none => some s
    else
      none
  | .expire p =>
    if p ∈ s.pending then some { s with pending := s.pending.erase p } else none

-- All nodes as `RaftNode::new` makes them, at whatever times they were started.
def init (M : Membership) (boot : NodeId → Instant) : Cluster where
  nodes i := .new (M.config i) (boot i)

end Cluster

end Raft
