import AppliedCs.Raft.Storage
import Mathlib.Data.List.Sort
import Mathlib.Logic.Function.Iterate

namespace Raft

-- The leader's per-peer indices.
abbrev IndexMap := AList (fun _ : NodeId => ℕ)

inductive RaftState
  | follower (leaderId : Option NodeId)
  | candidate (votesReceived : Finset NodeId)
  | leader (leaseExpiry : Option Instant) (nextIndex matchIndex : IndexMap)
  deriving DecidableEq

structure PreVoteState where
  term : ℕ
  votesReceived : Finset NodeId
  deriving DecidableEq

structure RaftNode where
  config : RaftConfig
  currentTerm : ℕ := 0
  votedFor : Option NodeId := none
  log : List LogEntry := []
  commitIndex : ℕ := 0
  lastApplied : ℕ := 0
  state : RaftState := .follower none
  clusterConfig : ClusterConfig := ⟨config.clusterNodes, none⟩
  fsm : KeyValueFSM := {}
  storage : Option MemoryStorage := none
  snapshotStore : Option SnapshotStore := none
  lastHeartbeat : Instant := 0
  preVoteState : Option PreVoteState := none
  enablePreVote : Bool := true
  snapshotLastIndex : ℕ := 0
  snapshotLastTerm : ℕ := 0
  deriving DecidableEq

namespace RaftNode

def new (config : RaftConfig) (now : Instant) : RaftNode :=
  { config, lastHeartbeat := now }

variable (n : RaftNode)

def isLeader : Bool :=
  match n.state with
  | .leader .. => true
  | _ => false

def leaderId : Option NodeId :=
  match n.state with
  | .leader .. => some n.config.id
  | .follower leaderId => leaderId
  | .candidate _ => none

def lastLogIndex : ℕ :=
  (n.log.getLast?.map (·.index)).getD 0

def lastLogTerm : ℕ :=
  (n.log.getLast?.map (·.term)).getD 0

def transitionToFollower (leaderId : Option NodeId) : RaftNode :=
  { n with state := .follower leaderId }

-- The increment is the plain `+=` on a `u64`, which wraps in the release profile.
def transitionToCandidate (now : Instant) : RaftNode :=
  { n with
    currentTerm := (n.currentTerm + 1) % u64Size
    votedFor := some n.config.id
    state := .candidate {n.config.id}
    lastHeartbeat := now }

def transitionToLeader : RaftNode :=
  let lastIndex := n.lastLogIndex
  let nextIndex := n.config.peers.foldl (fun m p => m.insert p.id (lastIndex + 1)) ∅
  let matchIndex := n.config.peers.foldl (fun m p => m.insert p.id 0) ∅
  -- The no-op lets the leader commit entries of previous terms.
  let noop :=
    { term := n.currentTerm, index := n.lastLogIndex + 1, command := .noOp, entryType := .noOp }
  { n with state := .leader none nextIndex matchIndex, log := n.log ++ [noop] }

def resetElectionTimeout (now : Instant) : RaftNode :=
  { n with lastHeartbeat := now }

-- The adoption of a newer term, as the vote and response handlers perform it.
def stepDown (term : ℕ) (leaderId : Option NodeId) : RaftNode :=
  { n with currentTerm := term, votedFor := none, state := .follower leaderId }

variable (req : RequestVoteRequest)

-- Whether a candidate's log, given by its last entry, is at least as up-to-date as the node's.
def logOk : Bool :=
  n.lastLogTerm < req.lastLogTerm ||
    (req.lastLogTerm == n.lastLogTerm && n.lastLogIndex ≤ req.lastLogIndex)

-- The part of the handler after a newer term was adopted.
def decideVote (now : Instant) : RaftNode × RequestVoteResponse :=
  let canVote := n.votedFor.isNone || n.votedFor == some req.candidateId
  if canVote && n.logOk req then
    ({ n with votedFor := some req.candidateId }.resetElectionTimeout now,
      { term := n.currentTerm, voteGranted := true })
  else
    (n, { term := n.currentTerm, voteGranted := false })

def handleRequestVote (now : Instant) : RaftNode × RequestVoteResponse :=
  if req.term < n.currentTerm then
    (n, { term := n.currentTerm, voteGranted := false })
  else
    (if n.currentTerm < req.term then n.stepDown req.term none else n).decideVote req now

-- A granted vote is counted whatever the term of the response, as long as it is not newer than
-- the node's own.
def handleRequestVoteResponse (fromId : NodeId) (resp : RequestVoteResponse) : RaftNode :=
  if n.currentTerm < resp.term then
    n.stepDown resp.term none
  else
    match n.state with
    | .candidate votesReceived =>
      if resp.voteGranted then
        let n := { n with state := .candidate (insert fromId votesReceived) }
        if n.config.quorumSize ≤ (insert fromId votesReceived).card then n.transitionToLeader else n
      else
        n
    | _ => n

-- Positions of the vector are taken for log indices.
def getLogEntry (index : ℕ) : Option LogEntry :=
  if index = 0 then none else n.log[index - 1]?

-- One round of the loop: `last_applied` moves on even when the log has no entry there.
def applyNext : RaftNode :=
  let n := { n with lastApplied := n.lastApplied + 1 }
  match n.getLogEntry n.lastApplied with
  | some entry => { n with fsm := (n.fsm.apply entry).1 }
  | none => n

def applyCommittedEntries : RaftNode :=
  applyNext^[n.commitIndex - n.lastApplied] n

-- One round of the loop over a request's entries. Index 0 is within every log, but the position
-- before it wraps around and is found to be empty.
def appendEntry (log : List LogEntry) (entry : LogEntry) : List LogEntry :=
  if entry.index ≤ log.length then
    if entry.index = 0 then
      log
    else
      match log[entry.index - 1]? with
      | some existing =>
        if existing.term ≠ entry.term then log.take (entry.index - 1) ++ [entry] else log
      | none => log
  else
    log ++ [entry]

section

variable (req : AppendEntriesRequest)

-- The follower's answer when the entry before the request's entries does not match.
def prevConflict : Option AppendEntriesResponse :=
  if 0 < req.prevLogIndex then
    match n.getLogEntry req.prevLogIndex with
    | none =>
      some { term := n.currentTerm, success := false, conflictIndex := some (n.lastLogIndex + 1) }
    | some entry =>
      if entry.term ≠ req.prevLogTerm then
        let conflictIndex := ((n.log.findIdx? (·.term == entry.term)).map (· + 1)).getD 1
        some { term := n.currentTerm
               success := false
               conflictIndex := some conflictIndex
               conflictTerm := some entry.term }
      else
        none
  else
    none

-- The part of the handler after the consistency check.
def acceptEntries : RaftNode :=
  let n := { n with log := req.entries.foldl appendEntry n.log }
  if n.commitIndex < req.leaderCommit then
    { n with commitIndex := min req.leaderCommit n.lastLogIndex }.applyCommittedEntries
  else
    n

-- The part of the handler before the consistency check.
def followLeader (now : Instant) : RaftNode :=
  let n :=
    if n.currentTerm < req.term then { n with currentTerm := req.term, votedFor := none } else n
  (n.transitionToFollower (some req.leaderId)).resetElectionTimeout now

def handleAppendEntries (now : Instant) : RaftNode × AppendEntriesResponse :=
  if req.term < n.currentTerm then
    (n, { term := n.currentTerm, success := false })
  else
    let n := n.followLeader req now
    match n.prevConflict req with
    | some resp => (n, resp)
    | none => (n.acceptEntries req, { term := n.currentTerm, success := true })

end

def tryAdvanceCommitIndex : RaftNode :=
  match n.state with
  | .leader _ _ matchIndex =>
    let indices := (matchIndex.entries.map (·.2) ++ [n.lastLogIndex]).insertionSort (· ≤ ·)
    -- With fewer indices than a quorum the subtraction in the source panics.
    if n.config.quorumSize ≤ indices.length then
      match indices[indices.length - n.config.quorumSize]? with
      | some newCommit =>
        if n.commitIndex < newCommit then
          match n.getLogEntry newCommit with
          | some entry =>
            if entry.term = n.currentTerm then
              { n with commitIndex := newCommit }.applyCommittedEntries
            else
              n
          | none => n
        else
          n
      | none => n
    else
      n
  | _ => n

def handleAppendEntriesResponse (fromId : NodeId) (resp : AppendEntriesResponse)
    (entriesSent : ℕ) (now : Instant) : RaftNode :=
  if n.currentTerm < resp.term then
    n.stepDown resp.term none
  else
    match n.state with
    | .leader leaseExpiry nextIndex matchIndex =>
      if resp.success then
        let nextIndex :=
          match nextIndex.lookup fromId with
          | some next => nextIndex.insert fromId (next + entriesSent)
          | none => nextIndex
        -- The peer is taken to match the whole log, not only what the request carried.
        let matchIndex :=
          match matchIndex.lookup fromId with
          | some _ => matchIndex.insert fromId n.lastLogIndex
          | none => matchIndex
        let leaseExpiry :=
          if n.config.enableLeaderLease then some (now + n.config.electionTimeoutMin / 2)
          else leaseExpiry
        { n with state := .leader leaseExpiry nextIndex matchIndex }.tryAdvanceCommitIndex
      else
        match nextIndex.lookup fromId with
        | some next =>
          let next :=
            match resp.conflictIndex with
            | some conflictIndex => conflictIndex
            | none => if 1 < next then next - 1 else next
          { n with state := .leader leaseExpiry (nextIndex.insert fromId next) matchIndex }
        | none => n
    | _ => n

def propose (command : Command) : Except Error (RaftNode × ℕ) :=
  if n.isLeader then
    let entry :=
      { term := n.currentTerm, index := n.lastLogIndex + 1, command, entryType := .command }
    .ok ({ n with log := n.log ++ [entry] }, entry.index)
  else
    .error <| .notLeader n.leaderId

-- The entries that a batch of commands is turned into, numbered from `index` on.
def batchEntries (term : ℕ) : ℕ → List Command → List LogEntry
  | _, [] => []
  | index, command :: rest =>
    { term, index, command, entryType := .command } :: batchEntries term (index + 1) rest

def batchPropose (commands : List Command) : Except Error (RaftNode × List ℕ) :=
  if n.isLeader then
    let entries := batchEntries n.currentTerm (n.lastLogIndex + 1) commands
    .ok ({ n with log := n.log ++ entries }, entries.map (·.index))
  else
    .error <| .notLeader n.leaderId

def getEntriesForPeer (peerId : NodeId) : ℕ × ℕ × List LogEntry :=
  match n.state with
  | .leader _ nextIndex _ =>
    let next := (nextIndex.lookup peerId).getD 1
    let prevIndex := next - 1
    let prevTerm := if prevIndex = 0 then 0 else ((n.getLogEntry prevIndex).map (·.term)).getD 0
    let entries := (n.log.filter (next ≤ ·.index)).take n.config.maxEntriesPerRpc
    (prevIndex, prevTerm, entries)
  | _ => (0, 0, [])

def buildAppendEntriesRequest (peerId : NodeId) : AppendEntriesRequest :=
  let (prevLogIndex, prevLogTerm, entries) := n.getEntriesForPeer peerId
  { term := n.currentTerm
    leaderId := n.config.id
    prevLogIndex
    prevLogTerm
    entries
    leaderCommit := n.commitIndex }

def buildRequestVoteRequest : RequestVoteRequest where
  term := n.currentTerm
  candidateId := n.config.id
  lastLogIndex := n.lastLogIndex
  lastLogTerm := n.lastLogTerm

def installSnapshotData (lastIncludedIndex lastIncludedTerm : ℕ) : RaftNode :=
  match n.snapshotStore with
  | none => n
  | some store =>
    match store.finalize with
    | .error _ => n
    | .ok (store, snapshot) =>
      let n := { n with snapshotStore := some store }
      match n.fsm.restore snapshot with
      | .error _ => n
      | .ok fsm =>
        { n with
          fsm
          log := if n.lastLogIndex < lastIncludedIndex then []
                 else n.log.filter (lastIncludedIndex < ·.index)
          snapshotLastIndex := lastIncludedIndex
          snapshotLastTerm := lastIncludedTerm
          commitIndex := max n.commitIndex lastIncludedIndex
          lastApplied := lastIncludedIndex }

-- The first part of both snapshot handlers, for a request that is not of an older term.
def adoptSnapshotTerm (req : InstallSnapshotRequest) (now : Instant) : RaftNode :=
  (if n.currentTerm < req.term then n.stepDown req.term (some req.leaderId)
    else n).resetElectionTimeout now

def writeSnapshotChunk (req : InstallSnapshotRequest) : RaftNode :=
  { n with snapshotStore := n.snapshotStore.map (·.writeChunk req.offset req.data) }

def handleInstallSnapshot (req : InstallSnapshotRequest) (now : Instant) :
    RaftNode × InstallSnapshotResponse :=
  if req.term < n.currentTerm then
    (n, ⟨n.currentTerm⟩)
  else
    let n := (n.adoptSnapshotTerm req now).writeSnapshotChunk req
    let n :=
      if req.done then n.installSnapshotData req.lastIncludedIndex req.lastIncludedTerm else n
    (n, ⟨n.currentTerm⟩)

def buildInstallSnapshotRequest (offset chunkSize : ℕ) : Option InstallSnapshotRequest :=
  let snapshot := n.fsm.snapshot
  let dataLen := snapshot.data.length
  if dataLen ≤ offset then
    none
  else
    let endPos := min (offset + chunkSize) dataLen
    some { term := n.currentTerm
           leaderId := n.config.id
           lastIncludedIndex := snapshot.lastIncludedIndex
           lastIncludedTerm := snapshot.lastIncludedTerm
           offset
           data := (snapshot.data.take endPos).drop offset
           done := dataLen ≤ endPos }

def compactLog (upTo : ℕ) : RaftNode :=
  { n with
    log := n.log.filter (upTo < ·.index)
    storage := n.storage.map (·.compact upTo) }

def createSnapshot : RaftNode :=
  let snapshot := n.fsm.snapshot
  { n with
    snapshotStore := n.snapshotStore.map (SnapshotStore.save · snapshot)
    snapshotLastIndex := snapshot.lastIncludedIndex
    snapshotLastTerm := snapshot.lastIncludedTerm }.compactLog snapshot.lastIncludedIndex

def transferLeadership (target : NodeId) : Except Error RaftNode :=
  if n.isLeader then
    if target ∈ n.clusterConfig.current then
      .ok <| n.transitionToFollower (some target)
    else
      .error <| .config s!"Target node {target} not in cluster"
  else
    .error <| .notLeader n.leaderId

def startPreVote : RaftNode × Bool :=
  if !n.enablePreVote || n.isLeader then
    (n, false)
  else
    ({ n with preVoteState := some ⟨n.currentTerm + 1, {n.config.id}⟩ }, true)

def handlePreVoteResponse (fromId : NodeId) (resp : RequestVoteResponse)
    (now : Instant) : RaftNode × Bool :=
  match n.preVoteState with
  | none => (n, false)
  | some preVote =>
    if resp.voteGranted then
      let votes := insert fromId preVote.votesReceived
      if n.clusterConfig.quorumSize ≤ votes.card then
        ({ n with preVoteState := none }.transitionToCandidate now, true)
      else
        ({ n with preVoteState := some { preVote with votesReceived := votes } }, false)
    else
      (n, false)

end RaftNode

namespace RaftClusterNode

-- The handler of the cluster's event loop, which takes the whole snapshot from one message.
def handleInstallSnapshot (n : RaftNode) (req : InstallSnapshotRequest) (now : Instant) :
    RaftNode × InstallSnapshotResponse :=
  if req.term < n.currentTerm then
    (n, ⟨n.currentTerm⟩)
  else
    let n := n.adoptSnapshotTerm req now
    if req.done then
      -- A snapshot that cannot be restored is only logged; the indices move all the same.
      let fsm := match n.fsm.restore ⟨req.lastIncludedIndex, req.lastIncludedTerm, req.data⟩ with
        | .error _ => n.fsm
        | .ok fsm => fsm
      let n := { n with
        fsm
        commitIndex := req.lastIncludedIndex
        lastApplied := req.lastIncludedIndex
        log := n.log.filter (req.lastIncludedIndex < ·.index) }
      (n, ⟨n.currentTerm⟩)
    else
      (n, ⟨n.currentTerm⟩)

-- One pass of the wait loop of `propose`: the applied index is looked at before the leadership.
-- No result means that the loop goes on.
def pollProposal (n : RaftNode) (index : ℕ) : Option (Except Error ℕ) :=
  if index ≤ n.lastApplied then
    some (.ok index)
  else if n.isLeader then
    none
  else
    some (.error <| .notLeader n.leaderId)

end RaftClusterNode

end Raft
