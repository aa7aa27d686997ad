import AppliedCs.Lib.Codec
import Mathlib.Data.Finset.Card
import Mathlib.Data.List.AList

namespace Raft

open Codec

-- Identifiers, terms and log indices are `u64` in the source. They are natural numbers here, and
-- the one operation on them that a peer's message alone can drive into overflow, the increment of
-- the term, wraps explicitly (`RaftNode.transitionToCandidate`).
abbrev NodeId := ℕ

-- Points in time and durations, in milliseconds.
abbrev Instant := ℕ
abbrev Duration := ℕ

def u64Size : ℕ := 2 ^ 64

inductive Command
  | put (key value : Bytes)
  | delete (key : Bytes)
  | get (key : Bytes)
  | noOp
  deriving DecidableEq, Repr

inductive EntryType
  | command
  | configuration
  | noOp
  deriving DecidableEq, Repr

structure LogEntry where
  term : ℕ
  index : ℕ
  command : Command
  entryType : EntryType
  deriving DecidableEq, Repr

inductive Error
  | notLeader (hint : Option NodeId)
  | internal (message : String)
  | storage (message : String)
  | serialization
  | config (message : String)
  | invalidStateTransition (message : String)
  | timeout
  deriving DecidableEq, Repr

structure PeerConfig where
  id : NodeId
  deriving DecidableEq, Repr

-- The fields of the configuration that the modelled functions read, with the source's defaults.
structure RaftConfig where
  id : NodeId := 0
  peers : List PeerConfig := []
  electionTimeoutMin : Duration := 150
  electionTimeoutMax : Duration := 300
  maxEntriesPerRpc : ℕ := 100
  enableLeaderLease : Bool := true
  deriving DecidableEq, Repr

namespace RaftConfig

def peerIds (c : RaftConfig) : List NodeId :=
  c.peers.map (·.id)

def clusterNodes (c : RaftConfig) : Finset NodeId :=
  insert c.id c.peerIds.toFinset

def quorumSize (c : RaftConfig) : ℕ :=
  (c.peers.length + 1) / 2 + 1

end RaftConfig

-- Membership as the node tracks it, with the second configuration of a joint consensus.
structure ClusterConfig where
  current : Finset NodeId
  next : Option (Finset NodeId) := none
  deriving DecidableEq

namespace ClusterConfig

def quorumSize (c : ClusterConfig) : ℕ :=
  match c.next with
  | none => c.current.card / 2 + 1
  | some next => max (c.current.card / 2 + 1) (next.card / 2 + 1)

end ClusterConfig

structure AppendEntriesRequest where
  term : ℕ
  leaderId : NodeId
  prevLogIndex : ℕ
  prevLogTerm : ℕ
  entries : List LogEntry
  leaderCommit : ℕ
  deriving DecidableEq, Repr

structure AppendEntriesResponse where
  term : ℕ
  success : Bool
  conflictIndex : Option ℕ := none
  conflictTerm : Option ℕ := none
  deriving DecidableEq, Repr

structure RequestVoteRequest where
  term : ℕ
  candidateId : NodeId
  lastLogIndex : ℕ
  lastLogTerm : ℕ
  deriving DecidableEq, Repr

structure RequestVoteResponse where
  term : ℕ
  voteGranted : Bool
  deriving DecidableEq, Repr

structure InstallSnapshotRequest where
  term : ℕ
  leaderId : NodeId
  lastIncludedIndex : ℕ
  lastIncludedTerm : ℕ
  offset : ℕ
  data : Bytes
  done : Bool
  deriving DecidableEq, Repr

structure InstallSnapshotResponse where
  term : ℕ
  deriving DecidableEq, Repr

end Raft
