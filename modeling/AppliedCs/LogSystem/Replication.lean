import AppliedCs.LogSystem.Log
import Mathlib.Data.Finset.Basic
import Mathlib.Data.List.AList

namespace LogSystem

abbrev BrokerId := UInt32

structure ReplicationConfig where
  fetchMaxWaitMs : UInt64 := 500
  fetchMinBytes : UInt32 := 1
  fetchMaxBytes : UInt32 := 1024 * 1024
  replicaLagTimeMaxMs : ℕ := 10000
  replicaLagMaxMessages : ℕ := 4000

structure PartitionAssignment where
  leader : BrokerId
  replicas : List BrokerId
  isr : List BrokerId
  leaderEpoch : UInt32

-- Times are milliseconds of the monotonic clock.
structure ReplicaState where
  leaderId : BrokerId
  leaderEpoch : UInt32
  fetchOffset : ℕ := 0
  logEndOffset : ℕ := 0
  highWatermark : ℕ := 0
  lastFetchTime : ℕ
  isFetching : Bool := false
  fetchFailures : UInt32 := 0

structure RemoteReplicaState where
  brokerId : BrokerId
  logEndOffset : ℕ := 0
  lastFetchTime : ℕ
  inSync : Bool := true

structure FetchPartition where
  topic : String
  partition : UInt32
  fetchOffset : ℕ
  maxBytes : UInt32
  deriving DecidableEq

structure FetchRequest where
  replicaId : Int32
  maxWaitMs : UInt32
  minBytes : UInt32
  maxBytes : UInt32
  isolationLevel : Int8 := 0
  sessionId : Int32 := 0
  sessionEpoch : Int32 := 0
  partitions : List FetchPartition
  deriving DecidableEq

structure FetchPartitionResponse where
  topic : String
  partition : UInt32
  errorCode : Int16
  highWatermark : ℕ
  recordBatches : List RecordBatch
  deriving DecidableEq

-- What a broker has for one partition of a topic. The maps of the source have this partition, alone
-- or together with a broker, as their key, and no function reads or changes what they have for
-- another one.
structure ReplicaManager where
  brokerId : BrokerId
  config : ReplicationConfig
  segmentConfig : SegmentConfig
  tp : TopicPartition
  partition : Option Partition := none
  assignment : Option PartitionAssignment := none
  isLeader : Bool := false
  follower : Option ReplicaState := none
  remoteReplicas : AList (fun _ : BrokerId => RemoteReplicaState) := ∅

namespace ReplicaManager

variable (now : ℕ) (m : ReplicaManager)

def isFollower : Bool :=
  m.follower.isSome

def ensurePartition : Partition :=
  m.partition.getD (.new m.tp.topic m.tp.partition m.segmentConfig)

def becomeLeader (assignment : PartitionAssignment) : ReplicaManager :=
  { m with
    partition := some m.ensurePartition
    assignment := some assignment
    isLeader := true
    follower := none
    remoteReplicas := assignment.replicas.foldl (fun remote replicaId =>
      if replicaId ≠ m.brokerId then
        remote.insert replicaId { brokerId := replicaId, lastFetchTime := now }
      else
        remote) m.remoteReplicas }

-- The source removes the remote replicas from the map that it iterates over, which blocks if there
-- are any.
def becomeFollower (assignment : PartitionAssignment) : Option ReplicaManager :=
  if m.remoteReplicas.entries.isEmpty then
    let logEndOffset := m.ensurePartition.logEndOffset
    some { m with
      partition := some m.ensurePartition
      assignment := some assignment
      isLeader := false
      follower := some {
        leaderId := assignment.leader, leaderEpoch := assignment.leaderEpoch,
        fetchOffset := logEndOffset, logEndOffset, lastFetchTime := now } }
  else
    none

def getPartition : Except Error Partition :=
  match m.partition with
  | some p => .ok p
  | none => .error (.partitionNotFound m.tp.partition)

variable [Platform]

def appendToLeader (batch : RecordBatch) : Except Error (ℕ × ReplicaManager) :=
  if !m.isLeader then
    .error .notLeader
  else do
    let p ← m.getPartition
    let (offset, p) ← p.append batch
    return (offset, { m with partition := some p })

-- An error leaves what has been appended before it.
def appendAll : List RecordBatch → Partition → Except Error Unit × Partition
  | [], p => (.ok (), p)
  | batch :: batches, p =>
    match p.append batch with
    | .error e => (.error e, p)
    | .ok (_, p) => appendAll batches p

def appendAsFollower (batches : List RecordBatch) : Except Error Unit × ReplicaManager :=
  if !m.isFollower then
    (.error (.internal "Not a follower"), m)
  else
    match m.getPartition with
    | .error e => (.error e, m)
    | .ok p =>
      match appendAll batches p with
      | (.error e, p) => (.error e, { m with partition := some p })
      | (.ok (), p) =>
        (.ok (), { m with
          partition := some p
          follower := m.follower.map fun state => { state with
            logEndOffset := p.logEndOffset, fetchOffset := p.logEndOffset, lastFetchTime := now } })

def read (offset : ℕ) (maxBytes : UInt32) : Except Error (List RecordBatch) := do
  (← m.getPartition).read offset maxBytes

def updateHighWatermark (hw : ℕ) : Except Error ReplicaManager := do
  let p ← m.getPartition
  return { m with
    partition := some (p.updateHighWatermark hw)
    follower := m.follower.map fun state => { state with highWatermark := hw } }

def inLag (logEndOffset : ℕ) (state : RemoteReplicaState) : Bool :=
  now - state.lastFetchTime < m.config.replicaLagTimeMaxMs ∧
  logEndOffset - state.logEndOffset < m.config.replicaLagMaxMessages

-- The replicas that count as in sync besides the leader.
def inSyncReplicas (assignment : PartitionAssignment) (logEndOffset : ℕ) : List BrokerId :=
  assignment.replicas.filter fun replicaId =>
    replicaId ≠ m.brokerId ∧ (m.remoteReplicas.lookup replicaId).any (m.inLag now logEndOffset)

def minOffset (replicas : List BrokerId) (logEndOffset : ℕ) : ℕ :=
  replicas.foldl (fun offset replicaId =>
    match m.remoteReplicas.lookup replicaId with
    | some state => min offset state.logEndOffset
    | none => offset) logEndOffset

def maybeUpdateIsrAndHw : Except Error (Bool × ReplicaManager) :=
  if !m.isLeader then
    .ok (false, m)
  else
    match m.assignment with
    | none => .error (.partitionNotFound m.tp.partition)
    | some assignment => do
      let p ← m.getPartition
      let replicas := m.inSyncReplicas now assignment p.logEndOffset
      let hw := m.minOffset replicas p.logEndOffset
      let isrChanged := decide ((m.brokerId :: replicas).toFinset ≠ assignment.isr.toFinset)
      return (isrChanged, { m with partition := some { p with highWatermark := hw } })

def recordFetch (replicaId : BrokerId) (fetchOffset : ℕ) : ReplicaManager :=
  match m.remoteReplicas.lookup replicaId with
  | none => m
  | some state =>
    let state := { state with logEndOffset := fetchOffset, lastFetchTime := now }
    { m with remoteReplicas := m.remoteReplicas.insert replicaId state }

def handleReplicaFetch (replicaId : BrokerId) (fetchOffset : ℕ) :
    Except Error (List RecordBatch × ℕ) × ReplicaManager :=
  if !m.isLeader then
    (.error .notLeader, m)
  else
    let m := m.recordFetch now replicaId fetchOffset
    let fetched := do
      let batches ← m.read fetchOffset m.config.fetchMaxBytes
      let p ← m.getPartition
      return (batches, p.highWatermark)
    match fetched with
    | .error e => (.error e, m)
    | .ok reply =>
      match m.maybeUpdateIsrAndHw now with
      | .error e => (.error e, m)
      | .ok (_, m) => (.ok reply, m)

def markFetching (fetching : Bool) : ReplicaManager :=
  { m with follower := m.follower.map fun state => { state with isFetching := fetching } }

def recordFetchFailure : ReplicaManager :=
  { m with follower := m.follower.map fun state =>
      { state with fetchFailures := state.fetchFailures + 1, isFetching := false } }

-- The request to the leader of the partition, if none is on its way.
def buildFetchRequest : Option (BrokerId × FetchRequest) × ReplicaManager :=
  match m.follower with
  | some state =>
    if state.isFetching then
      (none, m)
    else
      (some (state.leaderId, {
        replicaId := m.brokerId.toInt32
        maxWaitMs := m.config.fetchMaxWaitMs.toUInt32
        minBytes := m.config.fetchMinBytes
        maxBytes := m.config.fetchMaxBytes * 1
        partitions := [{
          topic := m.tp.topic, partition := m.tp.partition, fetchOffset := state.fetchOffset,
          maxBytes := m.config.fetchMaxBytes }] }),
        m.markFetching true)
  | none => (none, m)

-- What the follower does with the part of a response that is about the partition.
def processFetchResponse (response : FetchPartitionResponse) : Except Error Unit × ReplicaManager :=
  if response.errorCode ≠ 0 then
    (.ok (), m.recordFetchFailure)
  else
    let (appended, m) :=
      if response.recordBatches.isEmpty then (.ok (), m)
      else m.appendAsFollower now response.recordBatches
    match appended with
    | .error _ => (.ok (), m.recordFetchFailure)
    | .ok () =>
      match m.updateHighWatermark response.highWatermark with
      | .error e => (.error e, m)
      | .ok m => (.ok (), m.markFetching false)

end ReplicaManager

end LogSystem
