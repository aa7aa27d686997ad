import AppliedCs.MessageQueue.Basic
import Mathlib.Data.List.AList

namespace MessageQueue

abbrev ProducerId := Int64

abbrev ProducerEpoch := Int16

abbrev SequenceNumber := Int32

abbrev TransactionalId := String

structure TopicPartition where
  topic : String
  partition : UInt32
  deriving DecidableEq

inductive TransactionState
  | empty
  | ongoing
  | prepareCommit
  | prepareAbort
  | completeCommit
  | completeAbort
  | dead
  deriving DecidableEq, Repr

namespace TransactionState

def isActive : TransactionState → Bool
  | empty | ongoing => true
  | _ => false

def isTerminal : TransactionState → Bool
  | completeCommit | completeAbort | dead => true
  | _ => false

def name : TransactionState → String
  | empty => "Empty"
  | ongoing => "Ongoing"
  | prepareCommit => "PrepareCommit"
  | prepareAbort => "PrepareAbort"
  | completeCommit => "CompleteCommit"
  | completeAbort => "CompleteAbort"
  | dead => "Dead"

end TransactionState

-- Points in time and durations are counted in nanoseconds.
structure ProducerState where
  producerId : ProducerId
  counter : UInt64
  sequences : AList (fun _ : TopicPartition => SequenceNumber) := ∅
  pendingSequences : AList (fun _ : TopicPartition => List SequenceNumber) := ∅
  transactionState : TransactionState := .empty
  lastUpdate : ℕ
  transactionTimeout : ℕ
  deriving DecidableEq

namespace ProducerState

def new (producerId : ProducerId) (epoch : ProducerEpoch) (transactionTimeout now : ℕ) :
    ProducerState :=
  { producerId, counter := epoch.toInt64.toUInt64, lastUpdate := now, transactionTimeout }

variable (s : ProducerState)

-- The lowest 16 bits of the counter.
def epoch : ProducerEpoch :=
  s.counter.toUInt16.toInt16

def bumpEpoch : ProducerState × ProducerEpoch :=
  ({ s with counter := s.counter + 1 }, s.epoch + 1)

def checkSequence (tp : TopicPartition) (baseSequence : SequenceNumber)
    (batchSize : Int32) (now : ℕ) : ProducerState × Result Unit :=
  let expected := ((s.sequences.lookup tp).map (· + 1)).getD 0
  if baseSequence < expected then (s, .error (.duplicateSequence expected baseSequence))
  else if baseSequence > expected then (s, .error (.outOfOrderSequence expected baseSequence))
  else
    ({ s with
      sequences := s.sequences.insert tp (baseSequence + batchSize - 1)
      lastUpdate := now }, .ok ())

def refuse (what : String) : ProducerState × Result Unit :=
  let state := s.transactionState.name
  (s, .error (.invalidTransactionState s!"Cannot {what} in state {state}"))

def beginTransaction (now : ℕ) : ProducerState × Result Unit :=
  if ¬ s.transactionState.isActive ∧ ¬ s.transactionState.isTerminal then
    s.refuse "begin transaction"
  else ({ s with transactionState := .ongoing, lastUpdate := now }, .ok ())

def isExpired (now : ℕ) : Bool :=
  now - s.lastUpdate > s.transactionTimeout

def addPartition (tp : TopicPartition) (now : ℕ) : ProducerState × Result Unit :=
  if ¬ s.transactionState.isActive then s.refuse "add partition"
  else
    let pending := (s.pendingSequences.lookup tp).getD []
    ({ s with pendingSequences := s.pendingSequences.insert tp pending, lastUpdate := now }, .ok ())

def prepareCommit (s : ProducerState) (now : ℕ) : ProducerState × Result Unit :=
  if s.transactionState ≠ .ongoing then s.refuse "prepare commit"
  else ({ s with transactionState := .prepareCommit, lastUpdate := now }, .ok ())

def prepareAbort (s : ProducerState) (now : ℕ) : ProducerState × Result Unit :=
  if s.transactionState ≠ .ongoing ∧ s.transactionState ≠ .prepareCommit then
    s.refuse "prepare abort"
  else ({ s with transactionState := .prepareAbort, lastUpdate := now }, .ok ())

def completeCommit (s : ProducerState) (now : ℕ) : ProducerState × Result Unit :=
  if s.transactionState ≠ .prepareCommit then s.refuse "complete commit"
  else
    ({ s with pendingSequences := ∅, transactionState := .completeCommit, lastUpdate := now },
      .ok ())

def completeAbort (s : ProducerState) (now : ℕ) : ProducerState × Result Unit :=
  if s.transactionState ≠ .prepareAbort then s.refuse "complete abort"
  else
    ({ s with pendingSequences := ∅, transactionState := .completeAbort, lastUpdate := now },
      .ok ())

def reset (now : ℕ) : ProducerState :=
  { s with transactionState := .empty, pendingSequences := ∅, lastUpdate := now }

end ProducerState

structure ProducerIdManager where
  nextId : ProducerId
  blockSize : Int64
  blockEnd : Int64
  deriving DecidableEq

namespace ProducerIdManager

def new (startId : ProducerId) (blockSize : Int64) : ProducerIdManager :=
  { nextId := startId, blockSize, blockEnd := startId + blockSize }

def allocate (m : ProducerIdManager) : ProducerIdManager × ProducerId :=
  let blockEnd := if m.nextId ≥ m.blockEnd then m.blockEnd + m.blockSize else m.blockEnd
  ({ m with nextId := m.nextId + 1, blockEnd }, m.nextId)

end ProducerIdManager

structure TransactionCoordinator where
  producerStates : AList (fun _ : ProducerId => ProducerState) := ∅
  transactionalIds : AList (fun _ : TransactionalId => ProducerId) := ∅
  idManager : ProducerIdManager
  defaultTimeout : ℕ
  deriving DecidableEq

namespace TransactionCoordinator

def new (startId : ProducerId) (defaultTimeout : ℕ) : TransactionCoordinator :=
  { idManager := .new startId 1000, defaultTimeout }

variable (c : TransactionCoordinator)

-- Registers a producer with the next id.
def register (timeout now : ℕ) : TransactionCoordinator × ProducerId :=
  let r := c.idManager.allocate
  ({ c with
    idManager := r.1
    producerStates := c.producerStates.insert r.2 (.new r.2 0 timeout now) }, r.2)

def existingProducer (transactionalId : TransactionalId) : Option (ProducerId × ProducerState) :=
  (c.transactionalIds.lookup transactionalId).bind fun producerId =>
    (c.producerStates.lookup producerId).map (producerId, ·)

def initProducerId (transactionalId : Option TransactionalId)
    (transactionTimeout : Option ℕ) (now : ℕ) :
    TransactionCoordinator × ProducerId × ProducerEpoch :=
  let r := c.register (transactionTimeout.getD c.defaultTimeout) now
  match transactionalId with
  | none => (r.1, r.2, 0)
  | some tid =>
    match c.existingProducer tid with
    | some (producerId, state) =>
      let bumped := state.bumpEpoch
      ({ c with
        producerStates := c.producerStates.insert producerId (bumped.1.reset now) },
        producerId, bumped.2)
    | none =>
      ({ r.1 with transactionalIds := r.1.transactionalIds.insert tid r.2 }, r.2, 0)

variable (producerId : ProducerId) (epoch : ProducerEpoch)

def validateEpoch : Result ProducerState :=
  match c.producerStates.lookup producerId with
  | none => .error (.unknownProducerId producerId)
  | some state =>
    if state.epoch ≠ epoch then .error (.producerFenced state.epoch epoch) else .ok state

-- Calls a method of the producer with this id if the epoch is the current one.
def withProducer
    (method : ProducerState → ProducerState × Result Unit) : TransactionCoordinator × Result Unit :=
  match c.validateEpoch producerId epoch with
  | .error e => (c, .error e)
  | .ok state =>
    let r := method state
    ({ c with producerStates := c.producerStates.insert producerId r.1 }, r.2)

def beginTransaction (c : TransactionCoordinator) (producerId : ProducerId) (epoch : ProducerEpoch)
    (now : ℕ) : TransactionCoordinator × Result Unit :=
  c.withProducer producerId epoch (·.beginTransaction now)

def addPartitionToTransaction (topic : String) (partition : UInt32) (now : ℕ) :
    TransactionCoordinator × Result Unit :=
  c.withProducer producerId epoch (·.addPartition ⟨topic, partition⟩ now)

def commitTransaction (now : ℕ) : TransactionCoordinator × Result Unit :=
  c.withProducer producerId epoch fun state =>
    match state.prepareCommit now with
    | (state, .error e) => (state, .error e)
    | (state, .ok ()) => state.completeCommit now

def abortTransaction (now : ℕ) : TransactionCoordinator × Result Unit :=
  c.withProducer producerId epoch fun state =>
    match state.prepareAbort now with
    | (state, .error e) => (state, .error e)
    | (state, .ok ()) => state.completeAbort now

def checkSequence (c : TransactionCoordinator) (producerId : ProducerId) (epoch : ProducerEpoch)
    (topic : String) (partition : UInt32) (baseSequence : SequenceNumber) (batchSize : Int32)
    (now : ℕ) : TransactionCoordinator × Result Unit :=
  c.withProducer producerId epoch (·.checkSequence ⟨topic, partition⟩ baseSequence batchSize now)

-- What the two calls return is ignored.
def expire (now : ℕ) (state : ProducerState) : ProducerState :=
  if state.isExpired now ∧ ¬ state.transactionState.isTerminal then
    ((state.prepareAbort now).1.completeAbort now).1
  else state

def expireTransactions (now : ℕ) : TransactionCoordinator :=
  { c with producerStates := {
      entries := c.producerStates.entries.map (Sigma.map id fun _ => expire now)
      nodupKeys := by
        rw [List.NodupKeys, List.keys, List.map_map]
        exact c.producerStates.nodupKeys } }

end TransactionCoordinator

end MessageQueue
