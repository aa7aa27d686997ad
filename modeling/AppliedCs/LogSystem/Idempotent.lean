import Mathlib.Data.Nat.Notation
import Mathlib.Logic.Function.Basic

namespace LogSystem

-- Points in time and durations are counted in nanoseconds.
structure IdempotentConfig where
  producerStateExpiry : ℕ := 7 * 24 * 60 * 60 * 1000000000
  maxBatchesPerProducer : ℕ := 5
  enableStrictSequenceCheck : Bool := true

structure BatchMetadata where
  firstSequence : Int32
  lastOffset : ℕ
  timestamp : ℕ

structure ProducerState where
  producerId : Int64
  producerEpoch : Int16
  lastSequence : Int32 := -1
  lastOffset : ℕ := 0
  lastTimestamp : ℕ
  recentBatches : List BatchMetadata := []

namespace ProducerState

def new (producerId : Int64) (producerEpoch : Int16) (now : ℕ) : ProducerState :=
  { producerId, producerEpoch, lastTimestamp := now }

variable (s : ProducerState)

-- Every batch has size one.
def update (firstSequence : Int32) (lastOffset maxBatches now : ℕ) : ProducerState :=
  let recentBatches := s.recentBatches ++ [⟨firstSequence, lastOffset, now⟩]
  { s with
    lastSequence := firstSequence + 1 - 1
    lastOffset := lastOffset
    lastTimestamp := now
    recentBatches := if recentBatches.length > maxBatches then recentBatches.tail
                     else recentBatches }

def isExpired (expiry now : ℕ) : Bool :=
  now - s.lastTimestamp > expiry

def existing (firstSequence : Int32) : Option BatchMetadata :=
  s.recentBatches.find? (·.firstSequence == firstSequence)

end ProducerState

inductive SequenceCheckResult
  | valid
  | duplicate (existingOffset : ℕ)
  | outOfOrder (expected : Int32)
  | fenced (currentEpoch : Int16)
  deriving DecidableEq

structure SequenceTracker where
  config : IdempotentConfig
  producers : Int64 → Option ProducerState := fun _ => none
  lastCleanup : ℕ

namespace SequenceTracker

variable (t : SequenceTracker)

def maybeCleanup (now : ℕ) : SequenceTracker :=
  if now - t.lastCleanup < 60 * 1000000000 then t
  else
    { t with
      producers := fun id => (t.producers id).filter (!·.isExpired t.config.producerStateExpiry now)
      lastCleanup := now }

def put (id : Int64) (state : ProducerState) : SequenceTracker :=
  { t with producers := Function.update t.producers id (some state) }

-- The state is there afterwards, and belongs to the new epoch, even if the batch is refused.
def checkAndUpdate (id : Int64) (epoch : Int16) (firstSequence : Int32)
    (assignedOffset now : ℕ) : SequenceTracker × SequenceCheckResult :=
  let t := t.maybeCleanup now
  let state := (t.producers id).getD (.new id epoch now)
  if epoch < state.producerEpoch then (t.put id state, .fenced state.producerEpoch)
  else
    let state := if epoch > state.producerEpoch then .new id epoch now else state
    match state.existing firstSequence with
    | some batch => (t.put id state, .duplicate batch.lastOffset)
    | none =>
      let expected := state.lastSequence + 1
      if t.config.enableStrictSequenceCheck ∧ firstSequence ≠ expected ∧
          ¬ (state.lastSequence = -1 ∧ firstSequence = 0) then
        (t.put id state, .outOfOrder expected)
      else
        (t.put id (state.update firstSequence assignedOffset t.config.maxBatchesPerProducer now),
          .valid)

def checkSequence (id : Int64) (epoch : Int16) (firstSequence : Int32) : SequenceCheckResult :=
  match t.producers id with
  | none => if firstSequence = 0 then .valid else .outOfOrder 0
  | some state =>
    if epoch < state.producerEpoch then .fenced state.producerEpoch
    else
      match state.existing firstSequence with
      | some batch => .duplicate batch.lastOffset
      | none =>
        let expected := if epoch > state.producerEpoch then 0 else state.lastSequence + 1
        if firstSequence ≠ expected then .outOfOrder expected else .valid

end SequenceTracker

end LogSystem
