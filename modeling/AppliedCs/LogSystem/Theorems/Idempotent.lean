import AppliedCs.LogSystem.Idempotent

namespace LogSystem.SequenceTracker

open ProducerState

variable {t : SequenceTracker} {id : Int64} {epoch : Int16} {firstSequence : Int32}
  {assignedOffset : ℕ}

-- No producer is dropped at this time.
def Fresh (t : SequenceTracker) (now : ℕ) : Prop :=
  ∀ id, ∀ state ∈ t.producers id, ¬ state.isExpired t.config.producerStateExpiry now

-- A recent batch of an older epoch has this number.
def Remembered (t : SequenceTracker) (id : Int64) (epoch : Int16) (firstSequence : Int32) : Prop :=
  ∃ state ∈ t.producers id, state.producerEpoch < epoch ∧ (state.existing firstSequence).isSome

theorem Fresh.maybeCleanup (h : t.Fresh now) : (t.maybeCleanup now).producers = t.producers ∧
    (t.maybeCleanup now).config = t.config := by
  rw [SequenceTracker.maybeCleanup]
  split
  case isTrue => exact ⟨rfl, rfl⟩
  case isFalse =>
    refine ⟨funext fun id => ?_, rfl⟩
    cases hs : t.producers id
    case none => simp [hs]
    case some state => simp [hs, h id state hs]

-- What the decision is for the state that the check meets.
def verdict (state : ProducerState) (firstSequence : Int32) : SequenceCheckResult :=
  match state.existing firstSequence with
  | some batch => .duplicate batch.lastOffset
  | none => if firstSequence ≠ state.lastSequence + 1 then .outOfOrder (state.lastSequence + 1)
            else .valid

theorem verdict_new : verdict (.new id epoch now) firstSequence =
    if firstSequence = 0 then .valid else .outOfOrder 0 := by
  by_cases hz : firstSequence = 0 <;> simp [verdict, existing, ProducerState.new, hz]

theorem checkAndUpdate_eq (hs : t.config.enableStrictSequenceCheck) (h : t.Fresh now) :
    (t.checkAndUpdate id epoch firstSequence assignedOffset now).2 =
      let state := (t.producers id).getD (.new id epoch now)
      if epoch < state.producerEpoch then .fenced state.producerEpoch
      else
        verdict (if epoch > state.producerEpoch then .new id epoch now else state)
          firstSequence := by
  simp only [checkAndUpdate, h.maybeCleanup]
  generalize (t.producers id).getD (.new id epoch now) = state
  split
  case isTrue => rfl
  generalize (if epoch > state.producerEpoch then ProducerState.new id epoch now else state) = state
  rw [verdict]
  cases state.existing firstSequence
  case some => rfl
  case none =>
    have h0 : state.lastSequence = -1 ∧ firstSequence = 0 →
        firstSequence = state.lastSequence + 1 := by
      rintro ⟨hl, rfl⟩
      rw [hl]
      rfl
    by_cases hf : firstSequence = state.lastSequence + 1
    case pos => simp [hf]
    case neg => simp [hs, hf, mt h0 hf]

-- The check looks for duplicates before it compares the epochs, the update the other way round.
theorem check_predicts_update_iff (hs : t.config.enableStrictSequenceCheck) (h : t.Fresh now) :
    t.checkSequence id epoch firstSequence =
        (t.checkAndUpdate id epoch firstSequence assignedOffset now).2 ↔
      ¬ t.Remembered id epoch firstSequence := by
  rw [checkAndUpdate_eq hs h, checkSequence, Remembered]
  cases t.producers id
  case none =>
    have he : (ProducerState.new id epoch now).producerEpoch = epoch := rfl
    simp [verdict_new, he]
  case some state =>
    simp only [Option.getD_some, Option.mem_some_iff, exists_eq_left', gt_iff_lt]
    by_cases hlt : epoch < state.producerEpoch
    case pos => simp [hlt, Int16.lt_asymm hlt]
    by_cases hgt : state.producerEpoch < epoch
    case neg => cases he : state.existing firstSequence <;> simp [hlt, hgt, verdict, he]
    case pos =>
      simp only [hlt, hgt, if_true, if_false, verdict_new, true_and]
      cases state.existing firstSequence
      case none => simp [ite_not]
      case some batch => by_cases hz : firstSequence = 0 <;> simp [hz]

def accepted : SequenceTracker :=
  (checkAndUpdate { config := {}, lastCleanup := 0 } 1 0 0 7 0).1

theorem check_predicts_update_next :
    accepted.checkSequence 1 0 1 = (accepted.checkAndUpdate 1 0 1 8 0).2 := by
  refine (check_predicts_update_iff rfl fun _ _ _ => by simp [isExpired]).mpr ?_
  rintro ⟨state, hs, hlt, -⟩
  cases hs
  exact absurd hlt (by decide)

-- The first batch of a new epoch is taken for the first one of the old epoch.
theorem new_epoch_taken_for_duplicate : accepted.checkSequence 1 1 0 = .duplicate 7 ∧
    (accepted.checkAndUpdate 1 1 0 8 0).2 = .valid := by
  decide

end LogSystem.SequenceTracker
