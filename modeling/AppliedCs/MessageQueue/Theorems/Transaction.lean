import AppliedCs.Lib.Transition
import AppliedCs.MessageQueue.Transaction

namespace MessageQueue

open Transition TransactionCoordinator List Option Function

-- The calls that present an id and an epoch.
inductive ProducerCall
  | beginTransaction
  | addPartition (topic : String) (partition : UInt32)
  | commitTransaction
  | abortTransaction
  | checkSequence (topic : String) (partition : UInt32) (baseSequence : SequenceNumber)
    (batchSize : Int32)

def ProducerCall.run (c : TransactionCoordinator) (producerId : ProducerId) (epoch : ProducerEpoch)
    (now : ℕ) : ProducerCall → TransactionCoordinator × Result Unit
  | beginTransaction => c.beginTransaction producerId epoch now
  | addPartition topic partition =>
    c.addPartitionToTransaction producerId epoch topic partition now
  | commitTransaction => c.commitTransaction producerId epoch now
  | abortTransaction => c.abortTransaction producerId epoch now
  | checkSequence topic partition base batchSize =>
    c.checkSequence producerId epoch topic partition base batchSize now

namespace ProducerState

-- None of the calls changes the counter, only a new initialisation does.
def KeepsCounter (method : ProducerState → ProducerState × Result Unit) : Prop :=
  ∀ s, (method s).1.counter = s.counter

theorem keepsCounter_beginTransaction : KeepsCounter (·.beginTransaction now) := fun s => by
  simp only [beginTransaction]
  split <;> rfl

theorem keepsCounter_addPartition : KeepsCounter (·.addPartition tp now) :=
  fun s => by
    simp only [addPartition]
    split <;> rfl

theorem keepsCounter_checkSequence :
    KeepsCounter (·.checkSequence tp baseSequence batchSize now) := fun s => by
  simp only [checkSequence]
  split
  case isTrue => rfl
  case isFalse => split <;> rfl

theorem keepsCounter_prepareCommit : KeepsCounter (·.prepareCommit now) := fun s => by
  simp only [prepareCommit]
  split <;> rfl

theorem keepsCounter_completeCommit : KeepsCounter (·.completeCommit now) := fun s => by
  simp only [completeCommit]
  split <;> rfl

theorem keepsCounter_prepareAbort : KeepsCounter (·.prepareAbort now) := fun s => by
  simp only [prepareAbort]
  split <;> rfl

theorem keepsCounter_completeAbort : KeepsCounter (·.completeAbort now) := fun s => by
  simp only [completeAbort]
  split <;> rfl

theorem KeepsCounter.andThen (h₁ : KeepsCounter first) (h₂ : KeepsCounter second) :
    KeepsCounter fun s =>
      match first s with
      | (s, .error e) => (s, .error e)
      | (s, .ok ()) => second s := fun s => by
  have h := h₁ s
  beta_reduce
  generalize first s = r at h ⊢
  obtain ⟨s', _ | _⟩ := r
  case error => exact h
  case ok => exact (h₂ s').trans h

theorem counter_expire : (expire now s).counter = s.counter := by
  rw [expire]
  split
  case isTrue => exact (keepsCounter_completeAbort _).trans (keepsCounter_prepareAbort s)
  case isFalse => rfl

end ProducerState

namespace TransactionCoordinator

variable {c : TransactionCoordinator} {producerId : ProducerId} {epoch : ProducerEpoch}

def counter (c : TransactionCoordinator) (producerId : ProducerId) : Option UInt64 :=
  (c.producerStates.lookup producerId).map (·.counter)

theorem counter_insert {states : AList fun _ : ProducerId => ProducerState} :
    ((states.insert producerId state).lookup producerId').map (·.counter) =
      if producerId' = producerId then some state.counter
      else (states.lookup producerId').map (·.counter) := by
  by_cases h : producerId' = producerId
  case pos => rw [h, AList.lookup_insert, if_pos rfl, map_some]
  case neg => rw [AList.lookup_insert_ne h, if_neg h]

theorem counter_register : (c.register timeout now).1.counter =
    update c.counter (c.register timeout now).2 (some 0) := by
  funext producerId
  rw [update_apply]
  exact counter_insert

theorem counter_of_existing (h : c.existingProducer tid = some p) :
    c.counter p.1 = some p.2.counter := by
  obtain ⟨producerId, -, h⟩ := bind_eq_some_iff.mp h
  obtain ⟨state, hs, rfl⟩ := map_eq_some_iff.mp h
  rw [counter, hs, map_some]

theorem counter_withProducer (h : ProducerState.KeepsCounter method) :
    (c.withProducer producerId epoch method).1.counter = c.counter := by
  funext producerId'
  rw [withProducer, validateEpoch]
  split
  · rfl
  case h_2 state hv =>
    have hl : c.producerStates.lookup producerId = some state := by
      split at hv
      · cases hv
      · split at hv
        · cases hv
        · cases hv; assumption
    refine counter_insert.trans ?_
    split
    case isTrue heq => rw [heq, counter, hl, h]; rfl
    case isFalse => rfl

theorem counter_run {call : ProducerCall} :
    (call.run c producerId epoch now).1.counter = c.counter := by
  cases call
  case beginTransaction => exact counter_withProducer ProducerState.keepsCounter_beginTransaction
  case addPartition => exact counter_withProducer ProducerState.keepsCounter_addPartition
  case checkSequence => exact counter_withProducer ProducerState.keepsCounter_checkSequence
  case commitTransaction =>
    exact counter_withProducer <| ProducerState.keepsCounter_prepareCommit.andThen
      ProducerState.keepsCounter_completeCommit
  case abortTransaction =>
    exact counter_withProducer <| ProducerState.keepsCounter_prepareAbort.andThen
      ProducerState.keepsCounter_completeAbort

theorem counter_expireTransactions : (c.expireTransactions now).counter = c.counter := by
  funext producerId
  have hl : (c.expireTransactions now).producerStates.lookup producerId =
      (c.producerStates.lookup producerId).map (expire now) := dlookup_map₂ producerId
  rw [counter, hl, counter]
  cases c.producerStates.lookup producerId
  case none => rfl
  case some state => exact congrArg some ProducerState.counter_expire

theorem run_fenced {call : ProducerCall} (h : c.producerStates.lookup producerId = some state)
    (he : state.epoch ≠ epoch) :
    call.run c producerId epoch now = (c, .error (.producerFenced state.epoch epoch)) := by
  have hv : c.validateEpoch producerId epoch = .error (.producerFenced state.epoch epoch) := by
    rw [validateEpoch, h]
    exact if_pos he
  have hw (method) : c.withProducer producerId epoch method =
      (c, .error (.producerFenced state.epoch epoch)) := by
    rw [withProducer, hv]
  cases call <;> exact hw _

end TransactionCoordinator

-- How far an epoch is behind zero, as the counter goes up.
def ProducerEpoch.index (epoch : ProducerEpoch) : ℕ :=
  epoch.toUInt16.toNat

theorem ProducerEpoch.index_eq {counter : UInt64} (h : counter.toNat < UInt16.size) :
    index counter.toUInt16.toInt16 = counter.toNat := by
  exact Nat.mod_eq_of_lt h

theorem ProducerState.bumpEpoch_snd {s : ProducerState} : s.bumpEpoch.2 = s.bumpEpoch.1.epoch := by
  simp only [bumpEpoch, epoch, UInt64.toUInt16_add, UInt16.toInt16_add]
  rfl

namespace FencingRun

-- The coordinator and what its initialisations for transactional ids have returned so far, the
-- newest first.
structure State where
  coordinator : TransactionCoordinator
  returned : List (TransactionalId × ProducerId × ProducerEpoch) := []
  deriving DecidableEq

inductive Event
  | initProducerId (transactionalId : Option TransactionalId) (transactionTimeout : Option ℕ)
    (now : ℕ)
  | call (call : ProducerCall) (producerId : ProducerId) (epoch : ProducerEpoch) (now : ℕ)
  | expire (now : ℕ)

def step (s : State) : Event → Option State
  | .initProducerId tid timeout now =>
    let r := s.coordinator.initProducerId tid timeout now
    some ⟨r.1, (tid.map (·, r.2)).toList ++ s.returned⟩
  | .call call producerId epoch now =>
    some { s with coordinator := (call.run s.coordinator producerId epoch now).1 }
  | .expire now =>
    some { s with coordinator := s.coordinator.expireTransactions now }

-- An initialisation does not take the epoch of its producer around, and does not give away an id
-- that is in use.
def Careful (s : State) : Event → Prop
  | .initProducerId tid _ _ =>
    let existing := tid.bind s.coordinator.existingProducer
    (∀ p ∈ existing, p.2.counter.toNat + 1 < UInt16.size) ∧
      (existing = none → s.coordinator.idManager.nextId ∉ s.coordinator.producerStates)
  | _ => True

instance {s : State} : DecidablePred (Careful s) := fun event => by
  cases event <;> (dsimp only [Careful]; infer_instance)

structure Inv (s : State) : Prop where
  bounded : ∀ producerId counter, s.coordinator.counter producerId = some counter →
    counter.toNat < UInt16.size
  current : ∀ r ∈ s.returned, ∃ counter, s.coordinator.counter r.2.1 = some counter ∧
    ProducerEpoch.index r.2.2 ≤ counter.toNat
  ordered : s.returned.Pairwise fun newer older => newer.2.1 = older.2.1 →
    ProducerEpoch.index older.2.2 < ProducerEpoch.index newer.2.2

theorem initProducerId_spec (hc : Careful s (.initProducerId tid timeout now)) :
    let r := s.coordinator.initProducerId tid timeout now
    ∃ counter : UInt64, counter.toNat < UInt16.size ∧ r.2.2 = counter.toUInt16.toInt16 ∧
      r.1.counter = update s.coordinator.counter r.2.1 (some counter) ∧
      ∀ old, s.coordinator.counter r.2.1 = some old → old.toNat < counter.toNat := by
  have hnew (h : tid.bind s.coordinator.existingProducer = none) (old : UInt64) :
      s.coordinator.counter s.coordinator.idManager.nextId ≠ some old := by
    rw [counter, AList.lookup_eq_none.mpr (hc.2 h)]
    nofun
  cases tid
  case none =>
    exact ⟨0, by decide, rfl, counter_register, fun _ h => (hnew rfl _ h).elim⟩
  case some tid =>
    simp only [initProducerId]
    split
    case h_1 producerId state he =>
      have hb : state.counter.toNat + 1 < UInt16.size := hc.1 _ he
      have hold := counter_of_existing he
      have hn : (state.counter + 1).toNat = state.counter.toNat + 1 := by
        rw [UInt64.toNat_add]
        exact Nat.mod_eq_of_lt <| Nat.lt_trans hb (by decide)
      refine ⟨state.counter + 1, hn ▸ hb, ProducerState.bumpEpoch_snd, ?_, fun old h => ?_⟩
      · funext producerId'
        rw [update_apply]
        exact counter_insert
      · cases hold.symm.trans h
        exact hn ▸ Nat.lt_succ_self _
    case h_2 he =>
      exact ⟨0, by decide, rfl, counter_register, fun _ h => (hnew he _ h).elim⟩

theorem Inv.of_counter (h : Inv s) (hc : c.counter = s.coordinator.counter) :
    Inv { s with coordinator := c } where
  bounded := hc ▸ h.bounded
  current := hc ▸ h.current
  ordered := h.ordered

theorem Inv.initProducerId (h : Inv s) (hc : Careful s (.initProducerId tid timeout now)) :
    let r := s.coordinator.initProducerId tid timeout now
    Inv ⟨r.1, (tid.map (·, r.2)).toList ++ s.returned⟩ := by
  obtain ⟨counter, hb, he, hr, hlt⟩ := initProducerId_spec hc
  generalize s.coordinator.initProducerId tid timeout now = r at he hr hlt ⊢
  have hi : ProducerEpoch.index r.2.2 = counter.toNat := he ▸ ProducerEpoch.index_eq hb
  have hself : r.1.counter r.2.1 = some counter := by rw [hr, update_self]
  have hmem {p} (hp : p ∈ (tid.map (·, r.2)).toList) : p.2 = r.2 := by
    obtain ⟨_, -, rfl⟩ := map_eq_some_iff.mp <| mem_toList.mp hp
    rfl
  refine ⟨fun producerId n hn => ?_, fun p hp => ?_, ?_⟩
  · by_cases heq : producerId = r.2.1
    case pos => cases (heq ▸ hself).symm.trans hn; exact hb
    case neg => exact h.bounded producerId n <| by rwa [hr, update_of_ne heq] at hn
  · rcases mem_append.mp hp with hp | hp
    case inl => exact ⟨counter, hmem hp ▸ hself, Nat.le_of_eq (hmem hp ▸ hi)⟩
    case inr =>
      obtain ⟨old, ho, hle⟩ := h.current p hp
      by_cases heq : p.2.1 = r.2.1
      case pos =>
        exact ⟨counter, heq ▸ hself, Nat.le_trans hle (Nat.le_of_lt <| hlt old (heq ▸ ho))⟩
      case neg => exact ⟨old, by rwa [hr, update_of_ne heq], hle⟩
  · refine pairwise_append.mpr ⟨?_, h.ordered, fun p hp q hq heq => ?_⟩
    · cases tid
      case none => exact .nil
      case some => exact pairwise_singleton ..
    · -- The older one is behind the counter that the initialisation has found.
      obtain ⟨old, ho, hle⟩ := h.current q hq
      rw [hmem hp] at heq ⊢
      exact hi ▸ Nat.lt_of_le_of_lt hle (hlt old (heq ▸ ho))

theorem inv_of_reaches (hc : c.producerStates = ∅) (r : Reaches step Careful ⟨c, []⟩ s) :
    Inv s := by
  refine r.invariant ⟨fun _ _ h => ?_, nofun, .nil⟩ fun {s s' e} h ho hs => ?_
  case refine_1 =>
    rw [counter, hc] at h
    cases h
  case refine_2 =>
    cases e <;> cases hs
    case initProducerId => exact h.initProducerId ho
    case call => exact h.of_counter counter_run
    case expire => exact h.of_counter counter_expireTransactions

-- A producer whose transactional id has been initialised again is refused for good.
theorem old_epoch_fenced {startId : ProducerId} {defaultTimeout : ℕ} {s : State}
    (r : Reaches step Careful ⟨.new startId defaultTimeout, []⟩ s) {tid : TransactionalId}
    {producerId : ProducerId} {e₁ e₂ : ProducerEpoch}
    {newer older : List (TransactionalId × ProducerId × ProducerEpoch)}
    (hs : s.returned = newer ++ (tid, producerId, e₂) :: older) (he : (tid, producerId, e₁) ∈ older)
    (call : ProducerCall) (now : ℕ) : ∃ expected,
      call.run s.coordinator producerId e₁ now =
        (s.coordinator, .error (.producerFenced expected e₁)) := by
  have inv := inv_of_reaches rfl r
  have hlt : ProducerEpoch.index e₁ < ProducerEpoch.index e₂ := by
    have h := hs ▸ inv.ordered
    exact rel_of_pairwise_cons (pairwise_append.mp h).2.1 he rfl
  obtain ⟨counter, hc, hle⟩ := inv.current (tid, producerId, e₂) <| by
    rw [hs]
    exact mem_append_right _ (mem_cons_self ..)
  obtain ⟨state, hl, rfl⟩ := map_eq_some_iff.mp hc
  refine ⟨state.epoch, run_fenced hl fun h => ?_⟩
  have hi : ProducerEpoch.index state.epoch = state.counter.toNat :=
    ProducerEpoch.index_eq (inv.bounded _ _ hc)
  rw [h] at hi
  exact absurd (hi ▸ hle) (Nat.not_le_of_lt hlt)

theorem old_epoch_fenced_twice : ∃ s : State,
    Reaches step Careful ⟨.new 0 60, []⟩ s ∧ s.returned = [("t", 0, 1), ("t", 0, 0)] ∧
      ∃ expected, s.coordinator.commitTransaction 0 0 3 =
        (s.coordinator, .error (.producerFenced expected 0)) := by
  obtain ⟨s, r, hs⟩ : ∃ s : State, Reaches step Careful ⟨.new 0 60, []⟩ s ∧
      s.returned = [("t", 0, 1), ("t", 0, 0)] :=
    Reaches.exists_of_run [.initProducerId (some "t") none 0, .call .beginTransaction 0 0 1,
      .initProducerId (some "t") none 2] (by decide +kernel)
  have hs' : s.returned = [] ++ ("t", 0, 1) :: [("t", 0, 0)] := hs
  exact ⟨s, r, hs, old_epoch_fenced r hs' (.head _) .commitTransaction 3⟩

-- After the first initialisation of one id and `n` more of them.
def reinitialisedCoordinator (counter : UInt64) : TransactionCoordinator where
  producerStates := AList.singleton 0 {
    producerId := 0, counter, lastUpdate := 0, transactionTimeout := 60 }
  transactionalIds := AList.singleton "t" 0
  idManager := { nextId := 1, blockSize := 1000, blockEnd := 1000 }
  defaultTimeout := 60

def reinitialised (n : ℕ) : State where
  coordinator := reinitialisedCoordinator (.ofNat n)
  returned := n.rec [("t", 0, 0)] fun n returned =>
    ("t", 0, (UInt64.ofNat (n + 1)).toUInt16.toInt16) :: returned

theorem step_reinitialised (n : ℕ) :
    step (reinitialised n) (.initProducerId (some "t") none 0) = some (reinitialised (n + 1)) := by
  have hc : UInt64.ofNat n + 1 = UInt64.ofNat (n + 1) := (UInt64.ofNat_add ..).symm
  have he : (UInt64.ofNat n).toUInt16.toInt16 + 1 = (UInt64.ofNat (n + 1)).toUInt16.toInt16 := by
    rw [← hc, UInt64.toUInt16_add]
    rfl
  have hs : step (reinitialised n) (.initProducerId (some "t") none 0) =
      some ⟨reinitialisedCoordinator (.ofNat n + 1),
        ("t", 0, (UInt64.ofNat n).toUInt16.toInt16 + 1) :: (reinitialised n).returned⟩ := rfl
  rw [hs, he, hc]
  rfl

theorem reaches_reinitialised (n : ℕ) :
    Reaches step anyEvent ⟨.new 0 60, []⟩ (reinitialised n) := by
  induction n
  case zero => exact .single ⟨.initProducerId (some "t") none 0, trivial, rfl⟩
  case succ n hi => exact .tail hi ⟨_, trivial, step_reinitialised n⟩

theorem returned_reinitialised (n : ℕ) :
    ∃ newer, (reinitialised (n + 1)).returned = newer ++ [("t", 0, 1), ("t", 0, 0)] := by
  induction n
  case zero => exact ⟨[], rfl⟩
  case succ n hi =>
    obtain ⟨newer, h⟩ := hi
    exact ⟨_ :: newer, congrArg (cons _) h⟩

-- The epoch has gone around once: the first instance may begin a transaction again.
theorem first_epoch_valid_again : ∃ s newer, Reaches step anyEvent ⟨.new 0 60, []⟩ s ∧
      s.returned = newer ++ [("t", 0, 1), ("t", 0, 0)] ∧
      (s.coordinator.beginTransaction 0 0 1).2 = .ok () := by
  obtain ⟨newer, h⟩ := returned_reinitialised 65535
  exact ⟨_, newer, reaches_reinitialised 65536, h, by decide +kernel⟩

end FencingRun

end MessageQueue
