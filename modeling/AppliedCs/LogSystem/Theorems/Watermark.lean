import AppliedCs.LogSystem.Theorems.Replication

namespace LogSystem

open Transition List

namespace ReplicaManager

theorem minOffset_le (m : ReplicaManager) (replicas offset) :
    m.minOffset replicas offset ≤ offset := by
  unfold minOffset
  induction replicas generalizing offset
  case nil => exact le_rfl
  case cons b bs hi =>
    rw [foldl_cons]
    refine (hi _).trans ?_
    split
    · exact min_le_left _ _
    · exact le_rfl

theorem le_minOffset {m : ReplicaManager} (ho : n ≤ offset)
    (hr : ∀ b ∈ replicas, ∀ state ∈ m.remoteReplicas.lookup b, n ≤ state.logEndOffset) :
    n ≤ m.minOffset replicas offset := by
  unfold minOffset
  induction replicas generalizing offset
  case nil => exact ho
  case cons b bs hi =>
    have ⟨hb, hbs⟩ := forall_mem_cons.mp hr
    rw [foldl_cons]
    refine hi ?_ hbs
    split
    case h_1 state hs => exact le_min ho (hb state hs)
    case h_2 => exact ho

theorem becomeLeader_remote {m : ReplicaManager}
    (h : ∀ b, ∀ state ∈ m.remoteReplicas.lookup b, state.logEndOffset = 0) :
    ∀ b, ∀ state ∈ (m.becomeLeader now a).remoteReplicas.lookup b, state.logEndOffset = 0 := by
  unfold becomeLeader
  generalize m.remoteReplicas = remote at h ⊢
  induction a.replicas generalizing remote
  case nil => exact h
  case cons c cs hi =>
    rw [foldl_cons]
    refine hi _ fun b state hs => ?_
    split at hs
    case isFalse => exact h b state hs
    by_cases hb : b = c
    case pos =>
      subst hb
      rw [AList.lookup_insert] at hs
      cases hs
      rfl
    case neg =>
      rw [AList.lookup_insert_ne hb] at hs
      exact h b state hs

theorem exists_of_inSyncReplicas {m : ReplicaManager} (h : b ∈ m.inSyncReplicas now a n) :
    ∃ state, state ∈ m.remoteReplicas.lookup b := by
  have ⟨_, hb⟩ := mem_filter.mp h
  have ⟨state, hs, _⟩ := Option.any_eq_true .. |>.mp (of_decide_eq_true hb).2
  exact ⟨state, hs⟩

end ReplicaManager

namespace Replication

open ReplicaManager

section

variable [Platform] {setup : Setup} {s s' : Replication}

def watermarkOf (s : Replication) (b : BrokerId) : ℕ :=
  ((s.brokers b).partition.map (·.highWatermark)).getD 0

def endOf (s : Replication) (b : BrokerId) : ℕ :=
  ((s.brokers b).partition.map (·.logEndOffset)).getD 0

-- The replicas within the limits on the lag have fetched up to the watermark.
def Covers (setup : Setup) (clock : ℕ) (m : ReplicaManager) : Prop :=
  ∀ p ∈ m.partition, ∀ b ∈ m.inSyncReplicas clock setup.assignment p.logEndOffset,
    ∀ state ∈ m.remoteReplicas.lookup b, p.highWatermark ≤ state.logEndOffset

-- The watermark that comes with a response is not above the log end that the follower gets.
def Committing (setup : Setup) (s : Replication) (e : Event) : Prop :=
  InOrder setup s e ∧
  match e with
  | .serve i =>
    ∀ request ∈ s.requests[i]?, ∀ part ∈ request.2.partitions.head?,
      Covers setup s.clock (s.recorded setup request.2 part)
  | .recompute => Covers setup s.clock (s.brokers setup.assignment.leader)
  | .deliver i =>
    ∀ reply ∈ s.replies[i]?, reply.response.highWatermark ≤
      endOffset (s.endOf reply.replicaId) reply.response.recordBatches
  | _ => True

-- The replicas are gone through one by one, not all numbers that a broker may have.
instance (setup : Setup) (clock : ℕ) (m : ReplicaManager) : Decidable (Covers setup clock m) :=
  have (p : Partition) : Decidable (∀ b ∈ m.inSyncReplicas clock setup.assignment p.logEndOffset,
      ∀ state ∈ m.remoteReplicas.lookup b, p.highWatermark ≤ state.logEndOffset) :=
    decidableBAll _ _
  inferInstanceAs <| Decidable (∀ _ ∈ _, _)

instance : ∀ (setup : Setup) (s : Replication) (e : Event), Decidable (Committing setup s e)
  | _, _, .serve _ => inferInstanceAs <| Decidable (_ ∧ ∀ _ ∈ _, ∀ _ ∈ _, _)
  | _, _, .recompute => inferInstanceAs <| Decidable (_ ∧ Covers _ _ _)
  | _, _, .deliver _ => inferInstanceAs <| Decidable (_ ∧ ∀ _ ∈ _, _)
  | _, _, .append _ | _, _, .fetch _ | _, _, .fail _ | _, _, .tick _ =>
    inferInstanceAs <| Decidable (_ ∧ True)

-- The replicas that the leader counts as in sync in a step.
def counted (setup : Setup) (s : Replication) : Event → List BrokerId
  | .serve i =>
    ((s.requests[i]?).bind fun request => request.2.partitions.head?.map fun part =>
      (s.recorded setup request.2 part).inSyncReplicas s.clock setup.assignment
        (s.endOf setup.assignment.leader)).getD []
  | .recompute =>
    (s.brokers setup.assignment.leader).inSyncReplicas s.clock setup.assignment
      (s.endOf setup.assignment.leader)
  | _ => []

-- What the leader knows about the replicas is not ahead of them.
structure Committed (setup : Setup) (s : Replication) : Prop where
  inv : ∃ p, Inv setup s p
  bounded : ∀ b, s.watermarkOf b ≤ s.endOf b
  published : s.published ≤ s.watermarkOf setup.assignment.leader
  asked : ∀ r ∈ s.requests, ∀ part ∈ r.2.partitions.head?,
    part.fetchOffset ≤ s.endOf r.2.replicaId.toUInt32
  remote : ∀ b, ∀ state ∈ (s.brokers setup.assignment.leader).remoteReplicas.lookup b,
    state.logEndOffset ≤ s.endOf b

-- Logs and watermarks grow, and no watermark is above the log end.
structure Advances (s s' : Replication) : Prop where
  ends : ∀ b, s.endOf b ≤ s'.endOf b
  marks : ∀ b, s.watermarkOf b ≤ s'.watermarkOf b
  bounded : ∀ b, s'.watermarkOf b ≤ s'.endOf b

omit [Platform] in
theorem Advances.of_partitions (hb : ∀ b, s.watermarkOf b ≤ s.endOf b)
    (h : ∀ b, (s'.brokers b).partition = (s.brokers b).partition) : Advances s s' := by
  refine ⟨fun b => ?_, fun b => ?_, fun b => ?_⟩ <;> simp only [endOf, watermarkOf, h]
  case refine_1 | refine_2 => exact le_rfl
  case refine_3 => exact hb b

omit [Platform] in
theorem Advances.setBroker (hb : ∀ b, s.watermarkOf b ≤ s.endOf b)
    (hq : (s.brokers b).partition = some q) (hq' : m.partition = some p)
    (he : q.logEndOffset ≤ p.logEndOffset) (hw : q.highWatermark ≤ p.highWatermark)
    (hle : p.highWatermark ≤ p.logEndOffset) : Advances s (s.setBroker b m) := by
  have hself : (s.endOf b = q.logEndOffset ∧ s.watermarkOf b = q.highWatermark) ∧
      (s.setBroker b m).endOf b = p.logEndOffset ∧
      (s.setBroker b m).watermarkOf b = p.highWatermark := by
    simp [endOf, watermarkOf, hq, hq']
  have hother : ∀ b' ≠ b, (s.setBroker b m).endOf b' = s.endOf b' ∧
      (s.setBroker b m).watermarkOf b' = s.watermarkOf b' := by
    intro b' hne
    rw [endOf, watermarkOf, setBroker_of_ne hne]
    exact ⟨rfl, rfl⟩
  have hall : ∀ b', s.endOf b' ≤ (s.setBroker b m).endOf b' ∧
      s.watermarkOf b' ≤ (s.setBroker b m).watermarkOf b' ∧
      (s.setBroker b m).watermarkOf b' ≤ (s.setBroker b m).endOf b' := by
    intro b'
    by_cases hne : b' = b
    case pos =>
      subst hne
      omega
    case neg =>
      have ⟨he, hw⟩ := hother b' hne
      have hle := hb b'
      omega
  exact ⟨fun b' => (hall b').1, fun b' => (hall b').2.1, fun b' => (hall b').2.2⟩

theorem Inv.endOf_leader (h : Inv setup s p) :
    s.endOf setup.assignment.leader = p.logEndOffset := by
  rw [endOf, h.leader.partition]
  rfl

theorem Inv.watermarkOf_leader (h : Inv setup s p) :
    s.watermarkOf setup.assignment.leader = p.highWatermark := by
  rw [watermarkOf, h.leader.partition]
  rfl

-- The watermark is the least of what the replicas in sync have fetched, so it does not go back.
theorem Covers.le_watermark (hc : Covers setup s.clock m) (hm : m.Leads setup.assignment p)
    (hb : p.highWatermark ≤ p.logEndOffset) :
    p.highWatermark ≤ m.watermark s.clock setup.assignment p :=
  le_minOffset hb (hc p hm.partition)

theorem Covers.le_endOf (hc : Covers setup s.clock m) (hm : m.Leads setup.assignment p)
    (hb : b ∈ m.inSyncReplicas s.clock setup.assignment p.logEndOffset)
    (hr : ∀ state ∈ m.remoteReplicas.lookup b, state.logEndOffset ≤ s.endOf b) :
    p.highWatermark ≤ s.endOf b :=
  have ⟨state, hs⟩ := exists_of_inSyncReplicas hb
  (hc p hm.partition b hb state hs).trans (hr state hs)

-- What a step leaves true of the requests and of the leader's knowledge.
structure Kept (setup : Setup) (s s' : Replication) : Prop extends Advances s s' where
  published : s'.published = s.published
  asked : ∀ r ∈ s'.requests, ∀ part ∈ r.2.partitions.head?,
    part.fetchOffset ≤ s'.endOf r.2.replicaId.toUInt32
  remote : ∀ b, ∀ state ∈ (s'.brokers setup.assignment.leader).remoteReplicas.lookup b,
    state.logEndOffset ≤ s'.endOf b

section

variable (h : Committed setup s)

include h

theorem Committed.kept (ha : Advances s s')
    (hp : s'.published = s.published) (hr : s'.requests = s.requests)
    (hm : (s'.brokers setup.assignment.leader).remoteReplicas =
      (s.brokers setup.assignment.leader).remoteReplicas) : Kept setup s s' where
  toAdvances := ha
  published := hp
  asked r hm part hpart := (h.asked r (hr ▸ hm) part hpart).trans (ha.ends _)
  remote b state hs := (h.remote b state (hm ▸ hs)).trans (ha.ends b)

theorem Committed.setState (b) (f : ReplicaState → ReplicaState) :
    Kept setup s (s.setBroker b { s.brokers b with follower := (s.brokers b).follower.map f }) := by
  refine h.kept (.of_partitions h.bounded fun b' => ?_) rfl rfl ?_
  · by_cases hb : b' = b
    case pos => rw [hb, setBroker_self]
    case neg => rw [setBroker_of_ne hb]
  · by_cases hb : setup.assignment.leader = b
    case pos => rw [hb, setBroker_self]
    case neg => rw [setBroker_of_ne hb]

theorem Committed.recorded (hr : request ∈ s.requests) (hp : part ∈ request.2.partitions.head?) :
    ∀ b, ∀ state ∈ (s.recorded setup request.2 part).remoteReplicas.lookup b,
      state.logEndOffset ≤ s.endOf b := by
  intro b state hs
  unfold Replication.recorded ReplicaManager.recordFetch at hs
  split at hs
  · exact h.remote b state hs
  · by_cases hb : b = request.2.replicaId.toUInt32
    case pos =>
      subst hb
      rw [AList.lookup_insert] at hs
      cases hs
      exact h.asked request hr part hp
    case neg =>
      rw [AList.lookup_insert_ne hb] at hs
      exact h.remote b state hs

theorem Committed.perform (hc : Committing setup s e)
    (hs : s.perform setup.assignment.leader e = some s') : Kept setup s s' := by
  obtain ⟨p, hi⟩ := h.inv
  have hle : p.highWatermark ≤ p.logEndOffset := by
    rw [← hi.endOf_leader, ← hi.watermarkOf_leader]
    exact h.bounded _
  cases e
  case append batch =>
    obtain ⟨hb, hr⟩ := hc.1 p hi.leader.partition
    obtain ⟨p', ha, hl, hw, hbs⟩ := hi.leader.appendToLeader hb hr
    rw [Replication.perform, ha] at hs
    cases hs
    have hend : p.logEndOffset ≤ p'.logEndOffset := by
      rw [hi.leader.sound.logEndOffset_eq, hl.sound.logEndOffset_eq, hbs, endOffset_append]
      exact le_endOffset
    refine h.kept (.setBroker h.bounded hi.leader.partition rfl hend hw.ge ?_) rfl rfl ?_
    · exact hw ▸ hle.trans hend
    · rw [setBroker_self]
  case fetch b =>
    obtain ⟨f, hf, requests, hs, hr⟩ := hi.fetch_eq hs
    subst hs
    have hk := h.setState b f
    refine ⟨⟨hk.ends, hk.marks, hk.bounded⟩, rfl, ?_, hk.remote⟩
    refine forall_mem_append.mpr ⟨hk.asked, fun r hm part hp => ?_⟩
    obtain ⟨hb, _, hid, hq⟩ := hr r hm
    obtain ⟨q, hf, _⟩ := hi.followers b hb
    rw [hq q hf part hp, hid]
    refine le_trans ?_ (hk.ends b)
    rw [endOf, hf.partition]
    exact le_rfl
  case serve i =>
    obtain ⟨request, hr, part, hp, batches, hpre, hs⟩ := hi.serve_eq hs
    subst hs
    have hl := hi.recorded request.2 part
    have ha : Advances s (s.setBroker setup.assignment.leader
        ((s.recorded setup request.2 part).recomputed s.clock setup.assignment p)) :=
      .setBroker h.bounded hi.leader.partition rfl le_rfl
        (Covers.le_watermark (hc.2 request hr part hp) hl hle) (minOffset_le ..)
    refine ⟨⟨ha.ends, ha.marks, ha.bounded⟩, rfl, ?_, fun b state hs => ?_⟩
    · exact fun r hm part hp => (h.asked r hm part hp).trans (ha.ends _)
    · rw [setBroker_self] at hs
      exact (h.recorded (mem_of_getElem? hr) hp b state hs).trans (ha.ends b)
  case deliver i =>
    obtain ⟨reply, hr, m, q, q', hs, hq, hq', hbs, _, hw⟩ := hi.deliver_eq hc.1 hs
    have hne := (hi.replies reply (mem_of_getElem? hr)).1
    have hend : q'.logEndOffset = endOffset q.logEndOffset reply.response.recordBatches := by
      rw [hq'.sound.logEndOffset_eq, hbs, endOffset_append, ← hq.sound.logEndOffset_eq]
    have hqe : s.endOf reply.replicaId = q.logEndOffset := by
      rw [endOf, hq.partition]
      rfl
    have hqw : q.highWatermark ≤ q.logEndOffset := by
      have := h.bounded reply.replicaId
      rwa [watermarkOf, endOf, hq.partition] at this
    have hrw : reply.response.highWatermark ≤ q'.logEndOffset := by
      rw [hend, ← hqe]
      exact hc.2 reply hr
    have hqq : q.logEndOffset ≤ q'.logEndOffset := hend ▸ le_endOffset
    subst hs
    refine h.kept (.setBroker h.bounded hq.partition hq'.partition hqq ?_ ?_) rfl rfl ?_
    · exact hw ▸ le_max_left _ _
    · exact hw ▸ max_le (hqw.trans hqq) hrw
    · rw [setBroker_of_ne hne.symm]
  case fail b =>
    cases hs
    exact h.setState b _
  case recompute =>
    obtain ⟨changed, hu⟩ := hi.leader.maybeUpdateIsrAndHw s.clock
    rw [Replication.perform, hu] at hs
    cases hs
    refine h.kept (.setBroker h.bounded hi.leader.partition rfl le_rfl ?_ ?_) rfl rfl ?_
    · exact Covers.le_watermark hc.2 hi.leader hle
    · exact minOffset_le ..
    · rw [setBroker_self]
      rfl
  case tick =>
    cases hs
    exact h.kept (.of_partitions h.bounded fun _ => rfl) rfl rfl rfl

theorem Kept.step (hc : Committing setup s e) (hs : step setup s e = some s') :
    Advances s s' ∧ Committed setup s' := by
  have ⟨s₁, hs₁, heq⟩ := Option.map_eq_some_iff.mp hs
  have hk := h.perform hc hs₁
  have hi := Inv.step h.inv hc.1 hs
  subst heq
  refine ⟨⟨hk.ends, hk.marks, hk.bounded⟩, hi, hk.bounded, ?_, hk.asked, hk.remote⟩
  exact max_le (hk.published ▸ h.published.trans (hk.marks _)) le_rfl

end

theorem committed_start (setup : Setup) : Committed setup (start setup) := by
  have hp : ∀ b, ∃ q, ((start setup).brokers b).partition = some q ∧
      q.highWatermark = 0 ∧ q.logEndOffset = 0 := by
    intro b
    rw [start]
    dsimp only
    split
    case isTrue | isFalse => exact ⟨_, rfl, rfl, rfl⟩
  refine ⟨inv_start setup, fun b => ?_, Nat.zero_le _, forall_mem_nil _, fun b state hs => ?_⟩
  · obtain ⟨q, hq, hw, he⟩ := hp b
    rw [watermarkOf, hq]
    exact hw.trans_le (Nat.zero_le _)
  · rw [start] at hs
    dsimp only at hs
    rw [if_pos rfl] at hs
    refine (becomeLeader_remote (fun b state hs => ?_) b state hs).trans_le (Nat.zero_le _)
    simp [Setup.manager] at hs

-- Who has all batches up to an offset has all records below it.
theorem Inv.mem_entries (h : Inv setup s p) (hm : entry ∈ s.entries setup.assignment.leader)
    (hlt : entry.1 < s.endOf b) : entry ∈ s.entries b := by
  by_cases hb : b = setup.assignment.leader
  case pos => exact hb ▸ hm
  obtain ⟨q, hq, rest, hr⟩ := h.followers b hb
  have hc := h.leader.sound.consecutive
  rw [entries, h.log_leader, ← hr, flatMap_append] at hm
  rw [entries, log, hq.partition]
  rcases mem_append.mp hm with hm | hm
  case inl => exact hm
  case inr =>
    obtain ⟨batch, hbatch, hm⟩ := mem_flatMap.mp hm
    obtain ⟨_, _, he⟩ := mem_map.mp hm
    rw [← hr] at hc
    have hle := (Consecutive.append_iff.mp hc).2.le_baseOffset hbatch
    rw [← hq.sound.logEndOffset_eq] at hle
    rw [endOf, hq.partition, ← he] at hlt
    exact absurd hlt (Nat.not_lt.mpr (hle.trans (Nat.le_add_right _ _)))

-- The watermark of a broker never goes back and never passes the end of its log, and whom the
-- leader counts as in sync has every record below the highest watermark so far.
theorem watermark_means_committed
    (r : Reaches (step setup) (Committing setup) (start setup) s) (hc : Committing setup s e)
    (hs : step setup s e = some s') :
    (∀ b, s.watermarkOf b ≤ s'.watermarkOf b ∧ s'.watermarkOf b ≤ s'.endOf b) ∧
    ∀ b ∈ counted setup s e, ∀ entry ∈ s.entries setup.assignment.leader,
      entry.1 < s.published → entry ∈ s.entries b := by
  have h : Committed setup s :=
    r.invariant (committed_start setup) fun h hc hs => (Kept.step h hc hs).2
  have ⟨ha, _⟩ := Kept.step h hc hs
  have ⟨p, hi⟩ := h.inv
  refine ⟨fun b => ⟨ha.marks b, ha.bounded b⟩, fun b hb entry hm hlt => ?_⟩
  refine hi.mem_entries hm (hlt.trans_le (h.published.trans ?_))
  rw [hi.watermarkOf_leader]
  cases e
  case serve i =>
    have ⟨_, hs, _⟩ := Option.map_eq_some_iff.mp hs
    have ⟨request, hr, part, hp, _, _, _⟩ := hi.serve_eq hs
    rw [counted, hr, Option.bind_some, hp, hi.endOf_leader] at hb
    exact Covers.le_endOf (hc.2 request hr part hp) (hi.recorded request.2 part) hb
      (h.recorded (mem_of_getElem? hr) hp b)
  case recompute =>
    rw [counted, hi.endOf_leader] at hb
    exact Covers.le_endOf hc.2 hi.leader hb (h.remote b)
  all_goals cases hb

end

local instance watermarkPlatform : Platform := .sample

theorem watermark_means_committed_one :
    ∃ s s', Reaches (step sampleSetup) (Committing sampleSetup) (start sampleSetup) s ∧
      step sampleSetup s (.serve 2) = some s' ∧ s.watermarkOf 1 ≤ s'.watermarkOf 1 ∧
      (2 ∈ counted sampleSetup s (.serve 2) ∧ s.published = 1) ∧
      ∀ entry ∈ s.entries 1, entry.1 < s.published → entry ∈ s.entries 2 := by
  obtain ⟨s, r, hc, hs, hm⟩ :
      ∃ s, Reaches (step sampleSetup) (Committing sampleSetup) (start sampleSetup) s ∧
        Committing sampleSetup s (.serve 2) ∧ (step sampleSetup s (.serve 2)).isSome ∧
        2 ∈ counted sampleSetup s (.serve 2) ∧ s.published = 1 :=
    Reaches.exists_of_run
      [.append (sampleBatch 7), .fetch 2, .serve 0, .deliver 0, .fetch 2, .serve 1, .deliver 1,
        .fetch 2]
      (by decide +kernel)
  obtain ⟨s', hs⟩ := Option.isSome_iff_exists.mp hs
  have h := watermark_means_committed r hc hs
  exact ⟨s, s', r, hs, (h.1 1).1, hm, h.2 2 hm.1⟩

def smallSetup : Setup :=
  { sampleSetup with config := fun _ => { fetchMaxBytes := 1 } }

-- A replica that comes back takes the watermark of the leader back below what was published, and
-- the first batch that a replica gets brings a watermark above its log end.
theorem watermark_goes_back : (∃ s, Reaches (step sampleSetup) anyEvent (start sampleSetup) s ∧
      (∃ s' ∈ step sampleSetup s (.serve 0), s'.watermarkOf 1 < s.watermarkOf 1) ∧
      2 ∈ counted sampleSetup s (.serve 0) ∧
      ∃ entry ∈ s.entries 1, entry.1 < s.published ∧ entry ∉ s.entries 2) ∧
    ∃ s, Reaches (step smallSetup) anyEvent (start smallSetup) s ∧ s.endOf 2 < s.watermarkOf 2 := by
  constructor
  case left =>
    exact Reaches.exists_of_run [.append (sampleBatch 7), .tick 10000, .recompute, .fetch 2]
      (by decide +kernel)
  case right =>
    exact Reaches.exists_of_run
      [.append (sampleBatch 7), .append (sampleBatch 8), .tick 10000, .recompute, .fetch 2,
        .serve 0, .deliver 0]
      (by decide +kernel)

end Replication

end LogSystem
