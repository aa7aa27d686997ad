import AppliedCs.Lib.Transition
import AppliedCs.LogSystem.Replication
import AppliedCs.LogSystem.Theorems.Log

namespace LogSystem

open Transition List Option

-- The batches with the offsets of their records.
def RecordBatch.entries (b : RecordBatch) : List (ℕ × Record) :=
  b.records.zipIdx.map fun (record, i) => (b.baseOffset + i, record)

namespace Partition

variable [Platform] {p : Partition}

theorem Sound.logEndOffset_eq (h : p.Sound) : p.logEndOffset = endOffset 0 p.batches :=
  have ⟨_, _, h⟩ := h
  h.logEndOffset_eq

theorem Sound.consecutive (h : p.Sound) : Consecutive 0 p.batches :=
  have ⟨_, _, h⟩ := h
  h.consecutive

theorem Sound.withHighWatermark (h : p.Sound) (hw) : { p with highWatermark := hw }.Sound :=
  have ⟨older, segment, h⟩ := h
  ⟨older, segment, h.segments, h.older, h.stores, h.active, h.logEnd⟩

theorem Sound.fits (h : p.Sound) : ∀ b ∈ p.batches, b.Fits := by
  have ⟨_, _, h⟩ := h
  exact h.chained.fits

-- Batches that begin where the log ends keep their offsets.
theorem Sound.appendAll (h : p.Sound) (hc : Consecutive p.logEndOffset bs) (hf : ∀ b ∈ bs, b.Fits) :
    ∃ p', ReplicaManager.appendAll bs p = (.ok (), p') ∧ p'.Sound ∧
      p'.batches = p.batches ++ bs ∧ p'.highWatermark = p.highWatermark := by
  induction bs generalizing p
  case nil => exact ⟨p, rfl, h, (append_nil _).symm, rfl⟩
  case cons b bs hi =>
    have ⟨hb, hc⟩ := hc
    have heq : { b with baseOffset := p.logEndOffset } = b := by rw [← hb]
    have ⟨p₁, ha, hs, hbs, hw, _⟩ := h.append (heq ▸ hf b mem_cons_self)
    rw [heq] at hbs
    have hend : p₁.logEndOffset = p.logEndOffset + b.size := by
      rw [hs.logEndOffset_eq, hbs, endOffset_append, ← h.logEndOffset_eq]
      rfl
    have ⟨p₂, ha₂, hs₂, hbs₂, hw₂⟩ := hi hs (hend ▸ hc) fun b' hb' =>
      hf b' (mem_cons_of_mem b hb')
    refine ⟨p₂, ?_, hs₂, ?_, hw₂.trans hw⟩
    · rw [ReplicaManager.appendAll, ha]
      exact ha₂
    · rw [hbs₂, hbs, append_assoc]
      rfl

end Partition

namespace ReplicaManager

variable [Platform] {m : ReplicaManager}

-- A manager that leads the partition.
structure Leads (m : ReplicaManager) (a : PartitionAssignment) (p : Partition) : Prop where
  broker : m.brokerId = a.leader
  leader : m.isLeader
  follower : m.follower = none
  assignment : m.assignment = some a
  partition : m.partition = some p
  sound : p.Sound
  indexed : p.Indexed

-- A manager that follows, and asks for what comes behind its log.
structure Follows (m : ReplicaManager) (a : PartitionAssignment) (b : BrokerId) (q : Partition) :
    Prop where
  broker : m.brokerId = b
  leader : m.isLeader = false
  partition : m.partition = some q
  sound : q.Sound
  state : ∃ state, m.follower = some state ∧
    state.fetchOffset = q.logEndOffset ∧ state.leaderId = a.leader

def watermark (m : ReplicaManager) (now : ℕ) (a : PartitionAssignment) (p : Partition) : ℕ :=
  m.minOffset (m.inSyncReplicas now a p.logEndOffset) p.logEndOffset

def recomputed (m : ReplicaManager) (now : ℕ) (a : PartitionAssignment) (p : Partition) :
    ReplicaManager :=
  { m with partition := some { p with highWatermark := m.watermark now a p } }

section

variable (h : m.Leads a p)

include h

theorem Leads.maybeUpdateIsrAndHw (now) :
    ∃ changed, m.maybeUpdateIsrAndHw now = .ok (changed, m.recomputed now a p) := by
  rw [ReplicaManager.maybeUpdateIsrAndHw, ReplicaManager.recomputed, h.leader, h.assignment]
  simp only [Bool.not_true, Bool.false_eq_true, if_false, getPartition, h.partition]
  exact ⟨_, rfl⟩

theorem Leads.recomputed (now) :
    (m.recomputed now a p).Leads a { p with highWatermark := m.watermark now a p } :=
  ⟨h.broker, h.leader, h.follower, h.assignment, rfl, h.sound.withHighWatermark _, h.indexed⟩

theorem Leads.recordFetch (now replicaId fetchOffset) :
    (m.recordFetch now replicaId fetchOffset).Leads a p := by
  unfold ReplicaManager.recordFetch
  split
  · exact h
  · exact ⟨h.broker, h.leader, h.follower, h.assignment, h.partition, h.sound, h.indexed⟩

theorem Leads.handleReplicaFetch (now replicaId fetchOffset) :
    ∃ batches, batches <+: p.batches.filter (fetchOffset ≤ ·.baseOffset) ∧
      m.handleReplicaFetch now replicaId fetchOffset = (.ok (batches, p.highWatermark),
        (m.recordFetch now replicaId fetchOffset).recomputed now a p) := by
  have hr := h.recordFetch now replicaId fetchOffset
  have ⟨changed, hu⟩ := hr.maybeUpdateIsrAndHw now
  have ⟨batches, hread, hpre⟩ := h.sound.read h.indexed fetchOffset
    (m.recordFetch now replicaId fetchOffset).config.fetchMaxBytes
  refine ⟨batches, hpre, ?_⟩
  simp only [ReplicaManager.handleReplicaFetch, h.leader, Bool.not_true, Bool.false_eq_true,
    if_false, ReplicaManager.read, getPartition, hr.partition]
  simp only [bind, Except.bind, hread, pure, Except.pure, hu]

theorem Leads.appendToLeader (hb : { b with baseOffset := p.logEndOffset }.Fits) (hr : p.Room) :
    ∃ p', m.appendToLeader b = .ok (p.logEndOffset, { m with partition := some p' }) ∧
      { m with partition := some p' }.Leads a p' ∧ p'.highWatermark = p.highWatermark ∧
      p'.batches = p.batches ++ [{ b with baseOffset := p.logEndOffset }] := by
  have ⟨p', ha, hs, hbs, hw, hi⟩ := h.sound.append hb
  refine ⟨p', ?_, ⟨h.broker, h.leader, h.follower, h.assignment, rfl, hs, hi h.indexed hr⟩, hw, hbs⟩
  simp only [ReplicaManager.appendToLeader, h.leader, Bool.not_true, Bool.false_eq_true, if_false,
    getPartition, h.partition]
  simp only [bind, Except.bind, ha]
  rfl

end

-- A change to what a follower says about its fetches.
def KeepsTarget (f : ReplicaState → ReplicaState) : Prop :=
  ∀ state, (f state).fetchOffset = state.fetchOffset ∧ (f state).leaderId = state.leaderId

variable (h : m.Follows a b q)

include h

theorem Follows.withState (hf : KeepsTarget f) :
    { m with follower := m.follower.map f }.Follows a b q := by
  have ⟨state, hs, ho, hl⟩ := h.state
  refine ⟨h.broker, h.leader, h.partition, h.sound, f state, by rw [hs]; rfl, ?_, ?_⟩
  · exact (hf state).1.trans ho
  · exact (hf state).2.trans hl

theorem Follows.updateHighWatermark (hw) :
    ∃ m' q', m.updateHighWatermark hw = .ok m' ∧ m'.Follows a b q' ∧ q'.batches = q.batches ∧
      q'.highWatermark = max q.highWatermark hw := by
  have ⟨state, hs, ho, hl⟩ := h.state
  have hq : q.updateHighWatermark hw = { q with highWatermark := max q.highWatermark hw } := by
    rw [Partition.updateHighWatermark]
    split
    case isTrue hlt => rw [max_eq_right hlt.le]
    case isFalse hle => rw [max_eq_left (not_lt.mp hle)]
  refine ⟨{ m with
      partition := some { q with highWatermark := max q.highWatermark hw }
      follower := some { state with highWatermark := hw } },
    { q with highWatermark := max q.highWatermark hw }, ?_,
    ⟨h.broker, h.leader, rfl, h.sound.withHighWatermark _, _, rfl, ho, hl⟩, rfl, rfl⟩
  simp only [ReplicaManager.updateHighWatermark, getPartition, h.partition, bind, Except.bind, hq,
    hs]
  rfl

theorem Follows.appendAsFollower (now) (hc : Consecutive q.logEndOffset batches)
    (hf : ∀ b ∈ batches, b.Fits) :
    ∃ m' q', m.appendAsFollower now batches = (.ok (), m') ∧ m'.Follows a b q' ∧
      q'.batches = q.batches ++ batches ∧ q'.highWatermark = q.highWatermark := by
  have ⟨state, hs, ho, hl⟩ := h.state
  have ⟨q', ha, hq, hbs, hw⟩ := h.sound.appendAll hc hf
  refine ⟨{ m with
      partition := some q'
      follower := some { state with
        logEndOffset := q'.logEndOffset, fetchOffset := q'.logEndOffset, lastFetchTime := now } },
    q', ?_, ⟨h.broker, h.leader, rfl, hq, _, rfl, rfl, hl⟩, hbs, hw⟩
  simp only [ReplicaManager.appendAsFollower, isFollower, hs, isSome_some, Bool.not_true,
    Bool.false_eq_true, if_false, getPartition, h.partition, ha]
  rfl

theorem Follows.processFetchResponse (now) (he : response.errorCode = 0)
    (hc : Consecutive q.logEndOffset response.recordBatches)
    (hf : ∀ b ∈ response.recordBatches, b.Fits) :
    ∃ q', (m.processFetchResponse now response).2.Follows a b q' ∧
      q'.batches = q.batches ++ response.recordBatches ∧
      q'.highWatermark = max q.highWatermark response.highWatermark := by
  have ⟨m₁, q₁, ha, h₁, hbs₁, hw₁⟩ : ∃ m' q', (if response.recordBatches.isEmpty then (.ok (), m)
      else m.appendAsFollower now response.recordBatches) = (.ok (), m') ∧ m'.Follows a b q' ∧
      q'.batches = q.batches ++ response.recordBatches ∧ q'.highWatermark = q.highWatermark := by
    split
    case isTrue hn =>
      exact ⟨m, q, rfl, h, by rw [List.isEmpty_iff.mp hn, append_nil], rfl⟩
    case isFalse => exact h.appendAsFollower now hc hf
  have ⟨m₂, q₂, hu, h₂, hbs₂, hw₂⟩ := h₁.updateHighWatermark response.highWatermark
  refine ⟨q₂, ?_, hbs₂.trans hbs₁, hw₁ ▸ hw₂⟩
  simp only [ReplicaManager.processFetchResponse, he, ne_eq, not_true_eq_false, if_false, ha, hu]
  exact h₂.withState fun _ => ⟨rfl, rfl⟩

end ReplicaManager

-- A response with the request it answers.
structure Reply where
  replicaId : BrokerId
  fetchOffset : ℕ
  response : FetchPartitionResponse

-- The brokers of a partition and everything that has been sent between them. A request or response
-- stays where it is when it is handled: it may be handled late, again, or never.
structure Replication where
  brokers : BrokerId → ReplicaManager
  clock : ℕ
  requests : List (BrokerId × FetchRequest) := []
  replies : List Reply := []
  -- The highest watermark that the leader has had.
  published : ℕ := 0

namespace Replication

open ReplicaManager

structure Setup where
  tp : TopicPartition
  assignment : PartitionAssignment
  config : BrokerId → ReplicationConfig
  segmentConfig : BrokerId → SegmentConfig
  clock : ℕ

variable (setup : Setup)

def Setup.manager (b : BrokerId) : ReplicaManager where
  brokerId := b
  config := setup.config b
  segmentConfig := setup.segmentConfig b
  tp := setup.tp

def start : Replication where
  brokers b :=
    if b = setup.assignment.leader then
      (setup.manager b).becomeLeader setup.clock setup.assignment
    else
      ((setup.manager b).becomeFollower setup.clock setup.assignment).getD (setup.manager b)
  clock := setup.clock

inductive Event
  | append (batch : RecordBatch)
  | fetch (broker : BrokerId)
  | serve (request : ℕ)
  | deliver (reply : ℕ)
  | fail (broker : BrokerId)
  | recompute
  | tick (milliseconds : ℕ)

def setBroker (s : Replication) (b : BrokerId) (m : ReplicaManager) : Replication :=
  { s with brokers := Function.update s.brokers b m }

-- The watermark of the leader after a step is published.
def publish (leader : BrokerId) (s : Replication) : Replication :=
  let highWatermark := ((s.brokers leader).partition.map (·.highWatermark)).getD 0
  { s with published := max s.published highWatermark }

variable [Platform]

def replyTo (request : FetchRequest) (part : FetchPartition) (batches : List RecordBatch)
    (highWatermark : ℕ) : Reply where
  replicaId := request.replicaId.toUInt32
  fetchOffset := part.fetchOffset
  response := {
    topic := part.topic, partition := part.partition, errorCode := 0, highWatermark,
    recordBatches := batches }

def serve (s : Replication) (leaderId : BrokerId) (request : FetchRequest) (part : FetchPartition) :
    Replication :=
  let replicaId := request.replicaId.toUInt32
  match (s.brokers leaderId).handleReplicaFetch s.clock replicaId part.fetchOffset with
  | (.error _, m) => s.setBroker leaderId m
  | (.ok (batches, highWatermark), m) =>
    { s.setBroker leaderId m with
      replies := s.replies ++ [replyTo request part batches highWatermark] }

def perform (leader : BrokerId) (s : Replication) : Event → Option Replication
  | .append batch =>
    match (s.brokers leader).appendToLeader batch with
    | .error _ => some s
    | .ok (_, m) => some (s.setBroker leader m)
  | .fetch b =>
    match (s.brokers b).buildFetchRequest with
    | (none, m) => some (s.setBroker b m)
    | (some request, m) => some { s.setBroker b m with requests := s.requests ++ [request] }
  | .serve i => do
    let (leaderId, request) ← s.requests[i]?
    let part ← request.partitions.head?
    return s.serve leaderId request part
  | .deliver i => do
    let reply ← s.replies[i]?
    let m := ((s.brokers reply.replicaId).processFetchResponse s.clock reply.response).2
    return s.setBroker reply.replicaId m
  | .fail b => some (s.setBroker b (s.brokers b).recordFetchFailure)
  | .recompute =>
    match (s.brokers leader).maybeUpdateIsrAndHw s.clock with
    | .error _ => some s
    | .ok (_, m) => some (s.setBroker leader m)
  | .tick ms => some { s with clock := s.clock + ms }

def step (s : Replication) (e : Event) : Option Replication :=
  (s.perform setup.assignment.leader e).map (publish setup.assignment.leader)

def log (s : Replication) (b : BrokerId) : List RecordBatch :=
  ((s.brokers b).partition.map (·.batches)).getD []

def entries (s : Replication) (b : BrokerId) : List (ℕ × Record) :=
  (s.log b).flatMap (·.entries)

-- Batches are small enough for the format and the index, and a follower takes a response that has
-- batches only if it asked for it with its current log end.
def InOrder (s : Replication) : Event → Prop
  | .append batch =>
    ∀ p ∈ (s.brokers setup.assignment.leader).partition,
      { batch with baseOffset := p.logEndOffset }.Fits ∧ p.Room
  | .deliver i =>
    ∀ reply ∈ s.replies[i]?, reply.response.recordBatches ≠ [] →
      ∀ q ∈ (s.brokers reply.replicaId).partition, reply.fetchOffset = q.logEndOffset
  | _ => True

instance : ∀ s e, Decidable (InOrder setup s e)
  | _, .append _ | _, .deliver _ => inferInstanceAs <| Decidable (∀ _ ∈ _, _)
  | _, .fetch _ | _, .serve _ | _, .fail _ | _, .recompute | _, .tick _ => .isTrue trivial

structure Inv (s : Replication) (p : Partition) : Prop where
  leader : (s.brokers setup.assignment.leader).Leads setup.assignment p
  followers : ∀ b ≠ setup.assignment.leader,
    ∃ q, (s.brokers b).Follows setup.assignment b q ∧ q.batches <+: p.batches
  requests : ∀ r ∈ s.requests, r.1 = setup.assignment.leader ∧
    r.2.replicaId.toUInt32 ≠ setup.assignment.leader
  replies : ∀ r ∈ s.replies, r.replicaId ≠ setup.assignment.leader ∧ r.response.errorCode = 0 ∧
    r.response.recordBatches <+: p.batches.filter (r.fetchOffset ≤ ·.baseOffset)

variable {setup} {s : Replication}

omit [Platform] in
@[simp] theorem setBroker_self : (s.setBroker b m).brokers b = m :=
  Function.update_self ..

omit [Platform] in
theorem setBroker_of_ne (h : b' ≠ b) : (s.setBroker b m).brokers b' = s.brokers b' :=
  Function.update_of_ne h ..

theorem Inv.setLeader (h : Inv setup s p)
    (hm : m.Leads setup.assignment p') (hp : p.batches <+: p'.batches) :
    Inv setup (s.setBroker setup.assignment.leader m) p' where
  leader := setBroker_self.symm ▸ hm
  followers b hb := by
    rw [setBroker_of_ne hb]
    have ⟨q, hq, hpre⟩ := h.followers b hb
    exact ⟨q, hq, hpre.trans hp⟩
  requests := h.requests
  replies r hr := by
    have ⟨hne, he, hpre⟩ := h.replies r hr
    exact ⟨hne, he, hpre.trans (hp.filter _)⟩

theorem Inv.setFollower (h : Inv setup s p) (hb : b ≠ setup.assignment.leader)
    (hm : m.Follows setup.assignment b q) (hq : q.batches <+: p.batches) :
    Inv setup (s.setBroker b m) p where
  leader := by
    rw [setBroker_of_ne hb.symm]
    exact h.leader
  followers b' hb' := by
    by_cases he : b' = b
    case pos =>
      subst he
      exact ⟨q, setBroker_self.symm ▸ hm, hq⟩
    case neg =>
      rw [setBroker_of_ne he]
      exact h.followers b' hb'
  requests := h.requests
  replies := h.replies

-- The manager of any broker may be replaced by one that differs in what it says about its fetches.
theorem Inv.setState (h : Inv setup s p) (b) (hf : KeepsTarget f) :
    Inv setup (s.setBroker b { s.brokers b with follower := (s.brokers b).follower.map f }) p := by
  by_cases hb : b = setup.assignment.leader
  case pos =>
    subst hb
    have hl := h.leader
    rw [hl.follower]
    exact h.setLeader ⟨hl.broker, hl.leader, rfl, hl.assignment, hl.partition, hl.sound, hl.indexed⟩
      (prefix_refl _)
  case neg =>
    have ⟨q, hq, hpre⟩ := h.followers b hb
    exact h.setFollower hb (hq.withState hf) hpre

theorem Inv.fetch_eq (h : Inv setup s p)
    (hs : s.perform setup.assignment.leader (.fetch b) = some s') : ∃ f, KeepsTarget f ∧
      ∃ requests : List (BrokerId × FetchRequest),
        s' = { s.setBroker b { s.brokers b with follower := (s.brokers b).follower.map f } with
          requests := s.requests ++ requests } ∧
        ∀ r ∈ requests, b ≠ setup.assignment.leader ∧ r.1 = setup.assignment.leader ∧
          r.2.replicaId.toUInt32 = b ∧ ∀ q, (s.brokers b).Follows setup.assignment b q →
            ∀ part ∈ r.2.partitions.head?, part.fetchOffset = q.logEndOffset := by
  have hid : { s.brokers b with follower := (s.brokers b).follower.map id } = s.brokers b := by
    rw [Option.map_id_fun]
    rfl
  by_cases hb : b = setup.assignment.leader
  case pos =>
    refine ⟨id, fun _ => ⟨rfl, rfl⟩, [], ?_, nofun⟩
    rw [Replication.perform, buildFetchRequest, hb, h.leader.follower] at hs
    rw [hid, hb, append_nil]
    exact (some.inj hs).symm
  have ⟨q, hq, _⟩ := h.followers b hb
  have ⟨state, hst, ho, hl⟩ := hq.state
  rw [Replication.perform, buildFetchRequest, hst] at hs
  by_cases hf : state.isFetching
  case pos =>
    refine ⟨id, fun _ => ⟨rfl, rfl⟩, [], ?_, nofun⟩
    simp only [hf, if_true, some.injEq] at hs
    rw [hid, append_nil, ← hs]
    rfl
  simp only [hf, Bool.false_eq_true, if_false, some.injEq] at hs
  refine ⟨fun state => { state with isFetching := true }, fun _ => ⟨rfl, rfl⟩, _, hs.symm, ?_⟩
  intro r hr
  cases mem_singleton.mp hr
  refine ⟨hb, hl, ?_, fun q' hq' part hp => ?_⟩
  · rw [hq.broker]
    exact UInt32.toUInt32_toInt32 b
  · cases hp
    cases hq.partition.symm.trans hq'.partition
    exact ho

-- The leader with the fetch of a replica written down.
def recorded (s : Replication) (setup : Setup) (request : FetchRequest) (part : FetchPartition) :
    ReplicaManager :=
  (s.brokers setup.assignment.leader).recordFetch s.clock request.replicaId.toUInt32
    part.fetchOffset

theorem Inv.recorded (h : Inv setup s p) (request part) :
    (s.recorded setup request part).Leads setup.assignment p :=
  h.leader.recordFetch ..

theorem Inv.serve_eq (h : Inv setup s p)
    (hs : s.perform setup.assignment.leader (.serve i) = some s') :
    ∃ request ∈ s.requests[i]?, ∃ part ∈ request.2.partitions.head?, ∃ batches,
      batches <+: p.batches.filter (part.fetchOffset ≤ ·.baseOffset) ∧
      s' = { s.setBroker setup.assignment.leader
          ((s.recorded setup request.2 part).recomputed s.clock setup.assignment p) with
        replies := s.replies ++ [replyTo request.2 part batches p.highWatermark] } := by
  have ⟨request, hr, hs⟩ := bind_eq_some_iff.mp hs
  have ⟨part, hp, hs⟩ := bind_eq_some_iff.mp hs
  have hm := mem_of_getElem? hr
  have ⟨batches, hpre, hf⟩ := h.leader.handleReplicaFetch s.clock request.2.replicaId.toUInt32
    part.fetchOffset
  refine ⟨request, hr, part, hp, batches, hpre, ?_⟩
  cases hs
  simp only [Replication.serve, (h.requests request hm).1, hf]
  rfl

theorem Inv.deliver_eq (h : Inv setup s p) (ho : InOrder setup s (.deliver i))
    (hs : s.perform setup.assignment.leader (.deliver i) = some s') :
    ∃ reply ∈ s.replies[i]?, ∃ m q q', s' = s.setBroker reply.replicaId m ∧
      (s.brokers reply.replicaId).Follows setup.assignment reply.replicaId q ∧
      m.Follows setup.assignment reply.replicaId q' ∧
      q'.batches = q.batches ++ reply.response.recordBatches ∧ q'.batches <+: p.batches ∧
      q'.highWatermark = max q.highWatermark reply.response.highWatermark := by
  have ⟨reply, hr, hs⟩ := bind_eq_some_iff.mp hs
  have hm := mem_of_getElem? hr
  have ⟨hne, he, hpre⟩ := h.replies reply hm
  have ⟨q, hq, hqp⟩ := h.followers _ hne
  cases hs
  have ⟨rest, hrest⟩ := hqp
  have hcons := h.leader.sound.consecutive
  have hin : reply.response.recordBatches <+: rest := by
    by_cases hn : reply.response.recordBatches = []
    case pos => exact hn ▸ nil_prefix
    case neg =>
      rw [ho reply hr hn q hq.partition, hq.sound.logEndOffset_eq, ← hrest,
        Consecutive.filter_append (hrest ▸ hcons)] at hpre
      exact hpre
  have ⟨rest', hrest'⟩ := hin
  subst hrest'
  rw [← hrest, ← append_assoc] at hcons
  have hc := (Consecutive.append_iff.mp (Consecutive.append_iff.mp hcons).1).2
  have hfit : ∀ b ∈ reply.response.recordBatches, b.Fits := fun b hb =>
    h.leader.sound.fits b (hrest ▸ by simp [hb])
  have ⟨q', hq', hbs, hw⟩ := hq.processFetchResponse s.clock he (hq.sound.logEndOffset_eq ▸ hc) hfit
  refine ⟨reply, hr, _, q, q', rfl, hq, hq', hbs, ?_, hw⟩
  rw [hbs, ← hrest, ← append_assoc]
  exact prefix_append _ _

theorem Inv.perform (h : Inv setup s p) (ho : InOrder setup s e)
    (hs : s.perform setup.assignment.leader e = some s') : ∃ p', Inv setup s' p' := by
  cases e
  case append batch =>
    have ⟨hb, hr⟩ := ho p h.leader.partition
    have ⟨p', ha, hl, _, hbs⟩ := h.leader.appendToLeader hb hr
    rw [Replication.perform, ha] at hs
    cases hs
    exact ⟨p', h.setLeader hl (hbs ▸ prefix_append _ _)⟩
  case fetch b =>
    have ⟨f, hf, requests, hs, hr⟩ := h.fetch_eq hs
    have hi := h.setState b hf
    refine ⟨p, hs ▸ ⟨hi.leader, hi.followers, ?_, hi.replies⟩⟩
    exact forall_mem_append.mpr ⟨h.requests, fun r hm => by
      have ⟨hb, hl, hid, _⟩ := hr r hm
      exact ⟨hl, hid ▸ hb⟩⟩
  case serve i =>
    have ⟨request, hr, part, _, batches, hpre, hs⟩ := h.serve_eq hs
    have hi := h.setLeader ((h.recorded request.2 part).recomputed s.clock) (prefix_refl _)
    subst hs
    refine ⟨_, hi.leader, hi.followers, hi.requests, ?_⟩
    refine forall_mem_append.mpr ⟨hi.replies, forall_mem_singleton.mpr ?_⟩
    exact ⟨(h.requests request (mem_of_getElem? hr)).2, rfl, hpre⟩
  case deliver i =>
    have ⟨reply, hr, m, q, q', hs, hq, hq', _, hpre, _⟩ := h.deliver_eq ho hs
    exact ⟨p, hs ▸ h.setFollower (h.replies reply (mem_of_getElem? hr)).1 hq' hpre⟩
  case fail b =>
    cases hs
    exact ⟨p, h.setState b fun _ => ⟨rfl, rfl⟩⟩
  case recompute =>
    have ⟨changed, hu⟩ := h.leader.maybeUpdateIsrAndHw s.clock
    rw [Replication.perform, hu] at hs
    cases hs
    exact ⟨_, h.setLeader (h.leader.recomputed s.clock) (prefix_refl _)⟩
  case tick =>
    cases hs
    exact ⟨p, h.leader, h.followers, h.requests, h.replies⟩

theorem Inv.step (h : ∃ p, Inv setup s p) (ho : InOrder setup s e) (hs : step setup s e = some s') :
    ∃ p', Inv setup s' p' := by
  have ⟨p, h⟩ := h
  have ⟨s₁, hs₁, heq⟩ := map_eq_some_iff.mp hs
  have ⟨p', h'⟩ := h.perform ho hs₁
  exact ⟨p', heq ▸ ⟨h'.leader, h'.followers, h'.requests, h'.replies⟩⟩

theorem inv_start (setup : Setup) : ∃ p, Inv setup (start setup) p := by
  refine ⟨.new setup.tp.topic setup.tp.partition (setup.segmentConfig setup.assignment.leader),
    ?_, fun b hb => ?_, nofun, nofun⟩
  · simp only [start, if_true]
    exact ⟨rfl, rfl, rfl, rfl, rfl, Partition.sound_new .., Partition.indexed_new _ _ _⟩
  · refine ⟨.new setup.tp.topic setup.tp.partition (setup.segmentConfig b), ?_, ?_⟩
    · simp only [start, if_neg hb]
      exact ⟨rfl, rfl, rfl, Partition.sound_new .., _, rfl, rfl, rfl⟩
    · exact prefix_refl []

theorem Inv.log_leader (h : Inv setup s p) : s.log setup.assignment.leader = p.batches := by
  rw [log, h.leader.partition]
  rfl

-- At all times a follower has a beginning of what the leader has.
theorem follower_has_beginning (r : Reaches (step setup) (InOrder setup) (start setup) s)
    (b : BrokerId) : s.entries b <+: s.entries setup.assignment.leader := by
  have ⟨p, h⟩ := r.invariant (P := fun s => ∃ p, Inv setup s p) (inv_start setup) Inv.step
  by_cases hb : b = setup.assignment.leader
  case pos => exact hb ▸ prefix_refl _
  case neg =>
    have ⟨q, hq, rest, hr⟩ := h.followers b hb
    rw [entries, entries, log, hq.partition, h.log_leader, ← hr, flatMap_append]
    exact prefix_append _ _

end Replication

abbrev Platform.sample : Platform where
  crc32 := Codec.crc32
  partitionPoint l := (l.takeWhile id).length
  partitionPoint_cut n m := by simp

local instance replicationPlatform : Platform := .sample

namespace Replication

def sampleSetup : Setup where
  tp := ⟨"orders", 0⟩
  assignment := { leader := 1, replicas := [1, 2], isr := [1, 2], leaderEpoch := 0 }
  config _ := {}
  segmentConfig _ := {}
  clock := 0

def sampleBatch (value : UInt8) : RecordBatch :=
  .new 0 0 [{
    attributes := 0, timestampDelta := 0, offsetDelta := 0, key := none, value := some [value],
    headers := [] }]

theorem follower_has_beginning_one :
    ∃ s, Reaches (step sampleSetup) (InOrder sampleSetup) (start sampleSetup) s ∧
      (s.entries 2).length = 1 ∧ s.entries 2 <+: s.entries 1 := by
  obtain ⟨s, r, hl⟩ : ∃ s, Reaches (step sampleSetup) (InOrder sampleSetup) (start sampleSetup) s ∧
      (s.entries 2).length = 1 :=
    Reaches.exists_of_run [.append (sampleBatch 7), .fetch 2, .serve 0, .deliver 0]
      (by decide +kernel)
  exact ⟨s, r, hl, follower_has_beginning r 2⟩

-- A response that is processed twice is appended twice.
theorem follower_has_more : ∃ s, Reaches (step sampleSetup) anyEvent (start sampleSetup) s ∧
      ¬s.entries 2 <+: s.entries 1 :=
  Reaches.exists_of_run [.append (sampleBatch 7), .fetch 2, .serve 0, .deliver 0, .deliver 0]
    (by decide +kernel)

end Replication

end LogSystem
