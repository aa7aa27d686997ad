import AppliedCs.Raft.Theorems.Applied

namespace Raft

open Transition Cluster RaftNode List

-- The calls that wait on node `i` for an index up to `k` have their entries in its log.
def Cluster.HasPending (s : Cluster) (i : NodeId) (k : ℕ) : Prop :=
  ∀ p ∈ s.pending, p.node = i → p.entry.index ≤ k →
    (s.nodes i).log[p.entry.index - 1]? = some p.entry

-- A request conflicts with nothing that was applied, and when it has the node apply an entry that
-- a call waits for, the node has the call's own entry and the request does not conflict with it.
-- When a leader may apply entries, it has those of its waiting calls.
def Cluster.AppliesOwn (s : Cluster) : Event → Prop
  | .appendEntries i req _ => (s.nodes i).Accepts req →
    Compatible (s.nodes i).log (s.nodes i).lastApplied req.entries ∧
    s.HasPending i req.leaderCommit ∧
    ∀ p ∈ s.pending, p.node = i → p.entry.index ≤ req.leaderCommit →
      Compatible (s.nodes i).log p.entry.index req.entries
  | .appendEntriesResponse r _ =>
    s.HasPending r.request.leaderId (s.nodes r.request.leaderId).lastLogIndex
  | _ => True

instance (s : Cluster) (i : NodeId) (k : ℕ) : Decidable (s.HasPending i k) :=
  inferInstanceAs <| Decidable (∀ p ∈ s.pending, _ → _ → _)

instance (s : Cluster) : (e : Event) → Decidable (s.AppliesOwn e)
  | .appendEntries i req _ => inferInstanceAs <| Decidable ((s.nodes i).Accepts req →
    _ ∧ s.HasPending i _ ∧ ∀ p ∈ s.pending, _ → _ → Compatible ..)
  | .appendEntriesResponse .. => inferInstanceAs <| Decidable (Cluster.HasPending ..)
  | .startElection .. | .requestVote .. | .requestVoteResponse .. | .replicate .. | .propose ..
  | .batchPropose .. | .poll .. | .expire .. => .isTrue trivial

-- What node `i` may become: the log keeps what was applied, and where a waiting call's index is now
-- applied, the log still has the call's own entry.
def Cluster.KeepsProposals (s : Cluster) (i : NodeId) (n : RaftNode) : Prop :=
  (s.nodes i).log.take (s.nodes i).lastApplied <+: n.log ∧
  ∀ p ∈ s.pending, p.node = i → p.entry.index ≤ n.lastApplied →
    n.log[p.entry.index - 1]? = some p.entry

theorem le_of_pollProposal (h : RaftClusterNode.pollProposal n index = some (.ok k)) :
    index ≤ n.lastApplied := by
  unfold RaftClusterNode.pollProposal at h
  split at h
  case isTrue hle => exact hle
  case isFalse => split at h <;> cases h

structure AckInv (s : Cluster) : Prop where
  contiguous : ∀ i, Contiguous 0 (s.nodes i).log
  length_le : ∀ i, (s.nodes i).lastApplied ≤ (s.nodes i).log.length
  applied_eq : ∀ i, s.applied i = recorded ((s.nodes i).log.take (s.nodes i).lastApplied)
  requests : ∀ req ∈ s.appendRequests, Contiguous req.prevLogIndex req.entries
  pending : ∀ p ∈ s.pending, 0 < p.entry.index ∧
                   (p.entry.index ≤ (s.nodes p.node).lastApplied →
                     (s.nodes p.node).log[p.entry.index - 1]? = some p.entry)
  acknowledged : ∀ p ∈ s.acknowledged, (p.entry.index, p.entry) ∈ s.applied p.node

namespace AckInv

theorem init (M : Membership) (boot : NodeId → Instant) : AckInv (.init M boot) where
  contiguous _ := .nil
  length_le _ := Nat.zero_le _
  applied_eq _ := rfl
  requests := nofun
  pending := nofun
  acknowledged := nofun

theorem setNode (h : AckInv s) (hk : s.KeepsProposals i n) (hc : Contiguous 0 n.log)
    (hle : (s.nodes i).lastApplied ≤ n.lastApplied) (hlen : n.lastApplied ≤ n.log.length) :
    AckInv (s.setNode i n) := by
  have happ : ∀ j, (s.setNode i n).applied j =
      recorded (((s.setNode i n).nodes j).log.take ((s.setNode i n).nodes j).lastApplied) := by
    intro j
    by_cases hj : j = i
    case pos =>
      subst hj
      rw [setNode_self, ← recorded_append_appliedSince hc hle hlen hk.1 (h.length_le j),
        ← h.applied_eq]
      simp [Cluster.setNode]
    case neg => simpa [Cluster.setNode, hj] using h.applied_eq j
  refine
    { h with
      contiguous := fun j => ?_
      length_le := fun j => ?_
      applied_eq := happ
      pending := fun p hp => ⟨(h.pending p hp).1, ?_⟩
      acknowledged := fun p hp => ?_ }
  · by_cases hj : j = i
    case pos => simpa [hj] using hc
    case neg => simpa [setNode_of_ne s hj] using h.contiguous j
  · by_cases hj : j = i
    case pos => simpa [hj] using hlen
    case neg => simpa [setNode_of_ne s hj] using h.length_le j
  · by_cases hj : p.node = i
    case pos => simpa [hj] using hk.2 p hp hj
    case neg => simpa [setNode_of_ne s hj] using (h.pending p hp).2
  · have hm := h.acknowledged p hp
    by_cases hj : p.node = i
    case pos => simp [Cluster.setNode, hj, hj ▸ hm]
    case neg => simpa [Cluster.setNode, hj] using hm

-- The log only grows, and nothing is applied.
theorem setNode_grow (h : AckInv s) (hp : (s.nodes i).log <+: n.log) (hc : Contiguous 0 n.log)
    (hla : n.lastApplied = (s.nodes i).lastApplied) : AckInv (s.setNode i n) := by
  refine h.setNode ⟨(List.take_prefix _ _).trans hp, fun p hm hn hle => ?_⟩ hc (le_of_eq hla.symm)
    (hla ▸ (h.length_le i).trans hp.length_le)
  subst hn
  exact hp.getElem?_some <| (h.pending p hm).2 (hla ▸ hle)

theorem setNode_quiet (h : AckInv s) (hl : n.log = (s.nodes i).log)
    (hla : n.lastApplied = (s.nodes i).lastApplied) : AckInv (s.setNode i n) :=
  h.setNode_grow (hl ▸ prefix_rfl) (hl ▸ h.contiguous i) hla

theorem appendEntries (h : AckInv s) (hr : req ∈ s.appendRequests)
    (hok : s.AppliesOwn (.appendEntries i req now)) :
    AckInv (s.setNode i ((s.nodes i).handleAppendEntries req now).1) := by
  rcases (s.nodes i).handleAppendEntries_cases req now with ⟨hq, _⟩ | ⟨hacc, heq⟩
  · exact h.setNode_quiet hq.log hq.lastApplied
  · have ⟨happ, hpend, hcomp⟩ := hok hacc
    have hq := (s.nodes i).quiet_followLeader req now
    have hc : Contiguous 0 ((s.nodes i).followLeader req now |>.withEntries req).log :=
      (hq.log ▸ h.contiguous i).foldl_appendEntry (h.requests req hr)
        (hq.log ▸ le_of_prevConflict hacc.2)
    -- Whatever the request is compatible with stays in place.
    have hkeep : ∀ {k}, Compatible (s.nodes i).log k req.entries →
        (s.nodes i).log.take k <+: ((s.nodes i).followLeader req now |>.withEntries req).log :=
      fun hk => prefix_foldl_appendEntry (hq.log ▸ take_prefix _ _) hk
    have hlen : ((s.nodes i).followLeader req now).lastApplied ≤
        ((s.nodes i).followLeader req now |>.withEntries req).log.length := by
      have := (hkeep happ).length_le
      rwa [length_take_of_le (h.length_le i), ← hq.lastApplied] at this
    have ⟨h₁, h₂⟩ := acceptEntries_lastApplied hc hlen
    rw [heq]
    refine h.setNode ⟨by simpa using hkeep happ, fun p hm hn hle => ?_⟩ (by simpa using hc)
      (hq.lastApplied ▸ h₁) h₂
    have ⟨hpos, hold⟩ := h.pending p hm
    have hget : ∀ {k}, p.entry.index ≤ k → (s.nodes i).log[p.entry.index - 1]? = some p.entry →
        ((s.nodes i).log.take k)[p.entry.index - 1]? = some p.entry := fun hk he => by
      rwa [getElem?_take_of_lt (by omega)]
    rw [acceptEntries_log]
    by_cases hla : p.entry.index ≤ (s.nodes i).lastApplied
    case pos => exact (hkeep happ).getElem?_some <| hget hla (hn ▸ hold (hn ▸ hla))
    have hlc : p.entry.index ≤ req.leaderCommit := by
      have := hle.trans <| ((s.nodes i).followLeader req now).acceptEntries_lastApplied_le req
      rw [hq.lastApplied] at this
      omega
    exact (hkeep (hcomp p hm hn hlc)).getElem?_some <| hget le_rfl (hpend p hm hn hlc)

theorem appendEntriesResponse {r : AppendReply} (h : AckInv s)
    (hok : s.HasPending i (s.nodes i).lastLogIndex) :
    AckInv (s.setNode i <| (s.nodes i).handleAppendEntriesResponse r.follower r.response
      r.request.entries.length now) := by
  rcases (s.nodes i).handleAppendEntriesResponse_cases r.follower r.response
      r.request.entries.length now with
    hq | ⟨lease, next, matched, next', hs, heq⟩ | ⟨lease, next, matched, lease', next', hs, _, heq⟩
  · exact h.setNode_quiet hq.log hq.lastApplied
  · exact h.setNode_quiet (by rw [heq]) (by rw [heq])
  · rw [heq]
    have ⟨h₁, h₂⟩ := tryAdvanceCommitIndex_lastApplied (n := { s.nodes i with
      state := .leader lease' next'
        (replaceIndex matched r.follower (s.nodes i).lastLogIndex) }) (h.length_le i)
    refine h.setNode ⟨?_, fun p hm hn hle => ?_⟩ (by simpa using h.contiguous i) h₁
      (by simpa using h₂)
    · rw [(tryAdvanceCommitIndex_rest _).2.1]
      exact take_prefix _ _
    · rw [(tryAdvanceCommitIndex_rest _).2.1]
      refine hok p hm hn ?_
      rw [lastLogIndex_eq (h.contiguous i)]
      exact hle.trans h₂

theorem step (h : AckInv s₁) (hok : s₁.AppliesOwn e) (hs : Cluster.step M s₁ e = some s₂) :
    AckInv s₂ := by
  cases e <;> simp only [Cluster.step, Option.ite_none_right_eq_some, Option.some.injEq] at hs
  case startElection i now =>
    obtain ⟨_, rfl⟩ := hs
    have h' := h.setNode_quiet (i := i) (n := (s₁.nodes i).transitionToCandidate now) rfl rfl
    exact { h' with }
  case requestVote i req now =>
    obtain ⟨_, rfl⟩ := hs
    have hq := (s₁.nodes i).quiet_handleRequestVote req now
    exact { h.setNode_quiet hq.log hq.lastApplied with }
  case requestVoteResponse r =>
    obtain ⟨_, rfl⟩ := hs
    rcases (s₁.nodes r.request.candidateId).handleRequestVoteResponse_cases r.voter r.response with
      hq | ⟨votes, _, heq⟩
    · exact h.setNode_quiet hq.log hq.lastApplied
    · rw [heq]
      refine h.setNode_grow (prefix_append _ _) ?_ rfl
      exact contiguous_transitionToLeader (h.contiguous r.request.candidateId)
  case replicate i peer =>
    obtain ⟨_, rfl⟩ := hs
    have hq := contiguous_entries (h.contiguous i) peer
    exact { h with requests := forall_mem_cons.mpr ⟨hq, h.requests⟩ }
  case appendEntries i req now =>
    obtain ⟨⟨_, hm⟩, rfl⟩ := hs
    exact { h.appendEntries hm hok with }
  case appendEntriesResponse r now =>
    obtain ⟨_, rfl⟩ := hs
    exact h.appendEntriesResponse hok
  case propose i command =>
    have ⟨_, hs⟩ := hs
    split at hs
    case h_2 => exact Option.some.inj hs ▸ h
    case h_1 n _ hp =>
      cases hs
      have hc := contiguous_propose hp (h.contiguous i)
      have ⟨_, _, hn⟩ := of_propose_ok hp
      have h' := h.setNode_grow (by rw [hn]; exact prefix_append _ _) hc (by rw [hn])
      refine { h' with pending := forall_mem_append.mpr ⟨?_, h'.pending⟩ }
      simp [hn, lastLogIndex_eq (h.contiguous i)]
  case batchPropose i commands =>
    have ⟨_, hs⟩ := hs
    split at hs
    case h_2 => exact Option.some.inj hs ▸ h
    case h_1 n _ hp =>
      cases hs
      have hc := contiguous_batchPropose hp (h.contiguous i)
      have ⟨_, hn⟩ := of_batchPropose_ok hp
      exact h.setNode_grow (by rw [hn]; exact prefix_append _ _) hc (by rw [hn])
  case poll p =>
    have ⟨hm, hs⟩ := hs
    have herase : ∀ q ∈ s₁.pending.erase p, _ := fun q hq => h.pending q (mem_of_mem_erase hq)
    split at hs <;> cases hs
    case h_1 hpoll =>
      refine { h with pending := herase, acknowledged := forall_mem_cons.mpr ⟨?_, h.acknowledged⟩ }
      have ⟨hpos, he⟩ := h.pending p hm
      have hle := le_of_pollProposal hpoll
      rw [h.applied_eq, mem_recorded]
      refine ⟨mem_of_getElem? (i := p.entry.index - 1) ?_, rfl⟩
      rw [getElem?_take_of_lt (by omega), he hle]
    case h_2 => exact { h with pending := herase }
    case h_3 => exact h
  case expire p =>
    obtain ⟨_, rfl⟩ := hs
    exact { h with pending := fun q hq => h.pending q (mem_of_mem_erase hq) }

end AckInv

-- A call of `propose` that returned `Ok` had its own entry applied, and no other at its index.
theorem acknowledged_applied {boot : NodeId → Instant} {p : Proposal}
    (r : Reaches (step M) AppliesOwn (Cluster.init M boot) s) (hp : p ∈ s.acknowledged) :
    (p.entry.index, p.entry) ∈ s.applied p.node ∧
    ∀ e, (p.entry.index, e) ∈ s.applied p.node → e = p.entry := by
  have h := r.invariant (AckInv.init M boot) fun h ho hs => h.step ho hs
  have hm := h.acknowledged p hp
  refine ⟨hm, fun e he => ?_⟩
  rw [h.applied_eq] at hm he
  have hc := (h.contiguous p.node).of_isPrefix (List.take_prefix (s.nodes p.node).lastApplied _)
  exact Option.some.inj <| (getElem?_of_recorded hc he).symm.trans (getElem?_of_recorded hc hm)

-- Node 1 proposes a command, replicates it to node 2 and applies it.
def acknowledgedRun : List Event :=
  let command : LogEntry := ⟨1, 2, .put [1] [1], .command⟩
  let offer : AppendEntriesRequest := ⟨1, 1, 0, 0, [⟨1, 1, .noOp, .noOp⟩, command], 0⟩
  [.startElection 1 0, .requestVote 3 ⟨1, 1, 0, 0⟩ 0,
    .requestVoteResponse ⟨3, ⟨1, 1, 0, 0⟩, ⟨1, true⟩⟩, .propose 1 (.put [1] [1]),
    .replicate 1 2, .appendEntries 2 offer 1,
    .appendEntriesResponse ⟨2, offer, ⟨1, true, none, none⟩⟩ 1, .poll ⟨1, command⟩]

theorem acknowledged_applied_after_commit :
    ∃ s, Reaches (step threeNodes) AppliesOwn (Cluster.init threeNodes fun _ => 0) s ∧
      ⟨1, 1, 2, .put [1] [1], .command⟩ ∈ s.acknowledged ∧
      (2, ⟨1, 2, .put [1] [1], .command⟩) ∈ s.applied 1 ∧
      ∀ e, (2, e) ∈ s.applied 1 → e = ⟨1, 2, .put [1] [1], .command⟩ := by
  have ⟨s, r, h⟩ :
      ∃ s, Reaches (step threeNodes) AppliesOwn (Cluster.init threeNodes fun _ => 0) s ∧
        ⟨1, 1, 2, .put [1] [1], .command⟩ ∈ s.acknowledged :=
    Reaches.exists_of_run acknowledgedRun (by decide +kernel)
  exact ⟨s, r, h, acknowledged_applied r h⟩

-- Node 1 proposes a command at index 2 and loses its leadership before any other node has it. The
-- new leader, node 2, commits another command at index 2, which node 1 stores and applies. The
-- call that waits on node 1 finds index 2 applied and returns `Ok`.
def falseAckRun : List Event :=
  let own : LogEntry := ⟨1, 2, .put [1] [1], .command⟩
  let other : LogEntry := ⟨2, 2, .put [2] [2], .command⟩
  let offer : AppendEntriesRequest := ⟨2, 2, 0, 0, [⟨2, 1, .noOp, .noOp⟩, other], 0⟩
  [.startElection 1 0, .requestVote 3 ⟨1, 1, 0, 0⟩ 0,
    .requestVoteResponse ⟨3, ⟨1, 1, 0, 0⟩, ⟨1, true⟩⟩, .propose 1 (.put [1] [1]),
    .startElection 2 1, .startElection 2 2, .requestVote 3 ⟨2, 2, 0, 0⟩ 2,
    .requestVoteResponse ⟨3, ⟨2, 2, 0, 0⟩, ⟨2, true⟩⟩, .propose 2 (.put [2] [2]),
    .replicate 2 1, .appendEntries 1 offer 3,
    .appendEntriesResponse ⟨1, offer, ⟨2, true, none, none⟩⟩ 3,
    .replicate 2 1, .appendEntries 1 ⟨2, 2, 2, 2, [], 2⟩ 4, .poll ⟨1, own⟩]

theorem acknowledged_other_applied :
    ∃ s, Reaches (step threeNodes) anyEvent (Cluster.init threeNodes fun _ => 0) s ∧
      ⟨1, 1, 2, .put [1] [1], .command⟩ ∈ s.acknowledged ∧
      (2, ⟨2, 2, .put [2] [2], .command⟩) ∈ s.applied 1 ∧
      (2, ⟨1, 2, .put [1] [1], .command⟩) ∉ s.applied 1 :=
  Reaches.exists_of_run falseAckRun (by decide +kernel)

end Raft
