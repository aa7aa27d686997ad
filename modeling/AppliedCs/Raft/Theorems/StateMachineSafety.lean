import AppliedCs.Raft.Theorems.Commit

namespace Raft

open ReplicatedLog Transition Cluster RaftNode

variable {M : Membership} {s : Cluster} {a₂ : History}

-- Neither the leader's commit index nor the follower's own log goes beyond what the request brings
-- the log in line with, or what is committed already.
def RaftNode.AdoptsCommitSafely (n : RaftNode) (req : AppendEntriesRequest) : Prop :=
  n.Accepts req → min req.leaderCommit n.lastLogIndex ≤
    max n.commitIndex (req.prevLogIndex + req.entries.length)

instance (n : RaftNode) (req : AppendEntriesRequest) : Decidable (n.AdoptsCommitSafely req) :=
  inferInstanceAs <| Decidable (_ → _)

theorem RaftNode.AdoptsCommitSafely.commitIndex_le {n : RaftNode} (h : n.AdoptsCommitSafely req)
    (hacc : n.Accepts req) (hc : Contiguous 0 n.log) (he : Contiguous req.prevLogIndex req.entries)
    (now : Instant) :
    ((n.followLeader req now).acceptEntries req).commitIndex ≤
      max n.commitIndex (req.prevLogIndex + req.entries.length) := by
  have hq := n.quiet_followLeader req now
  rcases (n.followLeader req now).acceptEntries_cases req with ⟨_, heq⟩ | ⟨_, heq⟩
  · have hlen : ((n.followLeader req now).withEntries req).log.length ≤
        max n.log.length (req.prevLogIndex + req.entries.length) :=
      hq.log ▸ (length_foldl_appendEntry he (hq.log ▸ le_of_prevConflict hacc.2)).2
    have hcont : Contiguous 0 ((n.followLeader req now).withEntries req).log :=
      (hq.log ▸ hc).foldl_appendEntry he (hq.log ▸ le_of_prevConflict hacc.2)
    have hmin := h hacc
    rw [lastLogIndex_eq hc] at hmin
    rw [heq, applyCommittedEntries_commitIndex, lastLogIndex_eq hcont]
    dsimp only
    omega
  · rw [heq]
    exact hq.commitIndex ▸ le_max_left ..

def Cluster.CommitsSafely (s : Cluster) : Event → Prop
  | .startElection i now => s.ElectsSafely (.startElection i now)
  | .requestVoteResponse r => s.ElectsSafely (.requestVoteResponse r)
  | .appendEntries i req _ => (s.nodes i).AdoptsCommitSafely req
  | .appendEntriesResponse r _ => (s.nodes r.request.leaderId).CountsSafely r
  | _ => True

instance (s : Cluster) : (e : Event) → Decidable (s.CommitsSafely e)
  | .startElection i now => inferInstanceAs <| Decidable (s.ElectsSafely (.startElection i now))
  | .requestVoteResponse r => inferInstanceAs <| Decidable (s.ElectsSafely (.requestVoteResponse r))
  | .appendEntries i req _ => inferInstanceAs <| Decidable ((s.nodes i).AdoptsCommitSafely req)
  | .appendEntriesResponse r _ =>
    inferInstanceAs <| Decidable ((s.nodes r.request.leaderId).CountsSafely r)
  | .requestVote .. | .replicate .. | .propose .. | .batchPropose .. | .poll .. | .expire .. =>
    .isTrue trivial

theorem Cluster.CommitsSafely.electsSafely (h : s.CommitsSafely e) : s.ElectsSafely e := by
  cases e <;> first | exact h | exact trivial

structure CommitSim (M : Membership) (s : Cluster) (a : History) : Prop where
  nodes : ∀ i ∈ M.members, Commits M a i (s.nodes i) (s.applied i)
  appendRequests : ∀ req ∈ s.appendRequests, Certifies M a req

namespace CommitSim

theorem init (M : Membership) (boot : NodeId → Instant) :
    CommitSim M (.init M boot) State.init where
  nodes _ _ :=
    { length_le := Nat.zero_le _
      committed := .nil
      lastApplied := rfl
      applied_eq := rfl
      counted := .of_not_leader rfl }
  appendRequests := nofun

theorem mono (h : CommitSim M s a₁) (he : Extends a₁ a₂) : CommitSim M s a₂ where
  nodes i hi := (h.nodes i hi).mono he
  appendRequests req hm := (h.appendRequests req hm).mono he

theorem setNode (h : CommitSim M s a)
    (hn : i ∈ M.members → Commits M a i n (s.applied i ++ (s.nodes i).appliedSince n)) :
    CommitSim M (s.setNode i n) a where
  nodes j hj := by
    by_cases hji : j = i
    case pos =>
      subst hji
      simpa [Cluster.setNode] using hn hj
    case neg => simpa [Cluster.setNode, hji] using h.nodes j hj
  appendRequests := h.appendRequests

theorem setNode_keep (h : CommitSim M s a) (hla : n.lastApplied = (s.nodes i).lastApplied)
    (hn : i ∈ M.members → Commits M a i n (s.applied i)) : CommitSim M (s.setNode i n) a := by
  refine h.setNode fun hi => ?_
  simpa [appliedSince_eq_nil hla] using hn hi

theorem setNode_quiet (h : CommitSim M s a) (hq : (s.nodes i).Quiet n) :
    CommitSim M (s.setNode i n) a :=
  h.setNode_keep hq.lastApplied fun hi => (h.nodes i hi).quiet hq

theorem step (hc : CommitSim M s₁ a) (h : Sim M s₁ a) (hok : s₁.CommitsSafely e)
    (hs : Cluster.step M s₁ e = some s₂) : CommitSim M s₂ a := by
  have hv := h.valid
  cases e <;> simp only [Cluster.step, Option.ite_none_right_eq_some, Option.some.injEq] at hs
  case startElection i now =>
    obtain ⟨_, rfl⟩ := hs
    exact { hc.setNode_quiet (quiet_transitionToCandidate hok now) with }
  case requestVote i req now =>
    obtain ⟨_, rfl⟩ := hs
    exact { hc.setNode_quiet (quiet_handleRequestVote _ req now) with }
  case requestVoteResponse r =>
    obtain ⟨_, rfl⟩ := hs
    rcases (s₁.nodes r.request.candidateId).handleRequestVoteResponse_cases r.voter r.response with
      hq | ⟨votes, _, heq⟩
    · exact hc.setNode_quiet hq
    · rw [heq]
      exact hc.setNode_keep rfl fun hi => (hc.nodes _ hi).transitionToLeader votes
  case replicate i peer =>
    obtain ⟨hi, rfl⟩ := hs
    have hq := (hc.nodes i hi).certifies (h.nodes i hi) peer
    exact { hc with appendRequests := List.forall_mem_cons.mpr ⟨hq, hc.appendRequests⟩ }
  case appendEntries i req now =>
    obtain ⟨⟨hi, hm⟩, rfl⟩ := hs
    rcases (s₁.nodes i).handleAppendEntries_cases req now with ⟨hq, _⟩ | ⟨hacc, heq⟩
    · exact { hc.setNode_quiet hq with }
    · have hquiet := (s₁.nodes i).quiet_followLeader req now
      have hT := (s₁.nodes i).followLeader_currentTerm req now (not_lt.mpr hacc.1)
      refine { hc.setNode fun _ => ?_ with }
      have hle := AdoptsCommitSafely.commitIndex_le hok hacc ((h.nodes i hi).contiguous hv)
        ((h.appendRequests req hm).contiguous hv) now
      rw [← hquiet.commitIndex] at hle
      rw [heq, appliedSince, ← hquiet.lastApplied]
      exact ((hc.nodes i hi).quiet hquiet).acceptEntries
        (hquiet.log ▸ (h.nodes i hi).anchored hv) hv (h.appendRequests req hm)
        (hc.appendRequests req hm) hT rfl (prevConflict_followLeader.mpr hacc.2) hle
  case appendEntriesResponse r now =>
    obtain ⟨hm, rfl⟩ := hs
    refine hc.setNode fun hi => ?_
    exact (hc.nodes _ hi).handleAppendEntriesResponse (h.nodes _ hi) hv hi
      (h.appendReplies r hm) hok
  case propose i command =>
    obtain ⟨hi, hs⟩ := hs
    split at hs
    case h_2 => exact Option.some.inj hs ▸ hc
    case h_1 n _ hp =>
      cases hs
      obtain ⟨_, _, hn⟩ := of_propose_ok hp
      exact { hc.setNode_keep (by rw [hn]) fun hi => hn ▸ (hc.nodes i hi).appendOwn _ with }
  case batchPropose i commands =>
    obtain ⟨hi, hs⟩ := hs
    split at hs
    case h_2 => exact Option.some.inj hs ▸ hc
    case h_1 n _ hp =>
      cases hs
      obtain ⟨_, hn⟩ := of_batchPropose_ok hp
      exact hc.setNode_keep (by rw [hn]) fun hi => hn ▸ (hc.nodes i hi).appendOwn _
  case poll p =>
    obtain ⟨_, hs⟩ := hs
    split at hs <;> cases hs <;> exact { hc with }
  case expire p =>
    obtain ⟨_, rfl⟩ := hs
    exact { hc with }

theorem run (hr : Reaches (Cluster.step M) CommitsSafely s₁ s₂) (h : Sim M s₁ a₁)
    (hc : CommitSim M s₁ a₁) : ∃ a₂, Sim M s₂ a₂ ∧ CommitSim M s₂ a₂ := by
  refine hr.invariant (P := fun s => ∃ a, Sim M s a ∧ CommitSim M s a) ⟨a₁, h, hc⟩ ?_
  rintro s s' e ⟨a, h, hc⟩ hok hs
  have ⟨a', he, h'⟩ := h.step hok.electsSafely hs
  exact ⟨a', h', (hc.step h hok hs).mono he⟩

end CommitSim

theorem Commits.getElem?_of_applied {applied : List (ℕ × LogEntry)} (h : Commits M a i n applied)
    (hc : Contiguous 0 n.log) (hm : (index, e) ∈ applied) :
    (n.log.take n.commitIndex)[index - 1]? = some e := by
  rw [h.applied_eq] at hm
  exact getElem?_of_recorded (hc.of_isPrefix (List.take_prefix _ _)) hm

-- Nodes that have applied an entry at the same index have applied the same entry.
theorem applied_unique {boot : NodeId → Instant} {i j index : ℕ} {e f : LogEntry}
    (r : Reaches (Cluster.step M) CommitsSafely (Cluster.init M boot) s)
    (hi : i ∈ M.members) (hj : j ∈ M.members) (he : (index, e) ∈ s.applied i)
    (hf : (index, f) ∈ s.applied j) : e = f := by
  have ⟨a, h, hc⟩ := CommitSim.run r (Sim.init M boot) (CommitSim.init M boot)
  have he' := (hc.nodes i hi).getElem?_of_applied ((h.nodes i hi).contiguous h.valid) he
  have hf' := (hc.nodes j hj).getElem?_of_applied ((h.nodes j hj).contiguous h.valid) hf
  cases (hc.nodes i hi).committed.agree (hc.nodes j hj).committed h.valid.inv
  case inl hp => exact Option.some.inj <| (hp.getElem?_some he').symm.trans hf'
  case inr hp => exact Option.some.inj <| he'.symm.trans (hp.getElem?_some hf')

-- The entry that the leader of term `T` starts with.
def noopEntry (T index : ℕ) : LogEntry :=
  ⟨T, index, .noOp, .noOp⟩

-- Node 1 replicates its first entry to node 2, commits it, and tells node 2 so.
def commitRun : List Event :=
  let offer : AppendEntriesRequest := ⟨1, 1, 0, 0, [noopEntry 1 1], 0⟩
  let heartbeat : AppendEntriesRequest := ⟨1, 1, 1, 1, [], 1⟩
  [.startElection 1 0, .requestVote 2 ⟨1, 1, 0, 0⟩ 0,
    .requestVoteResponse ⟨2, ⟨1, 1, 0, 0⟩, ⟨1, true⟩⟩,
    .replicate 1 2, .appendEntries 2 offer 1,
    .appendEntriesResponse ⟨2, offer, ⟨1, true, none, none⟩⟩ 1,
    .replicate 1 2, .appendEntries 2 heartbeat 2]

theorem applied_unique_after_commit :
    ∃ s, Reaches (step threeNodes) CommitsSafely (Cluster.init threeNodes fun _ => 0) s ∧
      (1, noopEntry 1 1) ∈ s.applied 1 ∧ (1, noopEntry 1 1) ∈ s.applied 2 ∧
      ∀ f, (1, f) ∈ s.applied 2 → noopEntry 1 1 = f := by
  have ⟨s, r, h₁, h₂⟩ :
      ∃ s, Reaches (step threeNodes) CommitsSafely (Cluster.init threeNodes fun _ => 0) s ∧
        (1, noopEntry 1 1) ∈ s.applied 1 ∧ (1, noopEntry 1 1) ∈ s.applied 2 :=
    Reaches.exists_of_run commitRun (by decide +kernel)
  exact ⟨s, r, h₁, h₂, fun f hf => applied_unique r (by decide) (by decide) h₁ hf⟩

-- Node 1 appends a command between sending its first entry to node 2 and the response to it. The
-- response counts for the command too, and node 1 applies it at index 2 although no other node
-- has it. Node 2 then wins the next term and puts its own entry at index 2.
def lostEntryRun : List Event :=
  let offer₁ : AppendEntriesRequest := ⟨1, 1, 0, 0, [noopEntry 1 1], 0⟩
  let offer₂ : AppendEntriesRequest := ⟨2, 2, 1, 1, [noopEntry 2 2], 0⟩
  [.startElection 1 0, .requestVote 2 ⟨1, 1, 0, 0⟩ 0,
    .requestVoteResponse ⟨2, ⟨1, 1, 0, 0⟩, ⟨1, true⟩⟩,
    .replicate 1 2, .appendEntries 2 offer₁ 1, .propose 1 (.put [1] [1]),
    .appendEntriesResponse ⟨2, offer₁, ⟨1, true, none, none⟩⟩ 1,
    .startElection 2 2, .requestVote 3 ⟨2, 2, 1, 1⟩ 2,
    .requestVoteResponse ⟨3, ⟨2, 2, 1, 1⟩, ⟨2, true⟩⟩,
    .replicate 2 1, .appendEntries 1 offer₂ 3,
    .appendEntriesResponse ⟨1, offer₂, ⟨2, true, none, none⟩⟩ 3]

theorem different_entries_applied :
    ∃ s, Reaches (step threeNodes) anyEvent (Cluster.init threeNodes fun _ => 0) s ∧
      (2, ⟨1, 2, .put [1] [1], .command⟩) ∈ s.applied 1 ∧ (2, noopEntry 2 2) ∈ s.applied 2 :=
  Reaches.exists_of_run lostEntryRun (by decide +kernel)

end Raft
