import AppliedCs.Raft.Theorems.StateMachineSafety

namespace Raft

open ReplicatedLog Transition Cluster

-- An entry of one index and term, found in two logs at any two moments, comes after the same
-- entries in both.
theorem logs_match (r₁ : Reaches (step M) ElectsSafely (init M boot) s₁)
    (r₂ : Reaches (step M) ElectsSafely s₁ s₂) (hi : i ∈ M.members) (hj : j ∈ M.members) :
    Matching (s₁.nodes i).log (s₂.nodes j).log ∧ Contiguous 0 (s₁.nodes i).log ∧
      ∀ e ∈ (s₁.nodes i).log, e.term ≤ (s₁.nodes i).currentTerm := by
  have ⟨a₁, _, h₁⟩ := (Sim.init M boot).run r₁
  have ⟨a₂, he, h₂⟩ := h₁.run r₂
  have hn := h₁.nodes i hi
  have ha₁ := (hn.anchored h₁.valid).mono he.llog
  have ha₂ := (h₂.nodes j hj).anchored h₂.valid
  refine ⟨fun _ _ _ hk hk' ht => ha₁.take_eq_take ha₂ hk hk' ht, hn.contiguous h₁.valid, ?_⟩
  exact hn.log ▸ hn.term ▸ h₁.valid.inv.log_le i

theorem logs_match_after_commit :
    ∃ s, Reaches (step threeNodes) ElectsSafely (init threeNodes fun _ => 0) s ∧
      (s.nodes 2).log = [noopEntry 1 1] ∧ Matching (s.nodes 1).log (s.nodes 2).log := by
  have ⟨s, r, h⟩ : ∃ s, Reaches (step threeNodes) ElectsSafely (init threeNodes fun _ => 0) s ∧
      (s.nodes 2).log = [noopEntry 1 1] :=
    Reaches.exists_of_run commitRun (by decide +kernel)
  exact ⟨s, r, h, logs_match r .refl (by decide) (by decide) |>.1⟩

-- A leader never removes or replaces an entry of its log while it leads.
theorem leader_appends_only (r₁ : Reaches (step M) ElectsSafely (init M boot) s₁)
    (r₂ : Reaches (step M) ElectsSafely s₁ s₂) (hi : i ∈ M.members) (hl₁ : (s₁.nodes i).isLeader)
    (hl₂ : (s₂.nodes i).isLeader) (ht : (s₁.nodes i).currentTerm = (s₂.nodes i).currentTerm) :
    (s₁.nodes i).log <+: (s₂.nodes i).log := by
  have ⟨a₁, _, h₁⟩ := (Sim.init M boot).run r₁
  have ⟨a₂, he, h₂⟩ := h₁.run r₂
  have ⟨_, _, _, hl₁⟩ := RaftNode.state_of_isLeader hl₁
  have ⟨_, _, _, hl₂⟩ := RaftNode.state_of_isLeader hl₂
  rw [← ((h₁.nodes i hi).leader hl₁).2.1, ← ((h₂.nodes i hi).leader hl₂).2.1, ← ht]
  exact he.llog _

theorem leader_appends_only_propose :
    ∃ s₁ s₂, Reaches (step threeNodes) ElectsSafely (init threeNodes fun _ => 0) s₁ ∧
      Reaches (step threeNodes) ElectsSafely s₁ s₂ ∧ (s₂.nodes 1).log.length = 2 ∧
      (s₁.nodes 1).log <+: (s₂.nodes 1).log := by
  let proposed (s : Cluster) := run (step threeNodes) ElectsSafely s [.propose 1 (.put [1] [1])]
  have ⟨s₁, r₁, h₁, h⟩ :
      ∃ s₁, Reaches (step threeNodes) ElectsSafely (init threeNodes fun _ => 0) s₁ ∧
        (s₁.nodes 1).isLeader ∧ (proposed s₁).any (fun s₂ => decide <| (s₂.nodes 1).isLeader ∧
          (s₁.nodes 1).currentTerm = (s₂.nodes 1).currentTerm ∧ (s₂.nodes 1).log.length = 2) :=
    Reaches.exists_of_run commitRun (by decide +kernel)
  have ⟨s₂, r₂, h₂, ht, hlen⟩ := Reaches.exists_of_run _ h
  exact ⟨s₁, s₂, r₁, r₂, hlen, leader_appends_only r₁ r₂ (by decide) h₁ h₂ ht⟩

-- What a node has committed is in the log of every later leader.
theorem leader_has_committed (r₁ : Reaches (step M) CommitsSafely (init M boot) s₁)
    (r₂ : Reaches (step M) ElectsSafely s₁ s₂) (hi : i ∈ M.members) (hj : j ∈ M.members)
    (hl : (s₂.nodes j).isLeader) (ht : (s₁.nodes i).currentTerm ≤ (s₂.nodes j).currentTerm) :
    (s₁.nodes i).log.take (s₁.nodes i).commitIndex <+: (s₂.nodes j).log := by
  have ⟨a₁, h₁, hc⟩ := CommitSim.run r₁ (Sim.init M boot) (CommitSim.init M boot)
  have ⟨a₂, he, h₂⟩ := h₁.run r₂
  have ⟨_, _, _, hl⟩ := RaftNode.state_of_isLeader hl
  have ⟨hlead, hlog, _⟩ := (h₂.nodes j hj).leader hl
  have hp := (hc.nodes i hi).committed.of_extends he
  exact hlog ▸ hp.prefix_llog h₂.valid.inv ht (by simp [hlead])

-- Node 2, which learnt of the commit from node 1, wins the next term with the vote of node 3.
theorem leader_has_committed_next_term :
    ∃ s₁ s₂, Reaches (step threeNodes) CommitsSafely (init threeNodes fun _ => 0) s₁ ∧
      Reaches (step threeNodes) ElectsSafely s₁ s₂ ∧ (s₁.nodes 1).commitIndex = 1 ∧
      (s₂.nodes 2).currentTerm = 2 ∧ (s₁.nodes 1).log.take 1 <+: (s₂.nodes 2).log := by
  let elected (s : Cluster) := run (step threeNodes) ElectsSafely s [.startElection 2 3,
    .requestVote 3 ⟨2, 2, 1, 1⟩ 3, .requestVoteResponse ⟨3, ⟨2, 2, 1, 1⟩, ⟨2, true⟩⟩]
  have ⟨s₁, r₁, hc, ht, h⟩ :
      ∃ s₁, Reaches (step threeNodes) CommitsSafely (init threeNodes fun _ => 0) s₁ ∧
        (s₁.nodes 1).commitIndex = 1 ∧ (s₁.nodes 1).currentTerm = 1 ∧ (elected s₁).any
          (fun s₂ => decide <| (s₂.nodes 2).isLeader ∧ (s₂.nodes 2).currentTerm = 2) :=
    Reaches.exists_of_run commitRun (by decide +kernel)
  have ⟨s₂, r₂, hl, ht₂⟩ := Reaches.exists_of_run _ h
  have hp := leader_has_committed (i := 1) r₁ r₂ (by decide) (by decide) hl (by omega)
  exact ⟨s₁, s₂, r₁, r₂, hc, ht₂, by rwa [hc] at hp⟩

end Raft
