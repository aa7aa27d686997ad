import AppliedCs.Raft.Theorems.Simulation

namespace Raft

open Transition Cluster

-- No two nodes lead in one term, whether at one moment or one after the other.
theorem leader_unique {M : Membership} {boot : NodeId → Instant} {s₁ s₂ : Cluster} {i j : NodeId}
    (r₁ : Reaches (step M) ElectsSafely (init M boot) s₁) (r₂ : Reaches (step M) ElectsSafely s₁ s₂)
    (hi : i ∈ M.members) (hj : j ∈ M.members) (h₁ : (s₁.nodes i).isLeader)
    (h₂ : (s₂.nodes j).isLeader) (ht : (s₁.nodes i).currentTerm = (s₂.nodes j).currentTerm) :
    i = j := by
  have ⟨a₁, _, hs₁⟩ := (Sim.init M boot).run r₁
  have ⟨a₂, he, hs₂⟩ := hs₁.run r₂
  have ⟨_, _, _, hl₁⟩ := RaftNode.state_of_isLeader h₁
  have ⟨_, _, _, hl₂⟩ := RaftNode.state_of_isLeader h₂
  have hi' := he.leader ((hs₁.nodes i hi).leader hl₁).1
  have hj' := ((hs₂.nodes j hj).leader hl₂).1
  exact Option.some.inj <| by rw [← hi', ht, hj']

-- Node 3 votes for node 1, which wins with this vote.
def electionRun : List Event :=
  [.startElection 1 0, .requestVote 3 ⟨1, 1, 0, 0⟩ 0,
    .requestVoteResponse ⟨3, ⟨1, 1, 0, 0⟩, ⟨1, true⟩⟩]

theorem leader_unique_after_election :
    ∃ s, Reaches (step threeNodes) ElectsSafely (init threeNodes fun _ => 0) s ∧
      (s.nodes 1).isLeader ∧ (s.nodes 1).currentTerm = 1 ∧
      ∀ j ∈ threeNodes.members, (s.nodes j).isLeader → (s.nodes j).currentTerm = 1 → 1 = j := by
  have ⟨s, r, h₁, h₂⟩ : ∃ s, Reaches (step threeNodes) ElectsSafely (init threeNodes fun _ => 0) s ∧
      (s.nodes 1).isLeader ∧ (s.nodes 1).currentTerm = 1 :=
    Reaches.exists_of_run electionRun (by decide +kernel)
  exact ⟨s, r, h₁, h₂, fun j hj hl ht =>
    leader_unique r .refl (by decide) hj h₁ hl (h₂.trans ht.symm)⟩

-- Node 1 asks for votes in term 1 and node 3 grants its vote, but the answer is delayed. Node 1
-- starts a second election, and node 2 wins the same term 2 with the vote of node 3. The answer
-- of term 1 is then counted for term 2.
def staleVoteRun : List Event :=
  [.startElection 1 0, .requestVote 3 ⟨1, 1, 0, 0⟩ 0, .startElection 1 1, .startElection 2 1,
    .startElection 2 2, .requestVote 3 ⟨2, 2, 0, 0⟩ 2,
    .requestVoteResponse ⟨3, ⟨2, 2, 0, 0⟩, ⟨2, true⟩⟩,
    .requestVoteResponse ⟨3, ⟨1, 1, 0, 0⟩, ⟨1, true⟩⟩]

theorem two_leaders_by_stale_vote :
    ∃ s, Reaches (step threeNodes) anyEvent (init threeNodes fun _ => 0) s ∧
      (s.nodes 1).isLeader ∧ (s.nodes 2).isLeader ∧
      (s.nodes 1).currentTerm = (s.nodes 2).currentTerm :=
  Reaches.exists_of_run staleVoteRun (by decide +kernel)

end Raft
