import AppliedCs.Lib.Quorum
import AppliedCs.Raft.Membership

namespace Raft

open Quorum Finset

namespace ClusterConfig

variable {new : Finset NodeId}

-- The configurations are the same, or they differ in one node and the larger one is even.
def Adjacent (old new : Finset NodeId) : Prop :=
  old = new ∨ new ⊆ old ∧ old.card = new.card + 1 ∧ Even old.card ∨
    old ⊆ new ∧ new.card = old.card + 1 ∧ Even new.card

-- The set contains a majority of both configurations.
def BothMajorities (old new V : Finset NodeId) : Prop :=
  Majority old (V ∩ old) ∧ Majority new (V ∩ new)

theorem quorumSize_joint : quorumSize ⟨old, some new⟩ = max (old.card / 2 + 1) (new.card / 2 + 1) :=
  rfl

theorem card_add_sdiff (old new : Finset NodeId) : old.card + (new \ old).card = (old ∪ new).card ∧
      new.card + (old \ new).card = (old ∪ new).card := by
  rw [Nat.add_comm, Nat.add_comm new.card, card_sdiff_add_card, card_sdiff_add_card,
    union_comm new old]
  exact ⟨rfl, rfl⟩

theorem adjacent_iff : Adjacent old new ↔ (new \ old).card = 0 ∧ (old \ new).card = 0 ∨
    (new \ old).card = 0 ∧ (old \ new).card = 1 ∧ old.card % 2 = 0 ∨
    (old \ new).card = 0 ∧ (new \ old).card = 1 ∧ new.card % 2 = 0 := by
  obtain ⟨h₁, h₂⟩ := card_add_sdiff old new
  have hn : (new \ old).card = 0 ↔ new ⊆ old := by
    rw [card_eq_zero, sdiff_eq_empty_iff_subset]
  have ho : (old \ new).card = 0 ↔ old ⊆ new := by
    rw [card_eq_zero, sdiff_eq_empty_iff_subset]
  rw [Adjacent, Finset.Subset.antisymm_iff, ← hn, ← ho, Nat.even_iff, Nat.even_iff]
  omega

theorem forall_bothMajorities_iff :
    (∀ V ⊆ old ∪ new, quorumSize ⟨old, some new⟩ ≤ V.card → BothMajorities old new V) ↔
      Adjacent old new := by
  have hsplit : (∀ V ⊆ old ∪ new, quorumSize ⟨old, some new⟩ ≤ V.card → BothMajorities old new V) ↔
      (∀ V ⊆ old ∪ new, quorumSize ⟨old, some new⟩ ≤ V.card → Majority old (V ∩ old)) ∧
      ∀ V ⊆ new ∪ old, quorumSize ⟨old, some new⟩ ≤ V.card → Majority new (V ∩ new) := by
    rw [union_comm new old]
    exact ⟨fun h => ⟨fun V hV hq => (h V hV hq).1, fun V hV hq => (h V hV hq).2⟩,
      fun h V hV hq => ⟨h.1 V hV hq, h.2 V hV hq⟩⟩
  obtain ⟨h₁, h₂⟩ := card_add_sdiff old new
  rw [hsplit, forall_majority_iff, forall_majority_iff, quorumSize_joint, adjacent_iff,
    union_comm new old]
  omega

end ClusterConfig

namespace RaftNode

open ClusterConfig

variable {n : RaftNode} {new : Finset NodeId}

-- During the change of one node the quorums have majorities of both configurations exactly if the
-- larger one is even.
theorem one_node_change_iff (hl : n.isLeader) (hc : n.clusterConfig = ⟨old, none⟩) :
    (a ∉ old → ∃ n' index, n.addNode a = .ok (n', index) ∧
      n'.clusterConfig = ⟨old, some (insert a old)⟩ ∧
      ((∀ V ⊆ old ∪ insert a old, n'.clusterConfig.quorumSize ≤ V.card →
        BothMajorities old (insert a old) V) ↔ Odd old.card)) ∧
    (a ∈ old → ∃ n' index, n.removeNode a = .ok (n', index) ∧
      n'.clusterConfig = ⟨old, some (old.erase a)⟩ ∧
      ((∀ V ⊆ old ∪ old.erase a, n'.clusterConfig.quorumSize ≤ V.card →
        BothMajorities old (old.erase a) V) ↔ Even old.card)) := by
  have hp (new : Finset NodeId) : ∃ n' index, n.proposeMembershipChange new = .ok (n', index) ∧
      n'.clusterConfig = ⟨old, some new⟩ := by
    simp [proposeMembershipChange, hl, hc, isJoint]
  refine ⟨fun ha => ?_, fun ha => ?_⟩
  · obtain ⟨n', index, h, hn⟩ := hp (insert a old)
    refine ⟨n', index, by rwa [addNode, hc], hn, ?_⟩
    have h₁ : (insert a old \ old).card = 1 := by simp [insert_sdiff_of_notMem _ ha]
    have h₂ : (old \ insert a old).card = 0 := by simp
    rw [hn, forall_bothMajorities_iff, adjacent_iff, card_insert_of_notMem ha, Nat.odd_iff]
    omega
  · obtain ⟨n', index, h, hn⟩ := hp (old.erase a)
    refine ⟨n', index, by rwa [removeNode, hc], hn, ?_⟩
    have h₁ : (old.erase a \ old).card = 0 := by simp [erase_subset]
    have h₂ : (old \ old.erase a).card = 1 := by simp [sdiff_erase_self ha]
    rw [hn, forall_bothMajorities_iff, adjacent_iff, Nat.even_iff]
    omega

def threeNodeLeader : RaftNode where
  config := { id := 1, peers := [] }
  state := .leader none ∅ ∅
  clusterConfig := ⟨{1, 2, 3}, none⟩

theorem one_node_change_three : ∃ n' index, threeNodeLeader.addNode 4 = .ok (n', index) ∧
    n'.clusterConfig = ⟨{1, 2, 3}, some (insert 4 {1, 2, 3})⟩ :=
  have ⟨n', index, h, hn, _⟩ := (one_node_change_iff rfl rfl).1 (by decide)
  ⟨n', index, h, hn⟩

end RaftNode

namespace MonitoredNode

-- The nodes that a call counts when it finds a quorum.
inductive Accepted (n : MonitoredNode) : Finset NodeId → Prop
  | preVote (fromId : NodeId) (resp : RequestVoteResponse) (now : Instant) {preVote : PreVoteState}
      (pending : n.preVoteState = some preVote)
      (won : (n.toRaftNode.handlePreVoteResponse fromId resp now).2 = true) :
      Accepted n (insert fromId preVote.votesReceived)
  | checkQuorum (now : Instant) (checks : n.checksQuorum now = true)
      (others : n.config.id ∉ n.peerLastContact) (passed : (n.checkQuorum now).2 = true) :
      Accepted n (insert n.config.id (n.reachablePeers now).toFinset)

theorem Accepted.quorumSize_le (h : Accepted n V) : n.clusterConfig.quorumSize ≤ V.card := by
  cases h
  case preVote fromId resp now preVote hp hw =>
    simp only [RaftNode.handlePreVoteResponse, hp] at hw
    split_ifs at hw with hg hq
    exact hq
  case checkQuorum now hc ho hp =>
    have hnodup : (n.reachablePeers now).Nodup :=
      n.peerLastContact.nodupKeys.sublist List.filter_sublist
    have hself : n.config.id ∉ (n.reachablePeers now).toFinset := fun hm =>
      ho <| (List.filter_sublist.map _).subset <| List.mem_toFinset.mp hm
    rw [card_insert_of_notMem hself, List.toFinset_card_of_nodup hnodup]
    rw [MonitoredNode.checkQuorum, if_neg (by simp [hc])] at hp
    dsimp only at hp
    split_ifs at hp with hq
    have hle : ¬ 1 + (n.reachablePeers now).length < n.clusterConfig.quorumSize := hq
    omega

end MonitoredNode

open ClusterConfig MonitoredNode

theorem joint_quorum_iff {old new : Finset NodeId} :
    ((∀ V ⊆ old ∪ new, quorumSize ⟨old, some new⟩ ≤ V.card → BothMajorities old new V) ∧
      ∀ (n₁ n₂ : MonitoredNode) (V₁ V₂ : Finset NodeId), n₁.clusterConfig = ⟨old, none⟩ →
        n₂.clusterConfig = ⟨old, some new⟩ → Accepted n₁ V₁ → Accepted n₂ V₂ → V₁ ⊆ old →
          V₂ ⊆ old ∪ new → (V₁ ∩ V₂).Nonempty) ↔
      Adjacent old new := by
  refine ⟨fun h => forall_bothMajorities_iff.mp h.1, fun h => ?_⟩
  have hboth := forall_bothMajorities_iff.mpr h
  refine ⟨hboth, fun n₁ n₂ V₁ V₂ hc₁ hc₂ ha₁ ha₂ hs₁ hs₂ => ?_⟩
  have hq₁ := ha₁.quorumSize_le
  have hq₂ := ha₂.quorumSize_le
  rw [hc₁] at hq₁
  rw [hc₂] at hq₂
  have hm₁ : Majority old V₁ := ⟨hs₁, by simp only [quorumSize] at hq₁; omega⟩
  obtain ⟨p, hp₁, hp₂⟩ := hm₁.meet (hboth V₂ hs₂ hq₂).1
  exact ⟨p, mem_inter.mpr ⟨hp₁, (mem_inter.mp hp₂).1⟩⟩

section Sample

def oldNodes : Finset NodeId :=
  {1, 2, 3}

def newNodes : Finset NodeId :=
  {4, 5, 6}

-- Node 2 asks for a vote in the old configuration and has its own.
def votingNode : MonitoredNode where
  config := { id := 2, peers := [⟨1⟩, ⟨3⟩] }
  preVoteState := some ⟨1, {2}⟩

-- Node 1 leads and has started to replace all nodes by others.
def changingNode : MonitoredNode where
  config := { id := 1, peers := [⟨2⟩, ⟨3⟩] }
  state := .leader none ∅ ∅
  clusterConfig := ⟨oldNodes, some newNodes⟩
  peerLastContact := AList.singleton 4 1000

theorem joint_quorum_too_small :
    (∃ V ⊆ oldNodes ∪ newNodes, quorumSize ⟨oldNodes, some newNodes⟩ ≤ V.card ∧
      ¬ BothMajorities oldNodes newNodes V) ∧
    ∃ (n₁ n₂ : MonitoredNode) (V₁ V₂ : Finset NodeId), n₁.clusterConfig = ⟨oldNodes, none⟩ ∧
      n₂.clusterConfig = ⟨oldNodes, some newNodes⟩ ∧ Accepted n₁ V₁ ∧ Accepted n₂ V₂ ∧
        V₁ ⊆ oldNodes ∧ V₂ ⊆ oldNodes ∪ newNodes ∧ V₁ ∩ V₂ = ∅ := by
  refine ⟨⟨{1, 2}, by decide, by decide, fun h => absurd h.2.2 (by decide)⟩,
    votingNode, changingNode, _, _, congrArg (ClusterConfig.mk · none) (by decide), rfl,
    .preVote 3 ⟨0, true⟩ 0 rfl (by decide +kernel),
    .checkQuorum 1000 (by decide +kernel) (by decide) (by decide +kernel), ?_, ?_, ?_⟩
    <;> decide +kernel

end Sample

end Raft
