import AppliedCs.Lib.Quorum
import AppliedCs.Raft.Theorems.Node

namespace Raft

open Quorum List

namespace RaftNode

variable {n : RaftNode} {next matched : IndexMap}

-- How far the nodes of the cluster have got, as the leader knows it.
def reached (n : RaftNode) (matched : IndexMap) : List ℕ :=
  matched.entries.map (·.2) ++ [n.lastLogIndex]

-- A quorum of the nodes has got to index `c`.
def QuorumAt (n : RaftNode) (matched : IndexMap) (c : ℕ) : Prop :=
  n.config.quorumSize ≤ (n.reached matched).countP (c ≤ ·)

def OwnEntry (n : RaftNode) (c : ℕ) : Prop :=
  ∃ e, n.getLogEntry c = some e ∧ e.term = n.currentTerm ∧ (Contiguous 0 n.log → e.index = c)

theorem getLogEntry_index (hc : Contiguous 0 n.log) (h : n.getLogEntry c = some e) :
    e.index = c := by
  rw [getLogEntry] at h
  split at h
  case isTrue => cases h
  case isFalse hz =>
    have := hc.index_eq h
    omega

section

variable (hm : matched.keys.Perm n.config.peerIds)

include hm

theorem length_reached : (n.reached matched).length = n.config.peers.length + 1 := by
  have hl := hm.length_eq
  rw [RaftConfig.peerIds, length_map] at hl
  rw [reached, length_append, length_map, ← hl]
  exact congrArg (· + 1) (length_map _).symm

theorem quorumSize_le_length_reached :
    n.config.quorumSize ≤ (n.reached matched).length ∧ 0 < n.config.quorumSize := by
  rw [length_reached hm, RaftConfig.quorumSize]
  omega

theorem exists_majorityIndex : ∃ c, ((n.reached matched).insertionSort (· ≤ ·))[
      (n.reached matched).length - n.config.quorumSize]? = some c := by
  obtain ⟨hq, hpos⟩ := quorumSize_le_length_reached hm
  refine ⟨_, getElem?_eq_getElem ?_⟩
  rw [length_insertionSort]
  omega

end

theorem tryAdvanceCommitIndex_of_ownEntry (hs : n.state = .leader lease next matched)
    (hm : matched.keys.Perm n.config.peerIds) (hc : ((n.reached matched).insertionSort (· ≤ ·))[
      (n.reached matched).length - n.config.quorumSize]? = some c) (hlt : n.commitIndex < c)
    (he : n.getLogEntry c = some e) (ht : e.term = n.currentTerm) :
    n.tryAdvanceCommitIndex.commitIndex = c := by
  have hq := (quorumSize_le_length_reached hm).1
  have ha : n.tryAdvanceCommitIndex = { n with commitIndex := c }.applyCommittedEntries := by
    simp only [reached] at hq hc
    simp only [tryAdvanceCommitIndex, hs, length_insertionSort, if_pos hq, hc, if_pos hlt, he,
      if_pos ht]
  rw [ha, applyCommittedEntries_commitIndex]

theorem le_tryAdvanceCommitIndex (n : RaftNode) :
    n.commitIndex ≤ n.tryAdvanceCommitIndex.commitIndex := by
  rcases n.tryAdvanceCommitIndex_cases with heq | ⟨_, _, _, _, _, _, _, _, hlt, _, _, heq⟩
  · rw [heq]
  · rw [heq, applyCommittedEntries_commitIndex]
    exact hlt.le

end RaftNode

open RaftNode

theorem commit_rule {n : RaftNode} {lease : Option Instant} {next matched : IndexMap}
    (hs : n.state = .leader lease next matched) (hp : n.config.peerIds.Nodup)
    (hm : ∀ p, p ∈ matched ↔ p ∈ n.config.peerIds) :
    (n.reached matched).length = n.config.peers.length + 1 ∧
    n.config.quorumSize ≤ (n.reached matched).length ∧
    (∀ c, n.tryAdvanceCommitIndex.commitIndex = c → c ≠ n.commitIndex →
      n.commitIndex < c ∧ n.QuorumAt matched c ∧ n.OwnEntry c ∧
        ∀ c', n.QuorumAt matched c' → c' ≤ c) ∧
    ∀ c, n.QuorumAt matched c → (∀ c', n.QuorumAt matched c' → c' ≤ c) → n.OwnEntry c →
      ∀ c', n.QuorumAt matched c' → c' ≤ n.tryAdvanceCommitIndex.commitIndex := by
  have hperm : matched.keys.Perm n.config.peerIds :=
    (perm_ext_iff_of_nodup matched.keys_nodup hp).mpr hm
  have hq := (quorumSize_le_length_reached hperm).1
  refine ⟨length_reached hperm, hq, ?changed, ?skipped⟩
  case changed =>
    rintro c rfl hne
    rcases n.tryAdvanceCommitIndex_cases with heq |
      ⟨lease', next', matched', c, e, hs', -, hc, hlt, he, ht, heq⟩
    · exact (hne (congrArg commitIndex heq)).elim
    · obtain ⟨-, -, rfl⟩ := RaftState.leader.inj (hs.symm.trans hs')
      have hcommit : n.tryAdvanceCommitIndex.commitIndex = c := by
        rw [heq, applyCommittedEntries_commitIndex]
      rw [hcommit]
      exact ⟨hlt, le_countP_of_insertionSort hq hc,
        ⟨e, he, ht, fun hcont => getLogEntry_index hcont he⟩,
        fun c' hc' => le_of_countP_insertionSort hc' hc⟩
  case skipped =>
    intro c hqc hmax hown c' hc'
    -- The largest index that a quorum has reached is the one that the leader reads off.
    obtain ⟨v, hv⟩ := exists_majorityIndex hperm
    obtain rfl : c = v :=
      le_antisymm (le_of_countP_insertionSort hqc hv) (hmax v (le_countP_of_insertionSort hq hv))
    obtain ⟨e, he, ht, -⟩ := hown
    rcases Nat.lt_or_ge n.commitIndex c with hlt | hge
    · rw [tryAdvanceCommitIndex_of_ownEntry hs hperm hv hlt he ht]
      exact hmax c' hc'
    · exact (hmax c' hc').trans (hge.trans n.le_tryAdvanceCommitIndex)

section Sample

def threeAcknowledged : IndexMap :=
  ⟨[⟨2, 3⟩, ⟨3, 2⟩, ⟨4, 0⟩], by simp [NodupKeys, keys]⟩

-- A leader of four nodes, the second entry of which is of its own term.
def leaderOfFour : RaftNode where
  config := { id := 1, peers := [⟨2⟩, ⟨3⟩, ⟨4⟩] }
  currentTerm := 2
  log := [⟨1, 1, .noOp, .noOp⟩, ⟨2, 2, .noOp, .noOp⟩, ⟨2, 3, .noOp, .noOp⟩]
  state := .leader none ∅ threeAcknowledged

theorem commit_rule_four : leaderOfFour.tryAdvanceCommitIndex.commitIndex = 2 ∧
    leaderOfFour.QuorumAt threeAcknowledged 2 ∧ leaderOfFour.OwnEntry 2 := by
  have hc : leaderOfFour.tryAdvanceCommitIndex.commitIndex = 2 := by decide +kernel
  obtain ⟨-, -, hchanged, -⟩ := commit_rule (n := leaderOfFour) rfl (by decide) fun _ => Iff.rfl
  obtain ⟨-, hq, ho, -⟩ := hchanged 2 hc (by decide)
  exact ⟨hc, hq, ho⟩

end Sample

end Raft
