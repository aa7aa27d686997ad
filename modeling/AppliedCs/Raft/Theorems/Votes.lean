import AppliedCs.Lib.Transition
import AppliedCs.Raft.Calls
import AppliedCs.Raft.Theorems.Node

namespace Raft

open Transition

namespace RaftNode

-- The votes that a call casts, each with its term: granted requests, and the node's own vote when
-- it becomes a candidate. An answer to a pre-vote request is not a vote.
def votesCast (n : RaftNode) : Call → List (ℕ × NodeId)
  | .transitionToCandidate now => [((n.transitionToCandidate now).currentTerm, n.config.id)]
  | .handleRequestVote req now =>
    let response := (n.handleRequestVote req now).2
    if response.voteGranted then [(response.term, req.candidateId)] else []
  | .handlePreVoteResponse fromId resp now =>
    let (n', won) := n.handlePreVoteResponse fromId resp now
    if won then [(n'.currentTerm, n'.config.id)] else []
  | _ => []

-- Whether the call makes the node a candidate.
def stands (n : RaftNode) : Call → Bool
  | .transitionToCandidate _ => true
  | .handlePreVoteResponse fromId resp now => (n.handlePreVoteResponse fromId resp now).2
  | _ => false

-- How a call that casts `votes` changes the term and the vote.
structure Voting (n n' : RaftNode) (votes : List (ℕ × NodeId)) : Prop where
  term : n.currentTerm ≤ n'.currentTerm
  keeps : n'.currentTerm = n.currentTerm → ∀ c, n.votedFor = some c → n'.votedFor = some c
  casts : ∀ v ∈ votes, v.1 = n'.currentTerm ∧ n'.votedFor = some v.2

namespace Voting

theorem same (ht : n'.currentTerm = n.currentTerm) (hv : n'.votedFor = n.votedFor) :
    Voting n n' [] where
  term := le_of_eq ht.symm
  keeps _ _ := hv ▸ id
  casts := nofun

theorem raised (ht : n.currentTerm < n'.currentTerm) : Voting n n' [] where
  term := le_of_lt ht
  keeps h := absurd h (Nat.ne_of_gt ht)
  casts := nofun

theorem trans (h₁ : Voting n₁ n₂ []) (h₂ : Voting n₂ n₃ votes) : Voting n₁ n₃ votes where
  term := h₁.term.trans h₂.term
  keeps h c hc := by
    have := h₁.term
    have := h₂.term
    exact h₂.keeps (by omega) c <| h₁.keeps (by omega) c hc
  casts := h₂.casts

end Voting

theorem voting_transitionToCandidate (h : n.currentTerm + 1 < u64Size) (now : Instant) :
    Voting n (n.transitionToCandidate now)
      [((n.transitionToCandidate now).currentTerm, n.config.id)] := by
  have hmod : (n.transitionToCandidate now).currentTerm = n.currentTerm + 1 := Nat.mod_eq_of_lt h
  exact
    { term := by omega
      keeps := fun h => absurd h (by omega)
      casts := by simp [transitionToCandidate] }

theorem voting_decideVote (n : RaftNode) (req : RequestVoteRequest) (now : Instant) :
    Voting n (n.decideVote req now).1
      (if (n.decideVote req now).2.voteGranted then
        [((n.decideVote req now).2.term, req.candidateId)] else []) := by
  simp only [decideVote]
  split
  case isFalse => exact .same rfl rfl
  case isTrue h =>
    simp only [Bool.and_eq_true, Bool.or_eq_true, Option.isNone_iff_eq_none, beq_iff_eq] at h
    refine { term := le_rfl, keeps := fun _ c hc => ?_, casts := by simp [resetElectionTimeout] }
    simpa [hc, resetElectionTimeout, eq_comm] using h.1

theorem voting_handleRequestVote (n : RaftNode) (req : RequestVoteRequest) (now : Instant) :
    Voting n (n.handleRequestVote req now).1 (n.votesCast (.handleRequestVote req now)) := by
  simp only [votesCast, handleRequestVote]
  split
  case isTrue => exact .same rfl rfl
  case isFalse =>
    split
    case isTrue h => exact (Voting.raised h).trans (voting_decideVote ..)
    case isFalse => exact voting_decideVote ..

theorem voting_handleRequestVoteResponse (n : RaftNode) (fromId : NodeId)
    (resp : RequestVoteResponse) : Voting n (n.handleRequestVoteResponse fromId resp) [] := by
  unfold handleRequestVoteResponse
  split
  case isTrue h => exact .raised h
  split
  · split
    case isFalse => exact .same rfl rfl
    case isTrue =>
      dsimp only
      split <;> exact .same rfl rfl
  · exact .same rfl rfl

theorem voting_followLeader (n : RaftNode) (req : AppendEntriesRequest) (now : Instant) :
    Voting n (n.followLeader req now) [] := by
  simp only [followLeader]
  split
  case isTrue h => exact .raised h
  case isFalse => exact .same rfl rfl

theorem voting_handleAppendEntries (n : RaftNode) (req : AppendEntriesRequest) (now : Instant) :
    Voting n (n.handleAppendEntries req now).1 [] := by
  unfold handleAppendEntries
  split
  case isTrue => exact .same rfl rfl
  case isFalse =>
    dsimp only
    split
    · exact voting_followLeader ..
    · exact (voting_followLeader n req now).trans (.same (by simp) (by simp))

theorem voting_handleAppendEntriesResponse (n : RaftNode) (fromId : NodeId)
    (resp : AppendEntriesResponse) (entriesSent : ℕ) (now : Instant) :
    Voting n (n.handleAppendEntriesResponse fromId resp entriesSent now) [] := by
  unfold handleAppendEntriesResponse
  split
  case isTrue h => exact .raised h
  split
  · split
    case isTrue => exact .same (by simp) (by simp)
    case isFalse => split <;> exact .same rfl rfl
  · exact .same rfl rfl

theorem voting_adoptSnapshotTerm (n : RaftNode) (req : InstallSnapshotRequest) (now : Instant) :
    Voting n (n.adoptSnapshotTerm req now) [] := by
  unfold adoptSnapshotTerm
  split
  case isTrue h => exact .raised h
  case isFalse => exact .same rfl rfl

theorem voting_installSnapshotData (n : RaftNode) (index term : ℕ) :
    Voting n (n.installSnapshotData index term) [] := by
  unfold installSnapshotData
  split
  · exact .same rfl rfl
  · split
    · exact .same rfl rfl
    · dsimp only
      split <;> exact .same rfl rfl

theorem voting_handleInstallSnapshot (n : RaftNode) (req : InstallSnapshotRequest) (now : Instant) :
    Voting n (n.handleInstallSnapshot req now).1 [] := by
  unfold handleInstallSnapshot
  split
  case isTrue => exact .same rfl rfl
  have hchunk : Voting (n.adoptSnapshotTerm req now)
      ((n.adoptSnapshotTerm req now).writeSnapshotChunk req) [] := .same rfl rfl
  refine ((voting_adoptSnapshotTerm n req now).trans hchunk).trans ?_
  split
  case isTrue => exact voting_installSnapshotData ..
  case isFalse => exact .same rfl rfl

theorem voting_clusterHandleInstallSnapshot (n : RaftNode) (req : InstallSnapshotRequest)
    (now : Instant) : Voting n (RaftClusterNode.handleInstallSnapshot n req now).1 [] := by
  unfold RaftClusterNode.handleInstallSnapshot
  split
  case isTrue => exact .same rfl rfl
  case isFalse =>
    refine (voting_adoptSnapshotTerm n req now).trans ?_
    split <;> exact .same rfl rfl

theorem voting_handlePreVoteResponse (fromId : NodeId) (resp : RequestVoteResponse) (now : Instant)
    (h : (n.handlePreVoteResponse fromId resp now).2 → n.currentTerm + 1 < u64Size) :
    Voting n (n.handlePreVoteResponse fromId resp now).1
      (n.votesCast (.handlePreVoteResponse fromId resp now)) := by
  simp only [votesCast]
  unfold handlePreVoteResponse at h ⊢
  split
  · exact .same rfl rfl
  case h_2 preVote hp =>
    simp only [hp] at h
    split
    case isFalse => exact .same rfl rfl
    case isTrue h' =>
      simp only [h', if_true] at h
      dsimp only
      split
      case isTrue hq =>
        rw [if_pos hq] at h
        have hsame : Voting n { n with preVoteState := none } [] := .same rfl rfl
        exact hsame.trans <|
          voting_transitionToCandidate (n := { n with preVoteState := none }) (h rfl) now
      case isFalse => exact .same rfl rfl

theorem voting_propose (n : RaftNode) (command : Command) :
    Voting n (n.call (.propose command)) [] := by
  simp only [call, propose]
  split <;> exact .same rfl rfl

theorem voting_batchPropose (n : RaftNode) (commands : List Command) :
    Voting n (n.call (.batchPropose commands)) [] := by
  simp only [call, batchPropose]
  split <;> exact .same rfl rfl

theorem voting_transferLeadership (n : RaftNode) (target : NodeId) :
    Voting n (n.call (.transferLeadership target)) [] := by
  simp only [call, transferLeadership]
  split
  case isTrue => split <;> exact .same rfl rfl
  case isFalse => exact .same rfl rfl

theorem voting_startPreVote (n : RaftNode) : Voting n n.startPreVote.1 [] := by
  unfold startPreVote
  split <;> exact .same rfl rfl

theorem voting_call (h : n.stands c → n.currentTerm + 1 < u64Size) :
    Voting n (n.call c) (n.votesCast c) := by
  cases c
  case transitionToCandidate now => exact voting_transitionToCandidate (h rfl) now
  case transitionToLeader => exact .same rfl rfl
  case handleRequestVote => exact voting_handleRequestVote ..
  case handleRequestVoteResponse => exact voting_handleRequestVoteResponse ..
  case handleAppendEntries => exact voting_handleAppendEntries ..
  case handleAppendEntriesResponse => exact voting_handleAppendEntriesResponse ..
  case propose => exact voting_propose ..
  case batchPropose => exact voting_batchPropose ..
  case handleInstallSnapshot => exact voting_handleInstallSnapshot ..
  case clusterHandleInstallSnapshot => exact voting_clusterHandleInstallSnapshot ..
  case installSnapshotData => exact voting_installSnapshotData ..
  case createSnapshot | compactLog => exact .same rfl rfl
  case transferLeadership => exact voting_transferLeadership ..
  case startPreVote => exact voting_startPreVote ..
  case handlePreVoteRequest => exact .same rfl rfl
  case handlePreVoteResponse fromId resp now => exact voting_handlePreVoteResponse fromId resp now h

end RaftNode

structure Voter where
  node : RaftNode
  votes : List (ℕ × NodeId) := []

namespace Voter

def step (s : Voter) (c : Call) : Option Voter :=
  some ⟨s.node.call c, s.node.votesCast c ++ s.votes⟩

-- A node stands for election only as long as its term can be raised.
def StandsSafely (s : Voter) (c : Call) : Prop :=
  s.node.stands c → s.node.currentTerm + 1 < u64Size

instance (s : Voter) (c : Call) : Decidable (s.StandsSafely c) :=
  inferInstanceAs <| Decidable (_ → _)

structure Inv (s : Voter) : Prop where
  term_le : ∀ v ∈ s.votes, v.1 ≤ s.node.currentTerm
  current : ∀ v ∈ s.votes, v.1 = s.node.currentTerm → s.node.votedFor = some v.2
  unique : ∀ v ∈ s.votes, ∀ w ∈ s.votes, v.1 = w.1 → v.2 = w.2

theorem Inv.step (h : Inv s₁) (hok : s₁.StandsSafely c) (hs : s₁.step c = some s₂) : Inv s₂ := by
  have hv := RaftNode.voting_call hok
  cases hs
  have hle := hv.term
  -- Votes of the new term, old and new, are for the candidate that the node has on record.
  have hcur : ∀ v ∈ s₁.node.votesCast c ++ s₁.votes, v.1 = (s₁.node.call c).currentTerm →
      (s₁.node.call c).votedFor = some v.2 := by
    intro v hm ht
    cases List.mem_append.mp hm
    case inl hm => exact (hv.casts v hm).2
    case inr hm =>
      have := h.term_le v hm
      exact hv.keeps (by omega) _ <| h.current v hm (by omega)
  refine { term_le := fun v hm => ?_, current := hcur, unique := fun v hm w hw ht => ?_ }
  · cases List.mem_append.mp hm
    case inl hm => exact le_of_eq (hv.casts v hm).1
    case inr hm => exact (h.term_le v hm).trans hle
  · by_cases hT : v.1 = (s₁.node.call c).currentTerm
    case pos => exact Option.some.inj <| (hcur v hm hT).symm.trans (hcur w hw (ht ▸ hT))
    case neg =>
      have hold : ∀ u ∈ s₁.node.votesCast c ++ s₁.votes, u.1 ≠ (s₁.node.call c).currentTerm →
          u ∈ s₁.votes := fun u hu hne =>
        (List.mem_append.mp hu).resolve_left fun hu => hne (hv.casts u hu).1
      exact h.unique v (hold v hm hT) w (hold w hw (ht ▸ hT)) ht

end Voter

open Voter

-- The term never goes back, and in each term the node votes for one candidate.
theorem vote_unique {n : RaftNode} {s₁ s₂ : Voter} (r₁ : Reaches step StandsSafely ⟨n, []⟩ s₁)
    (r₂ : Reaches step StandsSafely s₁ s₂) : s₁.node.currentTerm ≤ s₂.node.currentTerm ∧
    ∀ T c c', (T, c) ∈ s₂.votes → (T, c') ∈ s₂.votes → c = c' := by
  constructor
  case left =>
    refine r₂.invariant (P := fun s => s₁.node.currentTerm ≤ s.node.currentTerm) le_rfl ?_
    intro s s' c h hok hs
    cases hs
    exact h.trans (RaftNode.voting_call hok).term
  case right =>
    have h := Reaches.invariant (P := Inv) (Relation.ReflTransGen.trans r₁ r₂)
      ⟨nofun, nofun, nofun⟩ fun h hok hs => h.step hok hs
    exact fun T c c' hc hc' => h.unique _ hc _ hc' rfl

theorem vote_unique_after_request :
    ∃ s, Reaches step StandsSafely ⟨.new { id := 1, peers := [⟨2⟩, ⟨3⟩] } 0, []⟩ s ∧
      s.node.currentTerm = 1 ∧ (1, 2) ∈ s.votes ∧ ∀ c, (1, c) ∈ s.votes → 2 = c := by
  have ⟨s, r, ht, hv⟩ : ∃ s, Reaches step StandsSafely
      ⟨.new { id := 1, peers := [⟨2⟩, ⟨3⟩] } 0, []⟩ s ∧
      s.node.currentTerm = 1 ∧ (1, 2) ∈ s.votes :=
    Reaches.exists_of_run [.handleRequestVote ⟨1, 2, 0, 0⟩ 0, .handleRequestVote ⟨1, 3, 0, 0⟩ 0]
      (by decide +kernel)
  exact ⟨s, r, ht, hv, fun c hc => (vote_unique r .refl).2 1 2 c hv hc⟩

-- A request with the largest term makes the next election wrap around to term 0, in which the node
-- has voted before.
theorem term_wraps :
    ∃ s₁ s₂, Reaches step anyEvent ⟨.new { id := 1, peers := [⟨2⟩, ⟨3⟩] } 0, []⟩ s₁ ∧
      Reaches step anyEvent s₁ s₂ ∧
      s₂.node.currentTerm < s₁.node.currentTerm ∧ (0, 2) ∈ s₂.votes ∧ (0, 1) ∈ s₂.votes := by
  have ⟨s₁, r₁, h⟩ : ∃ s₁, Reaches step anyEvent
      ⟨.new { id := 1, peers := [⟨2⟩, ⟨3⟩] } 0, []⟩ s₁ ∧
      (run step anyEvent s₁ [.transitionToCandidate 0]).any (fun s₂ =>
        decide (s₂.node.currentTerm < s₁.node.currentTerm ∧ (0, 2) ∈ s₂.votes ∧
          (0, 1) ∈ s₂.votes)) :=
    Reaches.exists_of_run
      [.handleRequestVote ⟨0, 2, 0, 0⟩ 0, .handleRequestVote ⟨u64Size - 1, 2, 0, 0⟩ 0]
      (by decide +kernel)
  have ⟨s₂, r₂, h⟩ := Reaches.exists_of_run [Call.transitionToCandidate 0] h
  exact ⟨s₁, s₂, r₁, r₂, h⟩

end Raft
