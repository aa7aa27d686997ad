import AppliedCs.Raft.Theorems.Replication

namespace Raft

open ReplicatedLog Transition

structure Sim (M : Membership) (s : Cluster) (a : History) : Prop where
  valid : Valid M a
  nodes : ∀ i ∈ M.members, Refines M a i (s.nodes i)
  voteRequests : ∀ req ∈ s.voteRequests, Stands M a req
  voteReplies : ∀ r ∈ s.voteReplies, Votes M a r
  appendRequests : ∀ req ∈ s.appendRequests, Offers M a req
  appendReplies : ∀ r ∈ s.appendReplies, Stored M a r

-- An election is sound if the term can still be raised, and if a candidate counts votes of this
-- election only.
def Cluster.ElectsSafely (s : Cluster) : Cluster.Event → Prop
  | .startElection i _ => (s.nodes i).currentTerm + 1 < u64Size
  | .requestVoteResponse reply =>
    ¬(s.nodes reply.request.candidateId).countsStaleVote reply.response
  | _ => True

instance (s : Cluster) : (e : Cluster.Event) → Decidable (s.ElectsSafely e)
  | .startElection i _ =>
    inferInstanceAs <| Decidable ((s.nodes i).currentTerm + 1 < u64Size)
  | .requestVoteResponse reply => inferInstanceAs <|
    Decidable (¬(s.nodes reply.request.candidateId).countsStaleVote reply.response)
  | .requestVote .. | .replicate .. | .appendEntries .. | .appendEntriesResponse .. | .propose ..
  | .batchPropose .. | .poll .. | .expire .. => .isTrue trivial

namespace Sim

theorem init (M : Membership) (boot : NodeId → Instant) : Sim M (.init M boot) State.init where
  valid := .init
  nodes _ _ :=
    { config := rfl, term := rfl, log := rfl, vote := rfl, candidate := nofun, leader := nofun }
  voteRequests := nofun
  voteReplies := nofun
  appendRequests := nofun
  appendReplies := nofun

theorem setNode (h : Sim M s a) (hn : Simulated M a i n Q) :
    ∃ a', Extends a a' ∧ Sim M (s.setNode i n) a' ∧ Q a' := by
  have ⟨a', hs, hv, hr, hq⟩ := hn
  have he := hs.to_extends h.valid.inv
  refine ⟨a', he, ?_, hq⟩
  exact
    { valid := hv
      nodes := fun j hj => by
        by_cases hji : j = i
        case pos => simpa [Cluster.setNode, hji] using hr
        case neg => simpa [Cluster.setNode, hji] using (h.nodes j hj).frame hs h.valid hji
      voteRequests := fun req hm => (h.voteRequests req hm).mono he
      voteReplies := fun r hm => (h.voteReplies r hm).mono he
      appendRequests := fun req hm => (h.appendRequests req hm).mono he
      appendReplies := fun r hm => (h.appendReplies r hm).mono he }

theorem step (h : Sim M s₁ a) (hok : s₁.ElectsSafely e) (hs : Cluster.step M s₁ e = some s₂) :
    ∃ a', Extends a a' ∧ Sim M s₂ a' := by
  have hv := h.valid
  cases e <;> simp only [Cluster.step, Option.ite_none_right_eq_some, Option.some.injEq] at hs
  case startElection i now =>
    obtain ⟨hi, rfl⟩ := hs
    have ⟨a', he, h', hq⟩ := h.setNode <|
      Refines.transitionToCandidate (h.nodes i hi).toAgrees hv hi hok now
    exact ⟨a', he, { h' with voteRequests := List.forall_mem_cons.mpr ⟨hq, h'.voteRequests⟩ }⟩
  case requestVote i req now =>
    obtain ⟨⟨hi, hm⟩, rfl⟩ := hs
    have ⟨a', he, h', hq⟩ := h.setNode <|
      (h.nodes i hi).handleRequestVote hv hi (h.voteRequests req hm) now
    exact ⟨a', he, { h' with voteReplies := List.forall_mem_cons.mpr ⟨hq, h'.voteReplies⟩ }⟩
  case requestVoteResponse r =>
    obtain ⟨hm, rfl⟩ := hs
    have hr := h.voteReplies r hm
    have ⟨a', he, h', _⟩ := h.setNode <| (h.nodes _ hr.1).handleRequestVoteResponse hv hr rfl hok
    exact ⟨a', he, h'⟩
  case replicate i peer =>
    obtain ⟨hi, rfl⟩ := hs
    have hq := (h.nodes i hi).buildAppendEntriesRequest hv hi peer
    exact ⟨a, .refl a, { h with appendRequests := List.forall_mem_cons.mpr ⟨hq, h.appendRequests⟩ }⟩
  case appendEntries i req now =>
    obtain ⟨⟨hi, hm⟩, rfl⟩ := hs
    have ⟨a', he, h', hq⟩ := h.setNode <|
      (h.nodes i hi).handleAppendEntries hv hi (h.appendRequests req hm) now
    exact ⟨a', he, { h' with appendReplies := List.forall_mem_cons.mpr ⟨hq, h'.appendReplies⟩ }⟩
  case appendEntriesResponse r now =>
    obtain ⟨hm, rfl⟩ := hs
    have hr := h.appendReplies r hm
    have ⟨a', he, h', _⟩ := h.setNode <| (h.nodes _ hr.1).handleAppendEntriesResponse hv
      r.follower r.response r.request.entries.length now
    exact ⟨a', he, h'⟩
  case propose i command =>
    have ⟨hi, hs⟩ := hs
    split at hs
    case h_2 => exact ⟨a, .refl a, Option.some.inj hs ▸ h⟩
    case h_1 n _ hp =>
      cases hs
      have ⟨a', he, h', _⟩ := h.setNode <| (h.nodes i hi).propose hv hp
      exact ⟨a', he, { h' with }⟩
  case batchPropose i commands =>
    have ⟨hi, hs⟩ := hs
    split at hs
    case h_2 => exact ⟨a, .refl a, Option.some.inj hs ▸ h⟩
    case h_1 n _ hp =>
      cases hs
      have ⟨a', he, h', _⟩ := h.setNode <| (h.nodes i hi).batchPropose hv hp
      exact ⟨a', he, h'⟩
  case poll p =>
    have ⟨_, hs⟩ := hs
    refine ⟨a, .refl a, ?_⟩
    split at hs <;> cases hs <;> exact { h with }
  case expire p =>
    obtain ⟨_, rfl⟩ := hs
    exact ⟨a, .refl a, { h with }⟩

theorem run (h : Sim M s₁ a) (r : Reaches (Cluster.step M) Cluster.ElectsSafely s₁ s₂) :
    ∃ a', Extends a a' ∧ Sim M s₂ a' := by
  refine r.invariant (P := fun s => ∃ a', Extends a a' ∧ Sim M s a') ⟨a, .refl a, h⟩ ?_
  rintro s s' e ⟨a₁, he₁, h₁⟩ hok hs
  have ⟨a₂, he₂, h₂⟩ := h₁.step hok hs
  exact ⟨a₂, he₁.trans he₂, h₂⟩

end Sim

end Raft
