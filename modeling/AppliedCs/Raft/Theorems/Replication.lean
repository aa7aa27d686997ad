import AppliedCs.Raft.Theorems.Refinement

namespace Raft

open ReplicatedLog Quorum RaftNode

variable {n : RaftNode}

-- What the entries of a request that passed the consistency check make of the log.
theorem Offers.withEntries (ho : Offers M a req) (hanch : Anchored (protocol M) a n.log)
    (hv : Valid M a) (hp : n.prevConflict req = none) : (req.prevLogIndex = 0 ∧ req.entries = []) ∨
    (a.leader req.term ≠ none ∧ req.prevLogIndex + req.entries.length ≤ (a.llog req.term).length ∧
      (n.withEntries req).log =
        merge n.log ((a.llog req.term).take (req.prevLogIndex + req.entries.length))) := by
  cases ho.2
  case inl hidle =>
    exact .inl ⟨prev_of_idle hidle (fun _ => hv.inv.term_pos hanch) hp, hidle.1⟩
  case inr hoff =>
    have ⟨hl, hx⟩ := hoff
    have hm := hv.matching hanch req.term
    exact .inr ⟨hl, hx.length_le, withEntries_eq_merge hx (hv.aligned _) hm hp⟩

namespace Refines

variable (h : Refines M a i n)

include h

theorem followLeader (hv : Valid M a) (req : AppendEntriesRequest) (now : Instant) :
    Simulated M a i (n.followLeader req now) fun _ => True := by
  unfold RaftNode.followLeader
  split
  case isTrue hgt =>
    have ⟨a', hs, hv', hr, _⟩ := stepDown h.toAgrees hv hgt (some req.leaderId)
    exact ⟨a', hs, hv', { hr with }, trivial⟩
  case isFalse => exact .refl hv { h with candidate := nofun, leader := nofun } trivial

theorem acceptEntries (hv : Valid M a) (hi : i ∈ M.members)
    (ho : Offers M a req) (hT : n.currentTerm = req.term)
    (hst : n.state = .follower (some req.leaderId)) (hp : n.prevConflict req = none) :
    Simulated M a i (n.acceptEntries req)
      (Stored M · ⟨i, req, ⟨n.currentTerm, true, none, none⟩⟩) := by
  cases ho.withEntries (h.anchored hv) hv hp
  case inl hidle =>
    refine .refl hv (h.congr ?_ ?_ ?_ ?_ ?_) ⟨ho.1, hi, fun _ => by simp [hidle]⟩ <;>
      simp [withEntries, hidle.2]
  case inr hacc =>
    obtain ⟨hl, hm, hlog⟩ := hacc
    have hcur : a.cur i = req.term := h.term.trans hT
    have hstep : Step (protocol M) i a _ :=
      .accept (req.prevLogIndex + req.entries.length) (by rwa [hcur]) (by rwa [hcur])
    refine ⟨_, .single hstep, ⟨hv.inv.step hstep, hv.aligned⟩, ?_, ho.1, hi, fun _ => ?_⟩
    · refine
        { config := by simp [h.config]
          term := by simp [h.term]
          log := by simp [h.log, hlog, hcur]
          vote := by simp [h.vote]
          candidate := by simp [hst]
          leader := by simp [hst] }
    · simp [hcur]

theorem handleAppendEntries (hv : Valid M a) (hi : i ∈ M.members)
    (ho : Offers M a req) (now : Instant) : Simulated M a i (n.handleAppendEntries req now).1
      (Stored M · ⟨i, req, (n.handleAppendEntries req now).2⟩) := by
  unfold RaftNode.handleAppendEntries
  split
  case isTrue => exact .refl hv h ⟨ho.1, hi, nofun⟩
  case isFalse hlt =>
    refine (h.followLeader hv req now).trans hv fun a₁ he hv₁ h₁ _ => ?_
    dsimp only
    split
    case h_1 resp hc =>
      refine .refl hv₁ h₁ ⟨ho.1, hi, fun hs => ?_⟩
      rw [RaftNode.success_of_prevConflict hc] at hs
      cases hs
    case h_2 hc =>
      exact h₁.acceptEntries hv₁ hi (ho.mono he) (n.followLeader_currentTerm req now hlt) rfl hc

theorem tryAdvanceCommitIndex : Refines M a i n.tryAdvanceCommitIndex := by
  rcases n.tryAdvanceCommitIndex_cases with heq | ⟨_, _, _, _, _, _, _, _, _, _, _, heq⟩
  · rwa [heq]
  · rw [heq]
    apply h.congr <;> simp

theorem handleAppendEntriesResponse (hv : Valid M a) (fromId : NodeId)
    (resp : AppendEntriesResponse) (k : ℕ) (now : Instant) :
    Simulated M a i (n.handleAppendEntriesResponse fromId resp k now) fun _ => True := by
  unfold RaftNode.handleAppendEntriesResponse
  split
  case isTrue hgt => exact stepDown h.toAgrees hv hgt none
  split
  case h_2 => exact .refl hv h trivial
  case h_1 lease next matched hs =>
    have hlead : ∀ lease next matched,
        Refines M a i { n with state := .leader lease next matched } :=
      fun _ _ _ => { h with candidate := nofun, leader := fun _ => h.leader hs }
    split
    case isTrue => exact .refl hv (hlead _ _ _).tryAdvanceCommitIndex trivial
    case isFalse =>
      split
      · exact .refl hv (hlead _ _ _) trivial
      · exact .refl hv h trivial

theorem propose (hv : Valid M a) (hok : n.propose command = .ok (n', index)) :
    Simulated M a i n' fun _ => True := by
  have ⟨hl, _, hn⟩ := of_propose_ok hok
  have ⟨_, _, _, hs⟩ := state_of_isLeader hl
  have ⟨h₁, h₂, _⟩ := h.leader hs
  subst hn
  exact appendOwn h.toAgrees hv h₁ h₂ (by simp) (by simp [h.lastLogIndex hv]) n.state (by simp [hs])

theorem batchPropose (hv : Valid M a) (hok : n.batchPropose commands = .ok (n', indices)) :
    Simulated M a i n' fun _ => True := by
  have ⟨hl, hn⟩ := of_batchPropose_ok hok
  have ⟨_, _, _, hs⟩ := state_of_isLeader hl
  have ⟨h₁, h₂, _⟩ := h.leader hs
  subst hn
  refine appendOwn h.toAgrees hv h₁ h₂ ?_ ?_ n.state (by simp [hs])
  · exact fun e he => term_of_mem_batchEntries he
  · exact h.lastLogIndex hv ▸ Contiguous.batchEntries _ _ _

theorem buildAppendEntriesRequest (hv : Valid M a) (hi : i ∈ M.members)
    (peer : NodeId) : Offers M a (n.buildAppendEntriesRequest peer) := by
  have hid : n.config.id = i := h.config ▸ M.config_id i hi
  refine ⟨(congrArg (· ∈ M.members) hid).mpr hi, ?_⟩
  refine (n.idle_or_excerpt (h.contiguous hv) peer).imp_right fun ⟨hl, hx⟩ => ?_
  have ⟨_, _, _, hs⟩ := state_of_isLeader hl
  have ⟨h₁, h₂, _⟩ := h.leader hs
  have hT : (n.buildAppendEntriesRequest peer).term = n.currentTerm := rfl
  rw [hT, h₁, h₂]
  exact ⟨nofun, hx⟩

end Refines

end Raft
