import AppliedCs.Lib.Quorum
import AppliedCs.Lib.ReplicatedLog.Safety
import AppliedCs.Raft.Cluster
import AppliedCs.Raft.Theorems.Node

-- The cluster refines the replicated log of `Lib.ReplicatedLog`: every handler does what a few
-- steps of its node do, and every message reports a decision of the history.
namespace Raft

open ReplicatedLog Quorum

def protocol (M : Membership) : Protocol NodeId LogEntry where
  term := LogEntry.term
  quorum := Majority M.members
  meet := Majority.meet

abbrev History := State NodeId LogEntry

variable {a₁ a₂ : History}
structure Valid (M : Membership) (a : History) : Prop where
  inv : Inv (protocol M) a
  aligned : ∀ T, Contiguous 0 (a.llog T)

namespace Valid

theorem init : Valid M State.init where
  inv := Inv.init
  aligned _ := Contiguous.nil

theorem contiguous (hv : Valid M a) (h : Anchored (protocol M) a l) : Contiguous 0 l := by
  cases hl : l.getLast?
  case none => simp [List.getLast?_eq_none_iff.mp hl]
  case some e => exact (hv.aligned _).of_isPrefix (h.prefix_of_getLast? hl)

theorem matching (hv : Valid M a) (h : Anchored (protocol M) a l) (T : ℕ) : Matching l (a.llog T) :=
  fun _ _ _ he hf ht => h.take_eq_take (hv.inv.llog_anch T) he hf ht

end Valid

-- What node `i` has decided is what its state says.
structure Agrees (M : Membership) (a : History) (i : NodeId) (n : RaftNode) : Prop where
  config : n.config = M.config i
  term : a.cur i = n.currentTerm
  log : a.log i = n.log
  vote : a.vote i n.currentTerm = n.votedFor

namespace Agrees

variable (h : Agrees M a i n) (hv : Valid M a)

include h hv

theorem anchored : Anchored (protocol M) a n.log :=
  h.log ▸ hv.inv.log_anch i

theorem contiguous : Contiguous 0 n.log :=
  hv.contiguous (h.anchored hv)

theorem lastLogIndex : n.lastLogIndex = n.log.length :=
  RaftNode.lastLogIndex_eq (h.contiguous hv)

theorem vote_later (hT : n.currentTerm < T) : a.vote i T = none := by
  cases hvote : a.vote i T
  case none => rfl
  case some c =>
    have := h.term ▸ hv.inv.vote_cur hvote
    omega

end Agrees

structure Refines (M : Membership) (a : History) (i : NodeId) (n : RaftNode) : Prop
  extends Agrees M a i n where
  candidate : ∀ {votes}, n.state = .candidate votes →
    a.stand i n.currentTerm = some n.log ∧ a.leader n.currentTerm ≠ some i ∧ votes ⊆ M.members ∧
    ∀ v ∈ votes, a.vote v n.currentTerm = some i
  leader : ∀ {lease next matched}, n.state = .leader lease next matched →
    a.leader n.currentTerm = some i ∧ a.llog n.currentTerm = n.log ∧
    a.acked i n.currentTerm = n.log.length

namespace Refines

theorem congr (h : Refines M a i n₁) (hc : n₂.config = n₁.config)
    (ht : n₂.currentTerm = n₁.currentTerm) (hv : n₂.votedFor = n₁.votedFor) (hl : n₂.log = n₁.log)
    (hs : n₂.state = n₁.state) : Refines M a i n₂ where
  config := hc.trans h.config
  term := h.term.trans ht.symm
  log := h.log.trans hl.symm
  vote := by rw [ht, h.vote, hv]
  candidate hs' := by simpa [ht, hl] using h.candidate (hs ▸ hs')
  leader hs' := by simpa [ht, hl] using h.leader (hs ▸ hs')

theorem frame (h : Refines M a₁ i n) (hs : Steps (protocol M) j a₁ a₂) (hv : Valid M a₁)
    (hi : i ≠ j) : Refines M a₂ i n := by
  have hf := hs.frame hv.inv
  have he := hs.to_extends hv.inv
  refine
    { config := h.config
      term := (hf.cur hi).trans h.term
      log := (hf.log hi).trans h.log
      vote := by rw [hf.vote hi, h.vote]
      candidate := fun hc => ?_
      leader := fun hl => ?_ }
  · have ⟨h₁, h₂, h₃, h₄⟩ := h.candidate hc
    exact ⟨he.stand h₁, fun hl => h₂ (hf.leader hi hl), h₃, fun v hv => he.vote (h₄ v hv)⟩
  · have ⟨h₁, h₂, h₃⟩ := h.leader hl
    exact ⟨he.leader h₁, (hf.llog hi h₁).trans h₂, by rw [hf.acked hi, h₃]⟩

end Refines

-- Node `i` can get to `n` by steps of its own that establish `Q`.
def Simulated (M : Membership) (a : History) (i : NodeId) (n : RaftNode) (Q : History → Prop) :
    Prop :=
  ∃ a', Steps (protocol M) i a a' ∧ Valid M a' ∧ Refines M a' i n ∧ Q a'

namespace Simulated

theorem refl (hv : Valid M a) (h : Refines M a i n) (hq : Q a) : Simulated M a i n Q :=
  ⟨a, .refl, hv, h, hq⟩

theorem trans (hv : Valid M a) (h : Simulated M a i n₁ Q₁)
    (h' : ∀ a₁, Extends a a₁ → Valid M a₁ → Refines M a₁ i n₁ → Q₁ a₁ → Simulated M a₁ i n₂ Q₂) :
    Simulated M a i n₂ Q₂ :=
  have ⟨a₁, hs₁, hv₁, hr₁, hq₁⟩ := h
  have ⟨a₂, hs₂, hv₂, hr₂, hq₂⟩ := h' a₁ (hs₁.to_extends hv.inv) hv₁ hr₁ hq₁
  ⟨a₂, Relation.ReflTransGen.trans hs₁ hs₂, hv₂, hr₂, hq₂⟩

end Simulated

-- What the messages report.
def Stands (M : Membership) (a : History) (req : RequestVoteRequest) : Prop :=
  req.candidateId ∈ M.members ∧ ∃ l, a.stand req.candidateId req.term = some l ∧
    req.lastLogIndex = l.length ∧ req.lastLogTerm = (protocol M).lastTerm l

def Votes (M : Membership) (a : History) (r : VoteReply) : Prop :=
  r.request.candidateId ∈ M.members ∧ r.voter ∈ M.members ∧
    (r.response.voteGranted → a.vote r.voter r.response.term = some r.request.candidateId)

def Offers (M : Membership) (a : History) (req : AppendEntriesRequest) : Prop :=
  req.leaderId ∈ M.members ∧ (Idle req ∨ (a.leader req.term ≠ none ∧ Excerpt (a.llog req.term) req))

theorem Offers.contiguous (h : Offers M a req) (hv : Valid M a) :
    Contiguous req.prevLogIndex req.entries := by
  rcases h.2 with hi | ⟨_, hx⟩
  · exact hi.1 ▸ .nil
  · exact hx.contiguous (hv.aligned _)

def Stored (M : Membership) (a : History) (r : AppendReply) : Prop :=
  r.request.leaderId ∈ M.members ∧ r.follower ∈ M.members ∧
    (r.response.success →
      r.request.prevLogIndex + r.request.entries.length ≤ a.acked r.follower r.request.term)

section

variable (he : Extends a₁ a₂)

include he

theorem Stands.mono (h : Stands M a₁ req) : Stands M a₂ req :=
  ⟨h.1, h.2.imp fun _ h => ⟨he.stand h.1, h.2⟩⟩

theorem Votes.mono (h : Votes M a₁ r) : Votes M a₂ r :=
  ⟨h.1, h.2.1, fun hg => he.vote (h.2.2 hg)⟩

theorem Offers.mono (h : Offers M a₁ areq) : Offers M a₂ areq :=
  ⟨h.1, h.2.imp_right fun ⟨hl, hx⟩ => ⟨he.leader_ne hl, hx.mono (he.llog _)⟩⟩

theorem Stored.mono (h : Stored M a₁ ar) : Stored M a₂ ar :=
  ⟨h.1, h.2.1, fun hs => (h.2.2 hs).trans (he.acked _ _)⟩

end

namespace RaftNode

def isCandidate (n : RaftNode) : Bool :=
  match n.state with
  | .candidate _ => true
  | _ => false

-- The response is a vote of an earlier election of the node, and would be counted in this one.
def countsStaleVote (n : RaftNode) (resp : RequestVoteResponse) : Bool :=
  resp.voteGranted && resp.term < n.currentTerm && n.isCandidate

end RaftNode

namespace Refines

section

variable (h : Agrees M a i n) (hv : Valid M a)

include h hv

theorem stepDown (hT : n.currentTerm < T)
    (leaderId : Option NodeId) : Simulated M a i (n.stepDown T leaderId) fun _ => True := by
  have hs : a.cur i ≤ T := h.term ▸ le_of_lt hT
  refine ⟨_, .single (.observe T hs), ⟨hv.inv.observe hs, hv.aligned⟩, ?_, trivial⟩
  exact
    { config := h.config
      term := by simp [RaftNode.stepDown]
      log := h.log
      vote := h.vote_later hv hT
      candidate := nofun
      leader := nofun }

theorem transitionToCandidate (hi : i ∈ M.members)
    (hT : n.currentTerm + 1 < u64Size) (now : Instant) :
    Simulated M a i (n.transitionToCandidate now)
      (Stands M · (n.transitionToCandidate now).buildRequestVoteRequest) := by
  have hmod : (n.currentTerm + 1) % u64Size = n.currentTerm + 1 := Nat.mod_eq_of_lt hT
  have hid : n.config.id = i := h.config ▸ M.config_id i hi
  refine ⟨_, .single .stand, ⟨hv.inv.stand i, hv.aligned⟩, ?_, ?_⟩
  · refine
      { config := h.config
        term := ?_
        log := h.log
        vote := ?_
        candidate := fun hc => ?_
        leader := nofun }
    · simp [RaftNode.transitionToCandidate, hmod, h.term]
    · simp [RaftNode.transitionToCandidate, hmod, h.term, hid]
    · have hvotes := RaftState.candidate.inj hc
      simp only [RaftNode.transitionToCandidate, hmod, ← hvotes, hid, h.term, ← h.log]
      refine ⟨setAt_self .., fun hl => ?_, by simpa using hi, by simp⟩
      have := h.term ▸ hv.inv.leader_le_cur hl
      omega
  · refine ⟨by simpa [RaftNode.buildRequestVoteRequest, RaftNode.transitionToCandidate, hid],
      n.log, ?_, h.lastLogIndex hv, rfl⟩
    simp [RaftNode.transitionToCandidate, RaftNode.buildRequestVoteRequest, hmod, h.term,
      hid, h.log]

theorem upToDate_of_logOk (hi : req.lastLogIndex = l.length)
    (ht : req.lastLogTerm = (protocol M).lastTerm l) (hok : n.logOk req) :
    (protocol M).UpToDate l (a.log i) := by
  have hlast : n.lastLogTerm = (protocol M).lastTerm (a.log i) := h.log ▸ rfl
  simpa [RaftNode.logOk, Protocol.UpToDate, hi, ht, hlast, h.lastLogIndex hv, h.log] using hok

end

section

variable (h : Refines M a i n) (hv : Valid M a) (hi : i ∈ M.members) (hs : Stands M a req)

include h hv hi hs

theorem castVote
    (hT : n.currentTerm = req.term) (hc : n.votedFor = none ∨ n.votedFor = some req.candidateId)
    (hok : n.logOk req) :
    Simulated M a i ({ n with votedFor := some req.candidateId }.resetElectionTimeout now)
      (Votes M · ⟨i, req, ⟨n.currentTerm, true⟩⟩) := by
  have ⟨hm, l, hl, h₁, h₂⟩ := hs
  have hcur : a.cur i = n.currentTerm := h.term
  have hstep : Step (protocol M) i a _ := .grant req.candidateId l (by rw [hcur, hT, hl])
    (by rwa [hcur, h.vote]) (upToDate_of_logOk h.toAgrees hv h₁ h₂ hok)
  have he := hstep.extends hv.inv
  refine ⟨_, .single hstep, ⟨hv.inv.step hstep, hv.aligned⟩, ?_, hm, hi, ?_⟩
  · refine {
      config := h.config, term := h.term, log := h.log, vote := ?_, candidate := ?_
      leader := h.leader }
    · simp [RaftNode.resetElectionTimeout, hcur]
    · intro votes hvotes
      have ⟨h₁, h₂, h₃, h₄⟩ := h.candidate hvotes
      exact ⟨h₁, h₂, h₃, fun v hv => he.vote (h₄ v hv)⟩
  · simp [hcur]

theorem decideVote (hT : n.currentTerm = req.term) :
    Simulated M a i (n.decideVote req now).1 (Votes M · ⟨i, req, (n.decideVote req now).2⟩) := by
  simp only [RaftNode.decideVote]
  split_ifs with hc
  case pos =>
    simp only [Bool.and_eq_true, Bool.or_eq_true, Option.isNone_iff_eq_none, beq_iff_eq] at hc
    exact h.castVote hv hi hs hT hc.1 hc.2
  case neg => exact .refl hv h ⟨hs.1, hi, fun hf => absurd hf Bool.false_ne_true⟩

theorem handleRequestVote (now : Instant) : Simulated M a i (n.handleRequestVote req now).1
      (Votes M · ⟨i, req, (n.handleRequestVote req now).2⟩) := by
  unfold RaftNode.handleRequestVote
  split_ifs with hlt hgt
  case pos => exact .refl hv h ⟨hs.1, hi, nofun⟩
  case pos =>
    refine (stepDown h.toAgrees hv hgt none).trans hv fun a₁ he hv₁ h₁ _ => ?_
    exact h₁.decideVote hv₁ hi (hs.mono he) rfl
  case neg => exact h.decideVote hv hi hs (by omega)

end

-- The votes that a candidate needs are a majority of the cluster.
theorem majority (h : Agrees M a i n) (hi : i ∈ M.members)
    (hs : votes ⊆ M.members) (hq : n.config.quorumSize ≤ votes.card) :
    Majority M.members votes := by
  refine ⟨hs, ?_⟩
  have hp : (M.config i).peerIds.toFinset = M.members.erase i := by
    ext j
    simp [M.mem_peers i hi, and_comm]
  have hc := congrArg Finset.card hp
  rw [List.toFinset_card_of_nodup (M.peers_nodup i hi), Finset.card_erase_of_mem hi] at hc
  simp only [RaftConfig.peerIds, List.length_map] at hc
  simp only [RaftConfig.quorumSize, h.config] at hq
  omega

theorem appendOwn (h : Agrees M a i n) (hv : Valid M a) (hl : a.leader n.currentTerm = some i)
    (hlog : a.llog n.currentTerm = n.log) (hes : ∀ e ∈ es, e.term = n.currentTerm)
    (hc : Contiguous n.log.length es) (state : RaftState)
    (hst : ∀ votes, state ≠ .candidate votes) :
    Simulated M a i { n with log := n.log ++ es, state } fun _ => True := by
  have hcur : a.cur i = n.currentTerm := h.term
  have hstep : Step (protocol M) i a _ :=
    .append es (by rw [hcur, hl]) (by rw [hcur, hlog, h.log]) (by rwa [hcur])
  refine ⟨_, .single hstep, ⟨hv.inv.step hstep, fun T => ?_⟩, ?_, trivial⟩
  · by_cases hT : T = n.currentTerm
    case pos =>
      have := Contiguous.append_iff.mpr ⟨h.contiguous hv, by simpa using hc⟩
      simpa [hT, hcur, h.log] using this
    case neg => simpa [hcur, hT] using hv.aligned T
  · refine
      { config := h.config
        term := h.term
        log := by simp [h.log]
        vote := h.vote
        candidate := fun hc => absurd hc (hst _)
        leader := fun _ => ⟨hl, ?_, ?_⟩ }
    case refine_1 | refine_2 => simp [hcur, h.log]

-- No other node can have won the term for which `i` has a majority.
theorem leader_none (h : Refines M a i n) (hv : Valid M a)
    (hs : n.state = .candidate votes) (hm : Majority M.members votes) :
    a.leader n.currentTerm = none := by
  have ⟨_, h₂, _, h₄⟩ := h.candidate hs
  cases hl : a.leader n.currentTerm
  case none => rfl
  case some c =>
    have ⟨Q, hq, hQ⟩ := hv.inv.elected hl
    have ⟨v, hvq, hvv⟩ := Majority.meet hq hm
    have hc : c = i := by simpa [(hQ v hvq).1] using h₄ v hvv
    exact absurd (hc ▸ hl) h₂

section

variable (h : Refines M a i n) (hv : Valid M a)
  (hi : i ∈ M.members) (hs : n.state = .candidate votes) (hq : n.config.quorumSize ≤ votes.card)

include h hv hi hs hq

theorem elect : ∃ a', Step (protocol M) i a a' ∧ Valid M a' ∧ Agrees M a' i n ∧
      a'.leader n.currentTerm = some i ∧ a'.llog n.currentTerm = n.log := by
  have ⟨h₁, _, h₃, h₄⟩ := h.candidate hs
  have hcur : a.cur i = n.currentTerm := h.term
  have hm := majority h.toAgrees hi h₃ hq
  have hstep : Step (protocol M) i a _ :=
    .elect votes (by rw [hcur, h.leader_none hv hs hm]) (by rw [hcur, h₁, h.log]) hm (by rwa [hcur])
  refine ⟨_, hstep, ⟨hv.inv.step hstep, fun T => ?_⟩, ⟨h.config, h.term, h.log, h.vote⟩, ?_, ?_⟩
  · by_cases hT : T = n.currentTerm
    case pos => simpa [hT, hcur, h.log] using h.contiguous hv
    case neg => simpa [hcur, hT] using hv.aligned T
  · simp [hcur]
  · simp [hcur, h.log]

theorem transitionToLeader : Simulated M a i n.transitionToLeader fun _ => True := by
  have ⟨a₁, hs₁, hv₁, hag, hl, hlog⟩ := h.elect hv hi hs hq
  let noop : LogEntry := ⟨n.currentTerm, n.lastLogIndex + 1, .noOp, .noOp⟩
  have hc : Contiguous n.log.length [noop] := by simp [noop, h.lastLogIndex hv]
  have ⟨a₂, hs₂, hr⟩ :=
    appendOwn hag hv₁ hl hlog (by simp [noop]) hc n.transitionToLeader.state nofun
  exact ⟨a₂, .trans (.single hs₁) hs₂, hr⟩

end

theorem handleRequestVoteResponse (h : Refines M a i n) (hv : Valid M a) (hr : Votes M a r)
    (hc : r.request.candidateId = i) (hok : ¬n.countsStaleVote r.response) :
    Simulated M a i (n.handleRequestVoteResponse r.voter r.response) fun _ => True := by
  have hi : i ∈ M.members := hc ▸ hr.1
  unfold RaftNode.handleRequestVoteResponse
  split
  case isTrue hgt => exact stepDown h.toAgrees hv hgt none
  split
  case h_2 => exact .refl hv h trivial
  case h_1 votes hs =>
    split
    case isFalse => exact .refl hv h trivial
    case isTrue hg =>
      have hT : r.response.term = n.currentTerm := by
        simp [RaftNode.countsStaleVote, RaftNode.isCandidate, hs, hg] at hok
        omega
      have hins : Refines M a i { n with state := .candidate (insert r.voter votes) } := by
        refine { h with candidate := fun hs' => ?_, leader := nofun }
        have ⟨h₁, h₂, h₃, h₄⟩ := h.candidate hs
        rw [← RaftState.candidate.inj hs']
        refine ⟨h₁, h₂, Finset.insert_subset hr.2.1 h₃, ?_⟩
        exact Finset.forall_mem_insert .. |>.mpr ⟨hT ▸ hc ▸ hr.2.2 hg, h₄⟩
      dsimp only
      split_ifs with hq
      case pos => exact hins.transitionToLeader hv hi rfl hq
      case neg => exact .refl hv hins trivial

end Refines

end Raft
