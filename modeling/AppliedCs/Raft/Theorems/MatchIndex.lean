import AppliedCs.Raft.Cluster
import AppliedCs.Raft.Theorems.Node

-- One leader and its followers within one term.
namespace Raft

open ReplicatedLog Transition Cluster RaftNode List

variable {log : List LogEntry}

-- How a follower's log stands to the log `L` of the leader of term `T`: it agrees with it up to
-- every entry of one term at one position, and all its entries of term `T` come from `L`.
structure Trails (T : ℕ) (L log : List LogEntry) : Prop where
  contiguous : Contiguous 0 log
  pos : ∀ e ∈ log, 0 < e.term
  older : ∀ k e, log[k]? = some e → e.term < T ∨ log.take (k + 1) <+: L
  matching : Matching log L

namespace Trails

theorem of_isPrefix (hc : Contiguous 0 L) (hpos : ∀ e ∈ L, 0 < e.term) (hp : log <+: L) :
    Trails T L log where
  contiguous := hc.of_isPrefix hp
  pos e he := hpos e (hp.subset he)
  older _ _ _ := .inr <| (List.take_prefix _ _).trans hp
  matching _ _ _ h _ _ := hp.take_eq_take (List.getElem?_eq_some_iff.mp h |>.1) |>.symm

theorem append (h : Trails T L log) (hes : ∀ e ∈ es, e.term = T) : Trails T (L ++ es) log where
  contiguous := h.contiguous
  pos := h.pos
  older k e he := (h.older k e he).imp_right (·.trans (prefix_append _ _))
  matching := by
    intro k e f he hf ht
    by_cases hk : k < L.length
    case pos =>
      rw [getElem?_append_left hk] at hf
      rw [h.matching k e f he hf ht, take_append_of_le_length hk]
    -- An entry of term `T` in the follower's log is within the old `L`.
    have hT : f.term = T := by
      rw [getElem?_append_right (not_lt.mp hk)] at hf
      exact hes f (mem_of_getElem? hf)
    have hp := (h.older k e he).resolve_left (by omega)
    have := hp.length_le
    have := List.getElem?_eq_some_iff.mp he |>.1
    simp only [length_take] at *
    omega

theorem merge (h : Trails T L log) (hc : Contiguous 0 L) (hpos : ∀ e ∈ L, 0 < e.term) (m : ℕ) :
    Trails T L (merge log (L.take m)) := by
  cases merge_eq_or log (L.take m)
  case inl hm => exact hm.symm ▸ h
  case inr hm => exact hm.symm ▸ of_isPrefix hc hpos (List.take_prefix _ _)

end Trails

-- A moment at which `ℓ` has just become leader and has sent nothing yet.
structure TermStart (M : Membership) (ℓ : NodeId) (s : Cluster) : Prop where
  won : ∃ n : RaftNode, s.nodes ℓ = n.transitionToLeader
  contiguous : Contiguous 0 (s.nodes ℓ).log
  pos : ∀ e ∈ (s.nodes ℓ).log, 0 < e.term
  trails : ∀ p ∈ M.members, p ≠ ℓ → Trails (s.nodes ℓ).currentTerm (s.nodes ℓ).log (s.nodes p).log
  requests : s.appendRequests = []
  replies : s.appendReplies = []

-- The events of leader `ℓ` and its followers: the leader appends, sends and takes responses, and
-- the others take requests.
def Cluster.OneTerm (ℓ : NodeId) (_ : Cluster) : Event → Prop
  | .replicate i _ => i = ℓ
  | .appendEntries i _ _ => i ≠ ℓ
  | .appendEntriesResponse r _ => r.request.leaderId = ℓ
  | .propose i _ => i = ℓ
  | .batchPropose i _ => i = ℓ
  | _ => False

-- The response comes when the leader's log has nothing beyond what the request covered, or beyond
-- what the peer is known to match already.
def RaftNode.CoversLog (n : RaftNode) (r : AppendReply) : Prop :=
  r.response.success → n.lastLogIndex ≤
    max (n.matchIndexOf r.follower) (r.request.prevLogIndex + r.request.entries.length)

def Cluster.OneTermSound (ℓ : NodeId) (s : Cluster) : Event → Prop
  | .appendEntriesResponse r _ => r.request.leaderId = ℓ ∧ (s.nodes ℓ).CoversLog r
  | e => s.OneTerm ℓ e

instance (ℓ : NodeId) (s : Cluster) : (e : Event) → Decidable (s.OneTerm ℓ e)
  | .replicate i _ => inferInstanceAs <| Decidable (i = ℓ)
  | .appendEntries i _ _ => inferInstanceAs <| Decidable (i ≠ ℓ)
  | .appendEntriesResponse r _ => inferInstanceAs <| Decidable (r.request.leaderId = ℓ)
  | .propose i _ | .batchPropose i _ => inferInstanceAs <| Decidable (i = ℓ)
  | .startElection .. | .requestVote .. | .requestVoteResponse .. | .poll .. | .expire .. =>
    .isFalse id

instance (n : RaftNode) (r : AppendReply) : Decidable (n.CoversLog r) :=
  inferInstanceAs <| Decidable (_ → _)

instance (ℓ : NodeId) (s : Cluster) : (e : Event) → Decidable (s.OneTermSound ℓ e)
  | .appendEntriesResponse r _ =>
    inferInstanceAs <| Decidable (r.request.leaderId = ℓ ∧ (s.nodes ℓ).CoversLog r)
  | .replicate i _ => inferInstanceAs <| Decidable (i = ℓ)
  | .appendEntries i _ _ => inferInstanceAs <| Decidable (i ≠ ℓ)
  | .propose i _ | .batchPropose i _ => inferInstanceAs <| Decidable (i = ℓ)
  | .startElection .. | .requestVote .. | .requestVoteResponse .. | .poll .. | .expire .. =>
    .isFalse id

-- The log `log` has the first `k` entries of `L`.
def Has (L : List LogEntry) (k : ℕ) (log : List LogEntry) : Prop :=
  k ≤ L.length ∧ L.take k <+: log

theorem Has.append (h : Has L m log) (es : List LogEntry) : Has (L ++ es) m log :=
  ⟨h.1.trans (by simp), by rw [take_append_of_le_length h.1]; exact h.2⟩

theorem Has.zero : Has L 0 log :=
  ⟨Nat.zero_le _, by simp⟩

theorem Has.whole (h : Has L m log) (hm : L.length ≤ m) : L <+: log :=
  take_of_length_le hm ▸ h.2

theorem Has.merge (h : Has L m log) (k : ℕ) : Has L m (merge log (L.take k)) :=
  ⟨h.1, prefix_merge_take h.2 (List.take_prefix _ _) k⟩

structure TermInv (M : Membership) (ℓ : NodeId) (T : ℕ) (s : Cluster) : Prop where
  term : (s.nodes ℓ).isLeader → (s.nodes ℓ).currentTerm = T
  term_pos : 0 < T
  contiguous : Contiguous 0 (s.nodes ℓ).log
  pos : ∀ e ∈ (s.nodes ℓ).log, 0 < e.term
  trails : ∀ p ∈ M.members, p ≠ ℓ → Trails T (s.nodes ℓ).log (s.nodes p).log
  requests : ∀ req ∈ s.appendRequests, Idle req ∨ Excerpt (s.nodes ℓ).log req
  replies : ∀ r ∈ s.appendReplies, r.follower ≠ ℓ ∧ (r.response.success →
                 Has (s.nodes ℓ).log (r.request.prevLogIndex + r.request.entries.length)
                   (s.nodes r.follower).log)
  matched : ∀ p ∈ M.members, p ≠ ℓ →
                 Has (s.nodes ℓ).log ((s.nodes ℓ).matchIndexOf p) (s.nodes p).log

namespace TermInv

theorem init (h : TermStart M ℓ s) : TermInv M ℓ (s.nodes ℓ).currentTerm s := by
  have ⟨n, hn⟩ := h.won
  exact
    { term := fun _ => rfl
      term_pos := h.pos ⟨(s.nodes ℓ).currentTerm, n.lastLogIndex + 1, .noOp, .noOp⟩ <| by
        simp [hn, transitionToLeader]
      contiguous := h.contiguous
      pos := h.pos
      trails := h.trails
      requests := by simp [h.requests]
      replies := by simp [h.replies]
      matched := fun p _ _ => by
        rw [hn, matchIndexOf_transitionToLeader]
        exact .zero }

section

variable (h : TermInv M ℓ T s)

include h

-- The leader's log grows by entries of its term.
theorem setLeader (hlog : n.log = (s.nodes ℓ).log ++ es) (hes : ∀ e ∈ es, e.term = T)
    (hc : Contiguous (s.nodes ℓ).log.length es) (ht : n.isLeader → n.currentTerm = T)
    (hm : ∀ p ∈ M.members, p ≠ ℓ → Has (s.nodes ℓ).log (n.matchIndexOf p) (s.nodes p).log) :
    TermInv M ℓ T (s.setNode ℓ n) where
  term := by simpa using ht
  term_pos := h.term_pos
  contiguous := by
    simp only [setNode_self, hlog]
    exact Contiguous.append_iff.mpr ⟨h.contiguous, by simpa using hc⟩
  pos := by
    simp only [setNode_self, hlog, mem_append]
    exact fun e he => he.elim (h.pos e) fun he => hes e he ▸ h.term_pos
  trails p hp hne := by
    rw [setNode_self, setNode_of_ne s hne, hlog]
    exact (h.trails p hp hne).append hes
  requests req hr := by
    rw [setNode_self, hlog]
    exact (h.requests req hr).imp_right (·.mono (prefix_append _ _))
  replies r hr := by
    have ⟨hne, hs⟩ := h.replies r hr
    rw [setNode_self, setNode_of_ne s hne, hlog]
    exact ⟨hne, fun hok => (hs hok).append es⟩
  matched p hp hne := by
    rw [setNode_self, setNode_of_ne s hne, hlog]
    exact (hm p hp hne).append es

-- A follower's log changes, but keeps what it has of the leader's.
theorem setFollower (hp : p ≠ ℓ) (ht : p ∈ M.members → Trails T (s.nodes ℓ).log n.log)
    (hk : ∀ k, Has (s.nodes ℓ).log k (s.nodes p).log → Has (s.nodes ℓ).log k n.log) :
    TermInv M ℓ T (s.setNode p n) := by
  have hℓ := s.setNode_of_ne (Ne.symm hp) n
  refine
    { h with
      term := hℓ ▸ h.term
      contiguous := hℓ ▸ h.contiguous
      pos := hℓ ▸ h.pos
      requests := hℓ ▸ h.requests
      trails := fun q hq hne => ?_
      replies := fun r hr => ⟨(h.replies r hr).1, fun hs => ?_⟩
      matched := fun q hq hne => ?_ }
  all_goals rw [hℓ]
  · by_cases hqp : q = p
    case pos =>
      rw [hqp, setNode_self]
      exact ht (hqp ▸ hq)
    case neg =>
      rw [setNode_of_ne s hqp]
      exact h.trails q hq hne
  · by_cases hqp : r.follower = p
    case pos =>
      rw [hqp, setNode_self]
      exact hk _ (hqp ▸ (h.replies r hr).2 hs)
    case neg =>
      rw [setNode_of_ne s hqp]
      exact (h.replies r hr).2 hs
  · by_cases hqp : q = p
    case pos =>
      rw [hqp, setNode_self]
      exact hk _ (hqp ▸ h.matched q hq hne)
    case neg =>
      rw [setNode_of_ne s hqp]
      exact h.matched q hq hne

theorem appendEntries (hp : p ∈ M.members) (hne : p ≠ ℓ) (hr : req ∈ s.appendRequests) :
    TermInv M ℓ T { s.setNode p ((s.nodes p).handleAppendEntries req now).1 with
      appendReplies :=
        ⟨p, req, ((s.nodes p).handleAppendEntries req now).2⟩ :: s.appendReplies } := by
  have htr := h.trails p hp hne
  -- The new log of the follower, and what a successful response says about it.
  have ⟨hlog, hkeep, hsucc⟩ :
      Trails T (s.nodes ℓ).log ((s.nodes p).handleAppendEntries req now).1.log ∧
      (∀ k, Has (s.nodes ℓ).log k (s.nodes p).log →
        Has (s.nodes ℓ).log k ((s.nodes p).handleAppendEntries req now).1.log) ∧
      (((s.nodes p).handleAppendEntries req now).2.success →
        Has (s.nodes ℓ).log (req.prevLogIndex + req.entries.length)
          ((s.nodes p).handleAppendEntries req now).1.log) := by
    rcases (s.nodes p).handleAppendEntries_cases req now with ⟨hq, hf⟩ | ⟨hacc, heq⟩
    · rw [hq.log, hf]
      exact ⟨htr, fun _ => id, nofun⟩
    · have hc : ((s.nodes p).followLeader req now).prevConflict req = none :=
        prevConflict_followLeader.mpr hacc.2
      have hfl := (s.nodes p).followLeader_log req now
      rw [heq, acceptEntries_log]
      cases h.requests req hr
      case inl hidle =>
        have hprev := prev_of_idle hidle (hfl ▸ htr.pos) hc
        simp only [withEntries, hidle.1, hprev, hfl, foldl_nil, length_nil]
        exact ⟨htr, fun _ => id, fun _ => .zero⟩
      case inr hx =>
        rw [withEntries_eq_merge hx h.contiguous (hfl ▸ htr.matching) hc, hfl]
        exact ⟨htr.merge h.contiguous h.pos _, fun _ hk => hk.merge _,
          fun _ => ⟨hx.length_le, prefix_merge _ _⟩⟩
  have h' := h.setFollower hne (fun _ => hlog) hkeep
  refine { h' with replies := forall_mem_cons.mpr ⟨⟨hne, fun hs => ?_⟩, h'.replies⟩ }
  simpa [setNode_of_ne s (Ne.symm hne)] using hsucc hs

theorem appendEntriesResponse (hr : r ∈ s.appendReplies) (hc : (s.nodes ℓ).CoversLog r) :
    TermInv M ℓ T (s.setNode ℓ <| (s.nodes ℓ).handleAppendEntriesResponse r.follower r.response
      r.request.entries.length now) := by
  have hkeep : ∀ {n : RaftNode}, n.log = (s.nodes ℓ).log → (n.isLeader → n.currentTerm = T) →
      (∀ p ∈ M.members, p ≠ ℓ → Has (s.nodes ℓ).log (n.matchIndexOf p) (s.nodes p).log) →
      TermInv M ℓ T (s.setNode ℓ n) := by
    intro n hl ht hm
    have hlog : n.log = (s.nodes ℓ).log ++ [] := by rw [hl, append_nil]
    exact h.setLeader hlog nofun .nil ht hm
  rcases (s.nodes ℓ).handleAppendEntriesResponse_cases r.follower r.response
      r.request.entries.length now with
    hq | ⟨lease, next, matched, next', hs, heq⟩ |
    ⟨lease, next, matched, lease', next', hs, hsucc, heq⟩
  · refine hkeep hq.log (fun hl => ?_) fun p hp hne => ?_
    · have ⟨hst, ht⟩ := hq.role hl
      rw [ht]
      exact h.term <| by simpa [isLeader, hst] using hl
    · cases hq.matchIndexOf p
      case inl hm => exact hm ▸ h.matched p hp hne
      case inr hm => exact hm ▸ .zero
  · have hl : (s.nodes ℓ).isLeader := by simp [isLeader, hs]
    rw [heq]
    refine hkeep rfl (fun _ => h.term hl) fun p hp hne => ?_
    simpa [matchIndexOf, hs] using h.matched p hp hne
  · have hl : (s.nodes ℓ).isLeader := by simp [isLeader, hs]
    rw [heq]
    refine hkeep (by simp) (fun _ => by simpa using h.term hl) fun p hp hne => ?_
    have hm := h.matched p hp hne
    simp only [matchIndexOf, tryAdvanceCommitIndex_rest, hs] at hm ⊢
    cases hk : (replaceIndex matched r.follower (s.nodes ℓ).lastLogIndex).lookup p
    case none => exact .zero
    case some k =>
      rcases lookup_replaceIndex hk with hk | ⟨rfl, rfl⟩
      · simpa [hk] using hm
      · have hlen := lastLogIndex_eq h.contiguous
        have hle := hc hsucc
        rw [hlen] at hle
        simp only [Option.getD_some, hlen]
        refine ⟨le_rfl, ?_⟩
        rw [take_length]
        cases le_max_iff.mp hle
        case inl hle => exact (h.matched _ hp hne).whole hle
        case inr hle => exact ((h.replies r hr).2 hsucc).whole hle

end

theorem step (h : TermInv M ℓ T s₁) (hok : OneTermSound ℓ s₁ e) (hs : Cluster.step M s₁ e = some s₂)
    : TermInv M ℓ T s₂ := by
  cases e <;> simp only [Cluster.step, Option.ite_none_right_eq_some, Option.some.injEq] at hs <;>
    simp only [OneTermSound, OneTerm] at hok
  case replicate i peer =>
    obtain ⟨_, rfl⟩ := hs
    have hq := (s₁.nodes i).idle_or_excerpt (hok ▸ h.contiguous) peer
    refine { h with requests := forall_mem_cons.mpr ⟨?_, h.requests⟩ }
    exact hq.imp_right fun hx => hok ▸ hx.2
  case appendEntries i req now =>
    obtain ⟨⟨hi, hm⟩, rfl⟩ := hs
    exact h.appendEntries hi hok hm
  case appendEntriesResponse r now =>
    obtain ⟨hm, rfl⟩ := hs
    rw [hok.1]
    exact h.appendEntriesResponse hm hok.2
  case propose i command =>
    obtain ⟨_, hs⟩ := hs
    subst hok
    split at hs
    case h_2 => exact Option.some.inj hs ▸ h
    case h_1 n _ hp =>
      cases hs
      obtain ⟨hl, _, hn⟩ := of_propose_ok hp
      have ht := h.term hl
      have hc := lastLogIndex_eq h.contiguous
      have h' : TermInv M i T (s₁.setNode i n) := by
        refine h.setLeader (by rw [hn]) (by simp [ht]) (by simp [hc]) ?_ ?_
        · simp [hn, ht]
        · simpa [hn, matchIndexOf] using h.matched
      exact { h' with }
  case batchPropose i commands =>
    obtain ⟨_, hs⟩ := hs
    subst hok
    split at hs
    case h_2 => exact Option.some.inj hs ▸ h
    case h_1 n _ hp =>
      cases hs
      obtain ⟨hl, hn⟩ := of_batchPropose_ok hp
      have ht := h.term hl
      have hc := lastLogIndex_eq h.contiguous
      have hlog : n.log = (s₁.nodes i).log ++
          batchEntries T ((s₁.nodes i).log.length + 1) commands := by rw [hn, ht, hc]
      refine h.setLeader hlog ?_ (Contiguous.batchEntries ..) ?_ ?_
      · exact fun e he => term_of_mem_batchEntries he
      · simp [hn, ht]
      · simpa [hn, matchIndexOf] using h.matched

end TermInv

theorem RaftNode.CoversLog.matchIndexOf_le {n : RaftNode} (h : n.CoversLog r) (now : Instant) :
    (n.handleAppendEntriesResponse r.follower r.response r.request.entries.length now).matchIndexOf
        r.follower ≤
      max (n.matchIndexOf r.follower) (r.request.prevLogIndex + r.request.entries.length) := by
  rcases n.handleAppendEntriesResponse_cases r.follower r.response r.request.entries.length now with
    hq | ⟨lease, next, matched, next', hs, heq⟩ |
    ⟨lease, next, matched, lease', next', hs, hsucc, heq⟩
  · cases hq.matchIndexOf r.follower
    case inl hm => exact hm ▸ le_max_left _ _
    case inr hm => exact hm ▸ Nat.zero_le _
  · rw [heq]
    simp [matchIndexOf, hs]
  · have hle := h hsucc
    rw [heq]
    simp only [matchIndexOf, tryAdvanceCommitIndex_rest, hs] at hle ⊢
    cases hk : (replaceIndex matched r.follower n.lastLogIndex).lookup r.follower
    case none => exact Nat.zero_le _
    case some k =>
      rcases lookup_replaceIndex hk with hk | ⟨_, rfl⟩
      · simp [hk]
      · exact hle

-- What the leader takes to be matched is in the peer's log.
theorem match_index_sound {s₀ : Cluster} (h₀ : TermStart M ℓ s₀)
    (r : Reaches (Cluster.step M) (OneTermSound ℓ) s₀ s) :
    (∀ p ∈ M.members, p ≠ ℓ → ∀ index, 0 < index → index ≤ (s.nodes ℓ).matchIndexOf p →
      ∃ e f, (s.nodes ℓ).getLogEntry index = some e ∧ (s.nodes p).getLogEntry index = some f ∧
        e.index = index ∧ f.index = index ∧ f.term = e.term) ∧
    ∀ reply now, s.OneTermSound ℓ (.appendEntriesResponse reply now) →
      ((s.nodes ℓ).handleAppendEntriesResponse reply.follower reply.response
          reply.request.entries.length now).matchIndexOf reply.follower ≤
        max ((s.nodes ℓ).matchIndexOf reply.follower)
          (reply.request.prevLogIndex + reply.request.entries.length) := by
  refine ⟨fun p hp hne index hpos hle => ?_, fun reply now hok => hok.2.matchIndexOf_le now⟩
  have h := r.invariant (TermInv.init h₀) fun h ho hs => h.step ho hs
  have hm := h.matched p hp hne
  have ⟨k, hk⟩ := Nat.exists_eq_add_of_lt hpos
  simp only [Nat.zero_add] at hk
  subst hk
  have hlt : k < (s.nodes ℓ).log.length := hle.trans hm.1
  have he := getElem?_eq_getElem hlt
  have hf : (s.nodes p).log[k]? = some (s.nodes ℓ).log[k] := by
    apply hm.2.getElem?_some
    rw [getElem?_take_of_lt hle, he]
  have hi : (s.nodes ℓ).log[k].index = k + 1 := by simpa using h.contiguous.index_eq he
  exact ⟨_, _, getLogEntry_succ.trans he, getLogEntry_succ.trans hf, hi, hi, rfl⟩

-- Node 1 has just won term 1 of a new cluster.
def freshLeader : Cluster :=
  { init threeNodes fun _ => 0 with
    nodes := fun i =>
      if i = 1 then ((new (threeNodes.config 1) 0).transitionToCandidate 0).transitionToLeader
      else new (threeNodes.config i) 0 }

theorem freshLeader_termStart : TermStart threeNodes 1 freshLeader where
  won := ⟨_, rfl⟩
  contiguous := by decide
  pos := by decide
  requests := rfl
  replies := rfl
  trails p _ hne := by
    have : (freshLeader.nodes p).log = [] := by simp [freshLeader, hne, new]
    rw [this]
    exact .of_isPrefix (by decide) (by decide) nil_prefix

-- Node 2 stores the first entry and acknowledges it.
def ackRun : List Event :=
  let offer : AppendEntriesRequest := ⟨1, 1, 0, 0, [⟨1, 1, .noOp, .noOp⟩], 0⟩
  [.replicate 1 2, .appendEntries 2 offer 0,
    .appendEntriesResponse ⟨2, offer, ⟨1, true, none, none⟩⟩ 1]

theorem match_index_sound_after_ack : ∃ s, TermStart threeNodes 1 freshLeader ∧
      Reaches (Cluster.step threeNodes) (OneTermSound 1) freshLeader s ∧
      (s.nodes 1).matchIndexOf 2 = 1 ∧
      ∃ e f, (s.nodes 1).getLogEntry 1 = some e ∧ (s.nodes 2).getLogEntry 1 = some f ∧
        e.index = 1 ∧ f.index = 1 ∧ f.term = e.term := by
  have ⟨s, r, h⟩ : ∃ s, Reaches (Cluster.step threeNodes) (OneTermSound 1) freshLeader s ∧
      (s.nodes 1).matchIndexOf 2 = 1 :=
    Reaches.exists_of_run ackRun (by decide +kernel)
  exact ⟨s, freshLeader_termStart, r, h,
    (match_index_sound freshLeader_termStart r).1 2 (by decide) (by decide) 1 (by decide)
      (by rw [h])⟩

-- A command is proposed while the acknowledgement of the first entry is under way.
def lateProposalRun : List Event :=
  let offer : AppendEntriesRequest := ⟨1, 1, 0, 0, [⟨1, 1, .noOp, .noOp⟩], 0⟩
  [.replicate 1 2, .appendEntries 2 offer 0, .propose 1 (.put [1] [1]),
    .appendEntriesResponse ⟨2, offer, ⟨1, true, none, none⟩⟩ 1]

theorem match_index_beyond_follower : ∃ s, TermStart threeNodes 1 freshLeader ∧
      Reaches (Cluster.step threeNodes) (OneTerm 1) freshLeader s ∧
      (s.nodes 1).matchIndexOf 2 = 2 ∧ (s.nodes 2).getLogEntry 2 = none := by
  have ⟨s, r, h⟩ : ∃ s, Reaches (Cluster.step threeNodes) (OneTerm 1) freshLeader s ∧
      (s.nodes 1).matchIndexOf 2 = 2 ∧ (s.nodes 2).getLogEntry 2 = none :=
    Reaches.exists_of_run lateProposalRun (by decide +kernel)
  exact ⟨s, freshLeader_termStart, r, h⟩

end Raft
