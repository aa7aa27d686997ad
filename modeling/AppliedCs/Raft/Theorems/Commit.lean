import AppliedCs.Raft.Theorems.Applied
import AppliedCs.Raft.Theorems.Simulation

namespace Raft

open ReplicatedLog Quorum RaftNode List

variable {a₂ : History}

-- The leader's match index counts what its peers have stored.
def Counted (a : History) (n : RaftNode) : Prop :=
  ∀ lease next matched, n.state = .leader lease next matched →
    (∀ p, p ∈ matched ↔ p ∈ n.config.peerIds) ∧
    ∀ p k, matched.lookup p = some k → k ≤ a.acked p n.currentTerm

-- Node `i` has committed what the history committed, has applied all of it in order, and has
-- counted only what its followers have stored.
structure Commits (M : Membership) (a : History) (i : NodeId) (n : RaftNode)
    (applied : List (ℕ × LogEntry)) : Prop where
  length_le : n.commitIndex ≤ n.log.length
  committed : CommittedPrefix (protocol M) a n.currentTerm (n.log.take n.commitIndex)
  lastApplied : n.lastApplied = n.commitIndex
  applied_eq : applied = recorded (n.log.take n.commitIndex)
  counted : Counted a n

-- A request vouches for the commit index it carries, as far as its entries reach.
def Certifies (M : Membership) (a : History) (req : AppendEntriesRequest) : Prop :=
  min req.leaderCommit (req.prevLogIndex + req.entries.length) ≤ (a.llog req.term).length ∧
  CommittedPrefix (protocol M) a req.term
    ((a.llog req.term).take (min req.leaderCommit (req.prevLogIndex + req.entries.length)))

theorem Certifies.mono (h : Certifies M a₁ req) (he : Extends a₁ a₂) : Certifies M a₂ req := by
  refine ⟨h.1.trans (he.llog _).length_le, ?_⟩
  rw [(he.llog req.term).take_eq_take h.1]
  exact h.2.of_extends he

theorem Counted.mono (h : Counted a₁ n) (he : Extends a₁ a₂) : Counted a₂ n := by
  intro lease next matched hs
  have ⟨h₁, h₂⟩ := h lease next matched hs
  exact ⟨h₁, fun p k hk => (h₂ p k hk).trans (he.acked _ _)⟩

theorem Counted.of_not_leader (h : n.isLeader = false) : Counted a n := by
  intro _ _ _ hs
  simp [isLeader, hs] at h

theorem Counted.congr (h : Counted a n) (hc : n'.config = n.config) (hs : n'.state = n.state)
    (ht : n'.currentTerm = n.currentTerm) : Counted a n' := by
  intro lease next matched hs'
  simpa [hc, ht] using h lease next matched (hs ▸ hs')

namespace Commits

theorem mono (h : Commits M a₁ i n applied) (he : Extends a₁ a₂) : Commits M a₂ i n applied :=
  { h with committed := h.committed.of_extends he, counted := h.counted.mono he }

section

variable (h : Commits M a i n applied)

include h

-- The commit index moves on over a log that keeps what was committed before.
theorem advance (hc : Contiguous 0 n'.log)
    (hle : n.commitIndex ≤ n'.commitIndex) (hlen : n'.commitIndex ≤ n'.log.length)
    (hpre : n'.log.take n.commitIndex = n.log.take n.commitIndex)
    (hcom : CommittedPrefix (protocol M) a n'.currentTerm (n'.log.take n'.commitIndex))
    (hap : n'.lastApplied = n'.commitIndex) (hcount : Counted a n') :
    Commits M a i n' (applied ++ n.appliedSince n') where
  length_le := hlen
  committed := hcom
  lastApplied := hap
  counted := hcount
  applied_eq := by
    have hrec := recorded_append_appliedSince (n := n) hc (by rw [h.lastApplied, hap]; exact hle)
      (by rwa [hap]) (by rw [h.lastApplied, ← hpre]; exact take_prefix _ _)
      (h.lastApplied ▸ h.length_le)
    rwa [h.lastApplied, hap, ← h.applied_eq] at hrec

-- The commit index stays where it is.
theorem keep (hci : n'.commitIndex = n.commitIndex)
    (hla : n'.lastApplied = n.lastApplied) (hpre : n.log <+: n'.log)
    (ht : n.currentTerm ≤ n'.currentTerm) (hcount : Counted a n') : Commits M a i n' applied := by
  have htake : n'.log.take n.commitIndex = n.log.take n.commitIndex := hpre.take_eq_take h.length_le
  exact
    { length_le := hci ▸ h.length_le.trans hpre.length_le
      committed := hci ▸ htake ▸ h.committed.mono ht
      lastApplied := by rw [hla, h.lastApplied, hci]
      applied_eq := by rw [hci, htake, h.applied_eq]
      counted := hcount }

theorem quiet (hq : n.Quiet n') : Commits M a i n' applied := by
  refine h.keep hq.commitIndex hq.lastApplied (hq.log ▸ prefix_rfl) hq.term ?_
  cases hl : n'.isLeader
  case false => exact .of_not_leader hl
  case true => exact h.counted.congr hq.config (hq.role hl).1 (hq.role hl).2

theorem acceptEntries (hanch : Anchored (protocol M) a n.log)
    (hv : Valid M a) (ho : Offers M a req) (hcert : Certifies M a req)
    (hT : n.currentTerm = req.term)
    (hst : n.isLeader = false) (hp : n.prevConflict req = none)
    (hok : (n.acceptEntries req).commitIndex ≤
      max n.commitIndex (req.prevLogIndex + req.entries.length)) :
    Commits M a i (n.acceptEntries req) (applied ++ n.appliedSince (n.acceptEntries req)) := by
  have hcount : Counted a (n.acceptEntries req) :=
    .of_not_leader (by simpa [isLeader] using hst)
  -- The log keeps what was committed, and agrees with the leader's as far as the request goes.
  obtain ⟨hcont, hpre, hreach⟩ : Contiguous 0 (n.withEntries req).log ∧
      n.log.take n.commitIndex <+: (n.withEntries req).log ∧
      (a.llog req.term).take (req.prevLogIndex + req.entries.length) <+:
        (n.withEntries req).log := by
    rcases ho.withEntries hanch hv hp with ⟨h₁, h₂⟩ | ⟨hl, _, hlog⟩
    · simp only [withEntries, h₁, h₂, foldl_nil]
      exact ⟨hv.contiguous hanch, take_prefix _ _, nil_prefix⟩
    · rw [hlog]
      refine ⟨?_, ?_, prefix_merge _ _⟩
      · cases merge_eq_or n.log ((a.llog req.term).take (req.prevLogIndex + req.entries.length))
        case inl hm => exact hm.symm ▸ hv.contiguous hanch
        case inr hm => exact hm.symm ▸ (hv.aligned _).of_isPrefix (List.take_prefix _ _)
      · exact prefix_merge_take (List.take_prefix _ _)
          (h.committed.prefix_llog hv.inv (le_of_eq hT) hl) _
  have hlen : (n.log.take n.commitIndex).length = n.commitIndex := length_take_of_le h.length_le
  have htake : (n.withEntries req).log.take n.commitIndex = n.log.take n.commitIndex := by
    rw [hpre.take_eq_take (le_of_eq hlen.symm), take_take, min_self]
  obtain ⟨h₁, h₂, h₃, h₄⟩ :=
    acceptEntries_commit hcont (hlen ▸ hpre.length_le) h.lastApplied
  refine h.advance (by simpa using hcont) h₁ (by simpa using h₂) (by simpa using htake) ?_ h₃ hcount
  rw [acceptEntries_log, (acceptEntries_rest ..).2.1]
  by_cases hc : (n.acceptEntries req).commitIndex = n.commitIndex
  case pos => exact hc ▸ htake ▸ h.committed
  have hmin : (n.acceptEntries req).commitIndex ≤
      min req.leaderCommit (req.prevLogIndex + req.entries.length) := by omega
  have hle := hcert.1
  rw [hreach.take_eq_take (by rw [length_take]; omega), take_take, min_eq_left (by omega), hT]
  exact hcert.2.of_isPrefix <| take_prefix_take_left hmin

theorem appendOwn (es : List LogEntry) : Commits M a i { n with log := n.log ++ es } applied :=
  h.keep rfl rfl (prefix_append _ _) le_rfl (h.counted.congr rfl rfl rfl)

theorem transitionToLeader (votes : Finset NodeId) :
    Commits M a i { n with state := .candidate votes }.transitionToLeader applied := by
  refine h.keep rfl rfl (prefix_append _ _) le_rfl ?_
  rintro _ _ matched hs
  have hm : n.config.peers.foldl (fun m p => m.insert p.id 0) ∅ = matched :=
    (RaftState.leader.inj hs).2.2
  subst hm
  refine ⟨fun p => ?_, fun p k hk => ?_⟩
  · exact RaftNode.mem_foldl_insert.trans
      (by simp [RaftConfig.peerIds, RaftNode.transitionToLeader])
  · cases RaftNode.lookup_foldl_insert hk
    case inl h => exact h ▸ Nat.zero_le _
    case inr h => simp at h

end

-- The leader and the peers that have reached index `c` are a quorum.
theorem exists_majority {matched : IndexMap} (h : Agrees M a i n) (hi : i ∈ M.members)
    (hpeers : ∀ p, p ∈ matched ↔ p ∈ n.config.peerIds)
    (hq : n.config.quorumSize ≤ (matched.entries.map (·.2) ++ [n.lastLogIndex]).length)
    (hc : ((matched.entries.map (·.2) ++ [n.lastLogIndex]).insertionSort (· ≤ ·))[
      (matched.entries.map (·.2) ++ [n.lastLogIndex]).length - n.config.quorumSize]? = some c) :
    ∃ Q, Majority M.members Q ∧ ∀ p ∈ Q, p = i ∨ ∃ k, matched.lookup p = some k ∧ c ≤ k := by
  let reached := matched.entries.filter (c ≤ ·.2)
  have hmem : ∀ p ∈ reached.map (·.1), ∃ k, matched.lookup p = some k ∧ c ≤ k := by
    intro p hp
    have ⟨⟨_, k⟩, hk, hp⟩ := mem_map.mp hp
    subst hp
    have ⟨hk, hle⟩ := mem_filter.mp hk
    exact ⟨k, AList.mem_lookup_iff.mpr hk, of_decide_eq_true hle⟩
  have hpeer : ∀ p ∈ reached.map (·.1), p ∈ M.members ∧ p ≠ i := by
    intro p hp
    have ⟨k, hk, _⟩ := hmem p hp
    have : p ∈ n.config.peerIds := (hpeers p).mp <| AList.lookup_isSome.mp (by simp [hk])
    rwa [h.config, M.mem_peers i hi] at this
  refine ⟨insert i (reached.map (·.1)).toFinset, Refines.majority h hi ?_ ?_, ?_⟩
  · refine Finset.insert_subset hi fun p hp => (hpeer p (mem_toFinset.mp hp)).1
  · have hnodup : (reached.map (·.1)).Nodup := matched.nodupKeys.sublist filter_sublist
    have hni : i ∉ (reached.map (·.1)).toFinset :=
      fun hm => (hpeer i (mem_toFinset.mp hm)).2 rfl
    rw [Finset.card_insert_of_notMem hni, toFinset_card_of_nodup hnodup, length_map,
      ← countP_eq_length_filter]
    have := le_countP_of_insertionSort hq hc
    rw [countP_append, countP_map] at this
    refine this.trans <| Nat.add_le_add_left (countP_le_length) _
  · intro p hp
    cases Finset.mem_insert.mp hp
    case inl hp => exact .inl hp
    case inr hp => exact .inr <| hmem p (mem_toFinset.mp hp)

theorem tryAdvanceCommitIndex (h : Commits M a i n applied) (hr : Refines M a i n) (hv : Valid M a)
    (hi : i ∈ M.members) : Commits M a i n.tryAdvanceCommitIndex
      (applied ++ n.appliedSince n.tryAdvanceCommitIndex) := by
  rcases n.tryAdvanceCommitIndex_cases with heq |
    ⟨lease, next, matched, c, e, hs, hq, hc, hlt, he, ht, heq⟩
  · simpa [heq, appliedSince_eq_nil] using h
  have hget : n.log[c - 1]? = some e := by
    simpa [getLogEntry, Nat.ne_of_gt (Nat.zero_lt_of_lt hlt)] using he
  have hclen := List.getElem?_eq_some_iff.mp hget |>.1
  obtain ⟨hlead, hllog, hacked⟩ := hr.leader hs
  obtain ⟨hpeers, hstored⟩ := h.counted _ _ _ hs
  obtain ⟨Q, hm, hQ⟩ := exists_majority hr.toAgrees hi hpeers hq hc
  have hcommit : Committed (protocol M) a n.currentTerm (c - 1) := by
    refine ⟨⟨e, by rw [hllog, hget], ht⟩, Q, hm, fun p hp => ?_⟩
    rcases hQ p hp with rfl | ⟨k, hk, hle⟩
    · omega
    · exact lt_of_lt_of_le (by omega) (hstored p k hk)
  rw [heq]
  refine h.advance (by simpa using hr.contiguous hv) ?_ ?_ ?_ ?_ ?_ ?_
  · simpa using le_of_lt hlt
  · simp; omega
  · simp
  · refine .inr ⟨n.currentTerm, c - 1, by simp, hcommit, ?_⟩
    simp [State.upTo, hllog, Nat.sub_add_cancel (Nat.zero_lt_of_lt hlt)]
  · have := h.lastApplied
    simp
    omega
  · exact h.counted.congr (by simp) (by simp) (by simp)

end Commits

-- A response to a request that the leader sent in its term may come as long as the log has nothing
-- beyond what the request covered, or what the peer is known to match already; an older response
-- only in the latter case.
def RaftNode.CountsSafely (n : RaftNode) (r : AppendReply) : Prop :=
  n.isLeader → r.response.success → n.lastLogIndex ≤
    max (n.matchIndexOf r.follower)
      (if r.request.term = n.currentTerm then r.request.prevLogIndex + r.request.entries.length
        else 0)

instance (n : RaftNode) (r : AppendReply) : Decidable (n.CountsSafely r) :=
  inferInstanceAs <| Decidable (_ → _ → _)

theorem Commits.handleAppendEntriesResponse (h : Commits M a i n applied) (hr : Refines M a i n)
    (hv : Valid M a) (hi : i ∈ M.members) (hst : Stored M a r) (hok : n.CountsSafely r) :
    Commits M a i (n.handleAppendEntriesResponse r.follower r.response r.request.entries.length now)
      (applied ++ n.appliedSince
        (n.handleAppendEntriesResponse r.follower r.response r.request.entries.length now)) := by
  rcases n.handleAppendEntriesResponse_cases r.follower r.response r.request.entries.length now with
    hq | ⟨lease, next, matched, next', hs, heq⟩ |
    ⟨lease, next, matched, lease', next', hs, hsucc, heq⟩
  · simpa [appliedSince_eq_nil hq.lastApplied] using h.quiet hq
  · rw [appliedSince_eq_nil (by rw [heq]), append_nil, heq]
    refine h.keep rfl rfl prefix_rfl le_rfl fun _ _ _ hs' => ?_
    have hm := (RaftState.leader.inj hs').2.2
    exact hm ▸ h.counted _ _ _ hs
  · obtain ⟨hpeers, hstored⟩ := h.counted _ _ _ hs
    rw [heq]
    -- Both bounds of the last index are within what the follower has stored.
    have hle : n.lastLogIndex ≤ a.acked r.follower n.currentTerm := by
      refine (hok (by simp [isLeader, hs]) hsucc).trans <| max_le ?_ ?_
      · simp only [matchIndexOf, hs]
        cases hl : matched.lookup r.follower
        case none => exact Nat.zero_le _
        case some j => exact hstored _ j hl
      · split
        case isTrue ht => exact ht ▸ hst.2.2 hsucc
        case isFalse => exact Nat.zero_le _
    have hn : Commits M a i { n with
        state := .leader lease' next' (replaceIndex matched r.follower n.lastLogIndex) }
        applied := by
      refine h.keep rfl rfl prefix_rfl le_rfl fun _ _ _ hs' => ?_
      have hm := (RaftState.leader.inj hs').2.2
      subst hm
      refine ⟨fun p => mem_replaceIndex.trans (hpeers p), fun p k hk => ?_⟩
      cases lookup_replaceIndex hk
      case inl hk' => exact hstored p k hk'
      case inr hk' => exact hk'.2.le.trans (hk'.1 ▸ hle)
    exact hn.tryAdvanceCommitIndex
      { hr with candidate := by simp, leader := fun _ => hr.leader hs } hv hi

theorem Commits.certifies (h : Commits M a i n applied) (hr : Refines M a i n) (peer : NodeId) :
    Certifies M a (n.buildAppendEntriesRequest peer) := by
  cases hs : n.state
  case follower | candidate =>
    simp [Certifies, buildAppendEntriesRequest, getEntriesForPeer, hs, CommittedPrefix.nil]
  case leader =>
    obtain ⟨_, hllog, _⟩ := hr.leader hs
    have hle := h.length_le
    have hmin : ∀ k, min n.commitIndex k ≤ n.commitIndex := fun k => min_le_left _ _
    simp only [Certifies, buildAppendEntriesRequest, hllog]
    exact ⟨(hmin _).trans hle, h.committed.of_isPrefix (take_prefix_take_left (hmin _))⟩

end Raft
