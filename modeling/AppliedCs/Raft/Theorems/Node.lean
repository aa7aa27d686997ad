import AppliedCs.Raft.Theorems.Log

namespace Raft

open List

-- The state machine after a sequence of entries.
def KeyValueFSM.feed (fsm : KeyValueFSM) (entries : List LogEntry) : KeyValueFSM :=
  entries.foldl (fun fsm e => (fsm.apply e).1) fsm

theorem KeyValueFSM.feed_append (fsm : KeyValueFSM) (l₁ l₂ : List LogEntry) :
    fsm.feed (l₁ ++ l₂) = (fsm.feed l₁).feed l₂ :=
  foldl_append

namespace RaftNode

variable {n : RaftNode}
variable {m : IndexMap}

-- The entries that the log has for the `k` indices after `start`.
def entriesAfter (n : RaftNode) (start k : ℕ) : List LogEntry :=
  (range' (start + 1) k).filterMap n.getLogEntry

theorem entriesAfter_succ (n : RaftNode) (start k : ℕ) : n.entriesAfter start (k + 1) =
      n.entriesAfter start k ++ (n.getLogEntry (start + k + 1)).toList := by
  rw [entriesAfter, range'_concat, filterMap_append, Nat.one_mul, Nat.add_right_comm]
  rfl

theorem applyNext_eq (n : RaftNode) : n.applyNext = { n with
      lastApplied := n.lastApplied + 1
      fsm := n.fsm.feed (n.getLogEntry (n.lastApplied + 1)).toList } := by
  unfold applyNext
  cases h : n.log[n.lastApplied]? <;> simp [getLogEntry, KeyValueFSM.feed, h]

theorem iterate_applyNext (n : RaftNode) (k : ℕ) : applyNext^[k] n = { n with
      lastApplied := n.lastApplied + k
      fsm := n.fsm.feed (n.entriesAfter n.lastApplied k) } := by
  induction k
  case zero => rfl
  case succ k hi =>
    rw [Function.iterate_succ_apply', hi, applyNext_eq, entriesAfter_succ, KeyValueFSM.feed_append]
    rfl

theorem applyCommittedEntries_eq (n : RaftNode) : n.applyCommittedEntries = { n with
      lastApplied := max n.lastApplied n.commitIndex
      fsm := n.fsm.feed (n.entriesAfter n.lastApplied (n.commitIndex - n.lastApplied)) } := by
  have : n.lastApplied + (n.commitIndex - n.lastApplied) = max n.lastApplied n.commitIndex := by
    omega
  rw [applyCommittedEntries, iterate_applyNext, this]

section

variable (n)

@[simp]
theorem applyCommittedEntries_rest : n.applyCommittedEntries.config = n.config ∧
    n.applyCommittedEntries.currentTerm = n.currentTerm ∧
    n.applyCommittedEntries.votedFor = n.votedFor ∧ n.applyCommittedEntries.state = n.state := by
  simp [applyCommittedEntries_eq]

@[simp]
theorem applyCommittedEntries_log : n.applyCommittedEntries.log = n.log := by
  rw [applyCommittedEntries_eq]

@[simp]
theorem applyCommittedEntries_commitIndex :
    n.applyCommittedEntries.commitIndex = n.commitIndex := by
  rw [applyCommittedEntries_eq]

@[simp]
theorem applyCommittedEntries_lastApplied :
    n.applyCommittedEntries.lastApplied = max n.lastApplied n.commitIndex := by
  rw [applyCommittedEntries_eq]

end

def withEntries (n : RaftNode) (req : AppendEntriesRequest) : RaftNode :=
  { n with log := req.entries.foldl appendEntry n.log }

theorem acceptEntries_cases (n : RaftNode) (req : AppendEntriesRequest) :
    (n.commitIndex < req.leaderCommit ∧ n.acceptEntries req =
      { n.withEntries req with
        commitIndex := min req.leaderCommit
          (n.withEntries req).lastLogIndex }.applyCommittedEntries) ∨
    (req.leaderCommit ≤ n.commitIndex ∧ n.acceptEntries req = n.withEntries req) := by
  by_cases h : n.commitIndex < req.leaderCommit
  case pos => exact .inl ⟨h, if_pos h⟩
  case neg => exact .inr ⟨not_lt.mp h, if_neg h⟩

section

variable (n req)

@[simp]
theorem acceptEntries_rest : (n.acceptEntries req).config = n.config ∧
    (n.acceptEntries req).currentTerm = n.currentTerm ∧
    (n.acceptEntries req).votedFor = n.votedFor ∧ (n.acceptEntries req).state = n.state := by
  rcases n.acceptEntries_cases req with ⟨_, h⟩ | ⟨_, h⟩ <;> simp [h, withEntries]

@[simp]
theorem acceptEntries_log : (n.acceptEntries req).log = (n.withEntries req).log := by
  rcases n.acceptEntries_cases req with ⟨_, h⟩ | ⟨_, h⟩ <;> simp [h]

end

section

variable (n req) (now : Instant)

@[simp]
theorem followLeader_log : (n.followLeader req now).log = n.log := by
  simp only [followLeader]
  split <;> rfl

theorem followLeader_currentTerm (h : ¬req.term < n.currentTerm) :
    (n.followLeader req now).currentTerm = req.term := by
  simp only [followLeader]
  split
  case isTrue => rfl
  case isFalse h' => exact Nat.le_antisymm (not_lt.mp h) (not_lt.mp h')

end

theorem success_of_prevConflict (h : n.prevConflict req = some resp) : resp.success = false := by
  unfold prevConflict at h
  split at h
  case isFalse => cases h
  split at h
  · cases h; rfl
  · split at h
    case isTrue => cases h; rfl
    case isFalse => cases h

theorem prev_of_prevConflict (h : n.prevConflict req = none) (hp : 0 < req.prevLogIndex) :
    ∃ e, n.log[req.prevLogIndex - 1]? = some e ∧ e.term = req.prevLogTerm := by
  unfold prevConflict at h
  rw [if_pos hp, getLogEntry, if_neg (Nat.ne_of_gt hp)] at h
  split at h
  · cases h
  case h_2 e he =>
    split at h
    case isTrue => cases h
    case isFalse ht => exact ⟨e, he, not_not.mp ht⟩

theorem acceptEntries_commit (hc : Contiguous 0 (n.withEntries req).log)
    (hle : n.commitIndex ≤ (n.withEntries req).log.length) (hla : n.lastApplied = n.commitIndex) :
    n.commitIndex ≤ (n.acceptEntries req).commitIndex ∧
    (n.acceptEntries req).commitIndex ≤ (n.withEntries req).log.length ∧
    (n.acceptEntries req).lastApplied = (n.acceptEntries req).commitIndex ∧
    ((n.acceptEntries req).commitIndex = n.commitIndex ∨
      (n.acceptEntries req).commitIndex ≤ req.leaderCommit) := by
  have hlast := lastLogIndex_eq hc
  rcases n.acceptEntries_cases req with ⟨hlt, h⟩ | ⟨_, h⟩
  · have hap : (n.withEntries req).lastApplied = n.commitIndex := hla
    simp only [h, applyCommittedEntries_commitIndex, applyCommittedEntries_lastApplied, hlast, hap]
    omega
  · simp only [h]
    exact ⟨le_rfl, hle, hla, .inl rfl⟩

theorem acceptEntries_lastApplied (hc : Contiguous 0 (n.withEntries req).log)
    (hle : n.lastApplied ≤ (n.withEntries req).log.length) :
    n.lastApplied ≤ (n.acceptEntries req).lastApplied ∧
    (n.acceptEntries req).lastApplied ≤ (n.acceptEntries req).log.length := by
  rw [acceptEntries_log]
  rcases n.acceptEntries_cases req with ⟨_, h⟩ | ⟨_, h⟩
  · have hap : (n.withEntries req).lastApplied = n.lastApplied := rfl
    simp only [h, applyCommittedEntries_lastApplied, lastLogIndex_eq hc, hap]
    omega
  · rw [h]
    exact ⟨le_rfl, hle⟩

theorem acceptEntries_lastApplied_le (n : RaftNode) (req : AppendEntriesRequest) :
    (n.acceptEntries req).lastApplied ≤ max n.lastApplied req.leaderCommit := by
  rcases n.acceptEntries_cases req with ⟨_, h⟩ | ⟨_, h⟩
  · rw [h, applyCommittedEntries_lastApplied]
    exact max_le_max le_rfl (min_le_left ..)
  · rw [h]
    exact le_max_left ..

theorem tryAdvanceCommitIndex_cases (n : RaftNode) :
    n.tryAdvanceCommitIndex = n ∨ ∃ lease next matched commit entry,
      n.state = .leader lease next matched ∧
      n.config.quorumSize ≤ (matched.entries.map (·.2) ++ [n.lastLogIndex]).length ∧
      ((matched.entries.map (·.2) ++ [n.lastLogIndex]).insertionSort (· ≤ ·))[
        (matched.entries.map (·.2) ++ [n.lastLogIndex]).length - n.config.quorumSize]? =
          some commit ∧
      n.commitIndex < commit ∧ n.getLogEntry commit = some entry ∧ entry.term = n.currentTerm ∧
      n.tryAdvanceCommitIndex = { n with commitIndex := commit }.applyCommittedEntries := by
  unfold tryAdvanceCommitIndex
  split
  case h_2 => exact .inl rfl
  case h_1 lease next matched hs =>
    simp only [length_insertionSort]
    split_ifs with hq
    case neg => exact .inl rfl
    case pos =>
      split
      case h_2 => exact .inl rfl
      case h_1 commit hc =>
        split_ifs with hlt
        case neg => exact .inl rfl
        case pos =>
          split
          case h_2 => exact .inl rfl
          case h_1 entry he =>
            split_ifs with ht
            case neg => exact .inl rfl
            case pos =>
              exact .inr ⟨lease, next, matched, commit, entry, hs, hq, hc, hlt, he, ht, rfl⟩

@[simp]
theorem tryAdvanceCommitIndex_rest (n : RaftNode) :
    n.tryAdvanceCommitIndex.state = n.state ∧ n.tryAdvanceCommitIndex.log = n.log ∧
    n.tryAdvanceCommitIndex.votedFor = n.votedFor ∧
    n.tryAdvanceCommitIndex.currentTerm = n.currentTerm := by
  rcases n.tryAdvanceCommitIndex_cases with h | ⟨_, _, _, _, _, _, _, _, _, _, _, h⟩ <;> simp [h]

theorem tryAdvanceCommitIndex_commitIndex_le (hle : n.commitIndex ≤ n.log.length) :
    n.tryAdvanceCommitIndex.commitIndex ≤ n.log.length := by
  rcases n.tryAdvanceCommitIndex_cases with h | ⟨_, _, _, c, e, _, _, _, _, he, _, h⟩
  · rwa [h]
  · rw [h, applyCommittedEntries_commitIndex]
    exact le_of_getLogEntry he

theorem tryAdvanceCommitIndex_lastApplied (hle : n.lastApplied ≤ n.log.length) :
    n.lastApplied ≤ n.tryAdvanceCommitIndex.lastApplied ∧
    n.tryAdvanceCommitIndex.lastApplied ≤ n.log.length := by
  rcases n.tryAdvanceCommitIndex_cases with h | ⟨_, _, _, c, e, _, _, _, hlt, he, _, h⟩
  · rw [h]
    exact ⟨le_rfl, hle⟩
  · have := le_of_getLogEntry he
    simp only [h, applyCommittedEntries_lastApplied]
    omega

-- How far the node takes the log of peer `p` to match its own.
def matchIndexOf (n : RaftNode) (p : NodeId) : ℕ :=
  match n.state with
  | .leader _ _ matchIndex => (matchIndex.lookup p).getD 0
  | _ => 0

theorem mem_foldl_insert {peers : List PeerConfig} :
    p ∈ peers.foldl (fun m q => m.insert q.id v) m ↔ p ∈ m ∨ p ∈ peers.map (·.id) := by
  induction peers generalizing m
  case nil => simp
  case cons q peers hi =>
    rw [foldl_cons, hi]
    simp [or_assoc, or_left_comm]

theorem lookup_foldl_insert {peers : List PeerConfig}
    (h : (peers.foldl (fun m q => m.insert q.id v) m).lookup p = some k) :
    k = v ∨ m.lookup p = some k := by
  induction peers generalizing m
  case nil => exact .inr h
  case cons q peers hi =>
    cases hi h
    case inl h => exact .inl h
    case inr h =>
      by_cases hp : p = q.id
      case pos =>
        subst hp
        exact .inl <| by simpa [AList.lookup_insert, eq_comm] using h
      case neg => exact .inr <| AList.lookup_insert_ne hp ▸ h

-- A new leader takes nothing for stored.
@[simp]
theorem matchIndexOf_transitionToLeader (n : RaftNode) (p : NodeId) :
    n.transitionToLeader.matchIndexOf p = 0 := by
  simp only [matchIndexOf, transitionToLeader]
  cases hk : (n.config.peers.foldl (fun m p => m.insert p.id 0) (∅ : IndexMap)).lookup p
  case none => rfl
  case some k =>
    cases lookup_foldl_insert hk
    case inl h => exact h
    case inr h => simp at h

theorem state_of_isLeader (h : n.isLeader) :
    ∃ lease next matched, n.state = .leader lease next matched := by
  unfold isLeader at h
  split at h
  case h_1 hs => exact ⟨_, _, _, hs⟩
  case h_2 => cases h

theorem of_propose_ok (h : n.propose command = .ok (n', index)) :
    n.isLeader ∧ index = n.lastLogIndex + 1 ∧
      n' = { n with log := n.log ++ [⟨n.currentTerm, n.lastLogIndex + 1, command, .command⟩] } := by
  unfold propose at h
  split at h
  case isFalse => cases h
  case isTrue hl =>
    cases h
    exact ⟨hl, rfl, rfl⟩

theorem of_batchPropose_ok
    (h : n.batchPropose commands = .ok (n', indices)) :
    n.isLeader ∧
      n' = { n with log := n.log ++ batchEntries n.currentTerm (n.lastLogIndex + 1) commands } := by
  unfold batchPropose at h
  split at h
  case isFalse => cases h
  case isTrue hl =>
    cases h
    exact ⟨hl, rfl⟩

theorem contiguous_transitionToLeader (h : Contiguous 0 n.log) :
    Contiguous 0 n.transitionToLeader.log := by
  refine Contiguous.append_iff.mpr ⟨h, ?_⟩
  simp [lastLogIndex_eq h]

theorem contiguous_propose (hp : n.propose command = .ok (n', index)) (h : Contiguous 0 n.log) :
    Contiguous 0 n'.log := by
  have ⟨_, _, hn⟩ := of_propose_ok hp
  rw [hn, Contiguous.append_iff]
  exact ⟨h, by simp [lastLogIndex_eq h]⟩

theorem contiguous_batchPropose (hp : n.batchPropose commands = .ok (n', indices))
    (h : Contiguous 0 n.log) : Contiguous 0 n'.log := by
  have ⟨_, hn⟩ := of_batchPropose_ok hp
  rw [hn, Contiguous.append_iff, Nat.zero_add, ← lastLogIndex_eq h]
  exact ⟨h, .batchEntries ..⟩

-- Neither the log nor what was committed and applied has changed.
structure Untouched (n n' : RaftNode) : Prop where
  config : n'.config = n.config
  log : n'.log = n.log
  commitIndex : n'.commitIndex = n.commitIndex
  lastApplied : n'.lastApplied = n.lastApplied
  fsm : n'.fsm = n.fsm

-- The node changed its term, its vote or its role, and it is only a leader if it was one before.
structure Quiet (n n' : RaftNode) : Prop extends Untouched n n' where
  term : n.currentTerm ≤ n'.currentTerm
  role : n'.isLeader → n'.state = n.state ∧ n'.currentTerm = n.currentTerm

namespace Quiet

theorem refl (n : RaftNode) : Quiet n n where
  config := rfl
  log := rfl
  commitIndex := rfl
  lastApplied := rfl
  fsm := rfl
  term := le_rfl
  role _ := ⟨rfl, rfl⟩

theorem trans (h₁ : Quiet n₁ n₂) (h₂ : Quiet n₂ n₃) : Quiet n₁ n₃ where
  config := h₂.config.trans h₁.config
  log := h₂.log.trans h₁.log
  commitIndex := h₂.commitIndex.trans h₁.commitIndex
  lastApplied := h₂.lastApplied.trans h₁.lastApplied
  fsm := h₂.fsm.trans h₁.fsm
  term := h₁.term.trans h₂.term
  role hl := by
    have ⟨hs, ht⟩ := h₂.role hl
    have ⟨hs', ht'⟩ := h₁.role (by simpa [isLeader, hs] using hl)
    exact ⟨hs.trans hs', ht.trans ht'⟩

end Quiet

theorem Quiet.matchIndexOf (h : Quiet n n') (p : NodeId) :
    n'.matchIndexOf p = n.matchIndexOf p ∨ n'.matchIndexOf p = 0 := by
  cases hl : n'.isLeader
  case true => exact .inl <| by simp [RaftNode.matchIndexOf, (h.role hl).1]
  case false =>
    refine .inr ?_
    unfold RaftNode.matchIndexOf
    split
    case h_1 hs => simp [isLeader, hs] at hl
    case h_2 => rfl

theorem quiet_stepDown (h : n.currentTerm ≤ T) (leaderId : Option NodeId) :
    Quiet n (n.stepDown T leaderId) :=
  { Quiet.refl n with term := h, role := nofun }

theorem quiet_transitionToCandidate (h : n.currentTerm + 1 < u64Size) (now : Instant) :
    Quiet n (n.transitionToCandidate now) := by
  refine { Quiet.refl n with term := ?_, role := nofun }
  simp [transitionToCandidate, Nat.mod_eq_of_lt h]

theorem quiet_decideVote (n : RaftNode) (req : RequestVoteRequest) (now : Instant) :
    Quiet n (n.decideVote req now).1 := by
  simp only [decideVote]
  split
  case isTrue => exact { Quiet.refl n with }
  case isFalse => exact .refl n

theorem quiet_handleRequestVote (n : RaftNode) (req : RequestVoteRequest) (now : Instant) :
    Quiet n (n.handleRequestVote req now).1 := by
  unfold handleRequestVote
  split
  case isTrue => exact .refl n
  case isFalse =>
    split
    case isTrue h => exact (quiet_stepDown (le_of_lt h) none).trans (quiet_decideVote ..)
    case isFalse => exact quiet_decideVote ..

theorem quiet_followLeader (n : RaftNode) (req : AppendEntriesRequest) (now : Instant) :
    Quiet n (n.followLeader req now) := by
  simp only [followLeader]
  split
  case isTrue h => exact { Quiet.refl n with term := le_of_lt h, role := nofun }
  case isFalse => exact { Quiet.refl n with role := nofun }

-- A response to a vote request either leaves the node as quiet or makes it a leader.
theorem handleRequestVoteResponse_cases (n : RaftNode) (fromId : NodeId)
    (resp : RequestVoteResponse) :
    Quiet n (n.handleRequestVoteResponse fromId resp) ∨ ∃ votes, n.config.quorumSize ≤ votes.card ∧
      n.handleRequestVoteResponse fromId resp =
        { n with state := .candidate votes }.transitionToLeader := by
  unfold handleRequestVoteResponse
  split
  case isTrue h => exact .inl <| quiet_stepDown (le_of_lt h) none
  split
  case h_2 => exact .inl <| .refl n
  case h_1 votes hs =>
    split
    case isFalse => exact .inl <| .refl n
    case isTrue =>
      dsimp only
      split
      case isTrue hq => exact .inr ⟨_, hq, rfl⟩
      case isFalse => exact .inl { Quiet.refl n with role := nofun }

-- The entry of an existing key replaced, as the response handler does it.
def replaceIndex (m : IndexMap) (p : NodeId) (k : ℕ) : IndexMap :=
  match m.lookup p with
  | some _ => m.insert p k
  | none => m

theorem mem_replaceIndex : q ∈ replaceIndex m p k ↔ q ∈ m := by
  unfold replaceIndex
  split
  case h_2 => rfl
  case h_1 hp =>
    rw [AList.mem_insert, or_iff_right_iff_imp]
    rintro rfl
    exact AList.lookup_isSome.mp (by simp [hp])

theorem lookup_replaceIndex (h : (replaceIndex m p k).lookup q = some j) :
    m.lookup q = some j ∨ (q = p ∧ j = k) := by
  unfold replaceIndex at h
  split at h
  · by_cases hq : q = p
    case pos =>
      rw [hq, AList.lookup_insert] at h
      exact .inr ⟨hq, Option.some.inj h |>.symm⟩
    case neg => exact .inl <| AList.lookup_insert_ne hq ▸ h
  · exact .inl h

-- A response to an append request makes the node step down, only moves the peer's next index, or
-- raises its match index to the end of the log.
theorem handleAppendEntriesResponse_cases (n : RaftNode) (fromId : NodeId)
    (resp : AppendEntriesResponse) (k : ℕ) (now : Instant) :
    Quiet n (n.handleAppendEntriesResponse fromId resp k now) ∨
    (∃ lease next matched next', n.state = .leader lease next matched ∧
      n.handleAppendEntriesResponse fromId resp k now =
        { n with state := .leader lease next' matched }) ∨
    (∃ lease next matched lease' next', n.state = .leader lease next matched ∧ resp.success ∧
      n.handleAppendEntriesResponse fromId resp k now =
        { n with
          state := .leader lease' next' (replaceIndex matched fromId n.lastLogIndex)
        }.tryAdvanceCommitIndex) := by
  unfold handleAppendEntriesResponse
  split
  case isTrue h => exact .inl <| quiet_stepDown (le_of_lt h) none
  split
  case h_2 => exact .inl <| .refl n
  case h_1 lease next matched hs =>
    split
    case isTrue hsucc => exact .inr <| .inr ⟨lease, next, matched, _, _, hs, hsucc, rfl⟩
    case isFalse =>
      split
      · exact .inr <| .inl ⟨lease, next, matched, _, hs, rfl⟩
      · exact .inl <| .refl n

-- The request is of the node's term or a newer one, and passes the consistency check.
def Accepts (n : RaftNode) (req : AppendEntriesRequest) : Prop :=
  n.currentTerm ≤ req.term ∧ n.prevConflict req = none

instance (n : RaftNode) (req : AppendEntriesRequest) : Decidable (n.Accepts req) :=
  inferInstanceAs <| Decidable (_ ∧ _)

theorem prevConflict_followLeader :
    (n.followLeader req now).prevConflict req = none ↔ n.prevConflict req = none := by
  simp only [prevConflict, getLogEntry, followLeader_log]
  split
  case isFalse => exact Iff.rfl
  case isTrue =>
    split
    · simp
    · split <;> simp

-- An append request is refused, or its entries are accepted in its term.
theorem handleAppendEntries_cases (n : RaftNode) (req : AppendEntriesRequest) (now : Instant) :
    (Quiet n (n.handleAppendEntries req now).1 ∧
      (n.handleAppendEntries req now).2.success = false) ∨
    (n.Accepts req ∧ n.handleAppendEntries req now =
        ((n.followLeader req now).acceptEntries req, ⟨req.term, true, none, none⟩)) := by
  unfold handleAppendEntries
  split
  case isTrue => exact .inl ⟨.refl n, rfl⟩
  case isFalse h =>
    dsimp only
    split
    case h_1 hc => exact .inl ⟨quiet_followLeader .., success_of_prevConflict hc⟩
    case h_2 hc =>
      exact .inr ⟨⟨not_lt.mp h, prevConflict_followLeader.mp hc⟩,
        by rw [followLeader_currentTerm _ _ _ h]⟩

end RaftNode

-- A request without entries and without a previous term is a heartbeat, which any node may send
-- while a `propose` call waits, or it points behind the leader's log and is refused.
def Idle (req : AppendEntriesRequest) : Prop :=
  req.entries = [] ∧ req.prevLogTerm = 0

-- The request carries a piece of the log `L`, with the term of the entry before it.
def Excerpt (L : List LogEntry) (req : AppendEntriesRequest) : Prop :=
  (req.prevLogIndex = 0 ∨ ∃ e, L[req.prevLogIndex - 1]? = some e ∧ e.term = req.prevLogTerm) ∧
  req.entries <+: L.drop req.prevLogIndex

variable {n : RaftNode}

theorem Excerpt.mono (h : Excerpt L₁ req) (hp : L₁ <+: L₂) : Excerpt L₂ req :=
  ⟨h.1.imp_right fun ⟨e, he, ht⟩ => ⟨e, hp.getElem?_some he, ht⟩, h.2.trans <| hp.drop _⟩

theorem Excerpt.length_le (h : Excerpt L req) :
    req.prevLogIndex + req.entries.length ≤ L.length := by
  have hk := h.2.length_le
  rw [length_drop] at hk
  rcases h.1 with h | ⟨e, he, _⟩
  · omega
  · have := List.getElem?_eq_some_iff.mp he |>.1
    omega

theorem Excerpt.contiguous (h : Excerpt L req) (hc : Contiguous 0 L) :
    Contiguous req.prevLogIndex req.entries := by
  have := hc.drop ((Nat.le_add_right _ _).trans h.length_le)
  rw [Nat.zero_add] at this
  exact this.of_isPrefix h.2

namespace RaftNode

theorem idle_or_excerpt (n : RaftNode) (hc : Contiguous 0 n.log) (peer : NodeId) :
    Idle (n.buildAppendEntriesRequest peer) ∨
    (n.isLeader ∧ Excerpt n.log (n.buildAppendEntriesRequest peer)) := by
  simp only [buildAppendEntriesRequest, getEntriesForPeer, isLeader]
  cases hs : n.state
  case follower | candidate => exact .inl ⟨rfl, rfl⟩
  case leader lease next matched =>
    simp only [hc.filter_index, Nat.sub_zero]
    generalize (next.lookup peer).getD 1 - 1 = prev
    have hes : (n.log.drop prev).take n.config.maxEntriesPerRpc <+: n.log.drop prev :=
      take_prefix _ _
    by_cases hz : prev = 0
    case pos => exact .inr ⟨trivial, .inl hz, hes⟩
    simp only [getLogEntry, hz, if_false]
    cases he : n.log[prev - 1]?
    case some e => exact .inr ⟨trivial, .inr ⟨e, he, rfl⟩, hes⟩
    case none =>
      -- The peer's next index is beyond the end of the log.
      have := List.getElem?_eq_none_iff.mp he
      exact .inl ⟨by simp; omega, rfl⟩

theorem contiguous_entries (hc : Contiguous 0 n.log) (peer : NodeId) :
    Contiguous (n.buildAppendEntriesRequest peer).prevLogIndex
      (n.buildAppendEntriesRequest peer).entries := by
  cases n.idle_or_excerpt hc peer
  case inl hi => exact hi.1 ▸ .nil
  case inr hx => exact hx.2.contiguous hc

theorem le_of_prevConflict (h : n.prevConflict req = none) : req.prevLogIndex ≤ n.log.length := by
  by_cases hp : 0 < req.prevLogIndex
  case pos =>
    have ⟨_, he, _⟩ := prev_of_prevConflict h hp
    have := List.getElem?_eq_some_iff.mp he |>.1
    omega
  case neg => omega

theorem prev_of_idle (hi : Idle req) (hpos : ∀ e ∈ n.log, 0 < e.term)
    (hp : n.prevConflict req = none) : req.prevLogIndex = 0 := by
  by_contra hne
  have ⟨e, he, ht⟩ := prev_of_prevConflict hp (Nat.pos_of_ne_zero hne)
  exact absurd (ht.trans hi.2) (Nat.ne_of_gt <| hpos e <| mem_of_getElem? he)

theorem take_prevLogIndex (hm : Matching n.log L) (hx : Excerpt L req)
    (hp : n.prevConflict req = none) : n.log.take req.prevLogIndex = L.take req.prevLogIndex := by
  by_cases hz : req.prevLogIndex = 0
  case pos => simp [hz]
  case neg =>
    have ⟨e, he, ht⟩ := hx.1.resolve_left hz
    have ⟨f, hf, ht'⟩ := prev_of_prevConflict hp (Nat.pos_of_ne_zero hz)
    have := hm _ f e hf he (ht'.trans ht.symm)
    rwa [Nat.sub_add_cancel (Nat.pos_of_ne_zero hz)] at this

-- What a piece of `L` that passed the consistency check makes of the log.
theorem withEntries_eq_merge (he : Excerpt L req) (hL : Contiguous 0 L) (hm : Matching n.log L)
    (hp : n.prevConflict req = none) : (n.withEntries req).log =
      ReplicatedLog.merge n.log (L.take (req.prevLogIndex + req.entries.length)) := by
  exact foldl_appendEntry hL hm (take_prevLogIndex hm he hp ▸ take_prefix _ _) he.2

end RaftNode

end Raft
