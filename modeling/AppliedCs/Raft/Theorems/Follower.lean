import AppliedCs.Raft.Theorems.Applied

namespace Raft

open ReplicatedLog List

-- At position `i` or before it, the two logs have entries of different terms.
def Conflicts (log L : List LogEntry) (i : ℕ) : Prop :=
  ∃ j ≤ i, ∃ f ∈ log[j]?, ∃ g ∈ L[j]?, f.term ≠ g.term

-- An entry of the request has another term than the entry that the log has in its place.
def Clashes (log entries : List LogEntry) : Prop :=
  ∃ e ∈ entries, ∃ f ∈ log[e.index - 1]?, f.term ≠ e.term

instance (log entries : List LogEntry) : Decidable (Clashes log entries) :=
  inferInstanceAs <| Decidable (∃ e ∈ entries, ∃ f ∈ log[e.index - 1]?, _ ≠ _)

variable {log : List LogEntry}

theorem Matching.refl (L : List LogEntry) : Matching L L :=
  fun _ _ _ _ _ _ => rfl

theorem Matching.of_isPrefix (h : Matching log L) (hp : l <+: log) : Matching l L := by
  intro k e f he hf ht
  have hk := List.getElem?_eq_some_iff.mp he |>.1
  rw [← h k e f (hp.getElem?_some he) hf ht, hp.take_eq_take (by omega)]

theorem Matching.merge (h : Matching log L) (m : ℕ) : Matching (merge log (L.take m)) L := by
  rcases merge_eq_or log (L.take m) with heq | heq <;> rw [heq]
  · exact h
  · exact (Matching.refl L).of_isPrefix (List.take_prefix _ _)

-- An entry that is not found any more stood in conflict with `L`, itself or through an entry
-- before it.
theorem Matching.conflicts_of_removed (h : Matching log L) (hm : m ≤ L.length)
    (he : log[i]? = some e) (hr : (ReplicatedLog.merge log (L.take m))[i]? ≠ some e) :
    Conflicts log L i := by
  by_contra hno
  -- Without a conflict the logs agree as far as both reach, and nothing is cut off.
  have hagree : ∀ j ≤ i, ∀ g, L[j]? = some g → log[j]? = some g := by
    intro j hj g hg
    have hlt : j < log.length := lt_of_le_of_lt hj (List.getElem?_eq_some_iff.mp he).1
    have hf := getElem?_eq_getElem hlt
    have ht : log[j].term = g.term := by
      by_contra hne
      exact hno ⟨j, hj, _, hf, g, hg, hne⟩
    have htake := congrArg (·[j]?) (h j _ g hf hg ht)
    simpa [hf, hg] using htake
  by_cases hp : L.take m <+: log
  case pos => exact hr <| (merge_eq_left hp).symm ▸ he
  rw [merge_eq_right hp] at hr
  by_cases hi : i < m
  case pos =>
    have hg := getElem?_eq_getElem (lt_of_lt_of_le hi hm)
    rw [getElem?_take_of_lt hi, hg, ← hagree i le_rfl _ hg] at hr
    exact hr he
  case neg =>
    refine hp <| prefix_iff_getElem?.mpr fun j hj => ?_
    rw [length_take] at hj
    rw [getElem_take]
    exact hagree j (by omega) _ <| getElem?_eq_getElem (by omega)

namespace RaftNode

variable {n l : RaftNode}

theorem prevConflict_of_success (h : (n.handleAppendEntries req now).2.success = true) :
    n.prevConflict req = none ∧
    (n.handleAppendEntries req now).1 = (n.followLeader req now).acceptEntries req := by
  rcases n.handleAppendEntries_cases req now with ⟨_, hf⟩ | ⟨ha, heq⟩
  · rw [hf] at h
    cases h
  · exact ⟨ha.2, congrArg Prod.fst heq⟩

theorem log_of_success (hL : Contiguous 0 L) (hm : Matching n.log L) (hx : Excerpt L req)
    (h : (n.handleAppendEntries req now).2.success = true) : (n.handleAppendEntries req now).1.log =
      merge n.log (L.take (req.prevLogIndex + req.entries.length)) := by
  have ⟨hp, heq⟩ := prevConflict_of_success h
  rw [heq, ← withEntries_eq_merge hx hL hm hp]
  simp [withEntries]

theorem handleAppendEntries_agrees (n : RaftNode) (L : List LogEntry) (req : AppendEntriesRequest)
    (now : Instant) (hn : Contiguous 0 n.log) (hL : Contiguous 0 L) (hm : Matching n.log L)
    (hx : Excerpt L req) : ((n.handleAppendEntries req now).2.success = true →
      Contiguous 0 (n.handleAppendEntries req now).1.log ∧
      Matching (n.handleAppendEntries req now).1.log L ∧
      (n.handleAppendEntries req now).1.log.take (req.prevLogIndex + req.entries.length) =
        L.take (req.prevLogIndex + req.entries.length) ∧
      ∀ i e, n.log[i]? = some e → (n.handleAppendEntries req now).1.log[i]? ≠ some e →
        Conflicts n.log L i) ∧ ((n.handleAppendEntries req now).2.success = false →
      (n.handleAppendEntries req now).1.log = n.log) := by
  constructor
  case left =>
    intro h
    rw [log_of_success hL hm hx h]
    refine ⟨?_, hm.merge _, ?_, fun i e he hr => hm.conflicts_of_removed hx.length_le he hr⟩
    · rcases merge_eq_or n.log (L.take (req.prevLogIndex + req.entries.length)) with heq | heq <;>
        rw [heq]
      · exact hn
      · exact hL.of_isPrefix (List.take_prefix _ _)
    · have hp := prefix_iff_eq_take.mp <|
        prefix_merge n.log (L.take (req.prevLogIndex + req.entries.length))
      rw [length_take_of_le hx.length_le] at hp
      exact hp.symm
  case right =>
    intro h
    rcases n.handleAppendEntries_cases req now with ⟨hq, _⟩ | ⟨_, heq⟩
    · exact hq.log
    · rw [heq] at h
      cases h

-- A follower whose second entry is left over from an old leader, and the leader that replaces it.
def staleFollower : RaftNode where
  config := { id := 2, peers := [⟨1⟩] }
  currentTerm := 1
  log := [⟨1, 1, .noOp, .noOp⟩, ⟨1, 2, .put [1] [1], .command⟩]

def newLeader : RaftNode where
  config := { id := 1, peers := [⟨2⟩], maxEntriesPerRpc := 1 }
  currentTerm := 2
  log := [⟨1, 1, .noOp, .noOp⟩, ⟨2, 2, .noOp, .noOp⟩]
  commitIndex := 2
  state := .leader none (AList.singleton 2 1) (AList.singleton 2 0)

theorem matching_newLeader : Matching staleFollower.log newLeader.log := by
  rintro (_ | _ | k) e f he hf ht
  · rfl
  · cases he
    cases hf
    cases ht
  · cases he

theorem handleAppendEntries_agrees_two :
    (staleFollower.handleAppendEntries ⟨2, 1, 1, 1, [⟨2, 2, .noOp, .noOp⟩], 0⟩ 0).1.log.take 2 =
      newLeader.log :=
  (handleAppendEntries_agrees staleFollower newLeader.log ⟨2, 1, 1, 1, [⟨2, 2, .noOp, .noOp⟩], 0⟩ 0
    (by decide) (by decide) matching_newLeader ⟨.inr ⟨_, rfl, rfl⟩, by decide⟩).1 (by decide)
    |>.2.2.1

-- As far as a request that does not clash with the log has checked it, the log is the leader's.
theorem take_eq_of_not_clashes (hL : Contiguous 0 L) (hm : Matching n.log L) (hx : Excerpt L req)
    (hp : n.prevConflict req = none) (hc : ¬Clashes n.log req.entries) (hq : q ≤ n.log.length)
    (hqm : q ≤ req.prevLogIndex + req.entries.length) : n.log.take q = L.take q := by
  have hcheck : n.log.take req.prevLogIndex = L.take req.prevLogIndex :=
    take_prevLogIndex hm hx hp
  by_cases hle : q ≤ req.prevLogIndex
  case pos =>
    have := congrArg (take q) hcheck
    rwa [take_take, take_take, min_eq_left hle] at this
  -- The last of the entries is one that the request carries.
  obtain ⟨i, rfl⟩ : ∃ i, q = i + 1 := ⟨q - 1, by omega⟩
  have hlt : i - req.prevLogIndex < req.entries.length := by omega
  have he : L[i]? = some req.entries[i - req.prevLogIndex] := by
    have := hx.2.getElem?_some (getElem?_eq_getElem hlt)
    rw [getElem?_drop] at this
    rwa [Nat.add_sub_cancel' (by omega)] at this
  have hi := hL.index_eq he
  have hf := getElem?_eq_getElem (l := n.log) (i := i) (by omega)
  refine hm i _ _ hf he <| not_not.mp fun hne => hc ⟨_, getElem_mem hlt, _, ?_, hne⟩
  rwa [hi, Nat.zero_add, Nat.add_sub_cancel]

-- A log that a request does not clash with is kept, and filled up with the leader's entries.
structure Extends (log L log' : List LogEntry) (m : ℕ) : Prop where
  grows : log <+: log'
  length : log'.length = max log.length m
  beyond : ∀ i, log.length ≤ i → i < log'.length → log'[i]? = L[i]?

theorem extends_of_not_clashes (hL : Contiguous 0 L) (hm : Matching n.log L) (hx : Excerpt L req)
    (hp : n.prevConflict req = none) (hc : ¬Clashes n.log req.entries) :
    Extends n.log L (merge n.log (L.take (req.prevLogIndex + req.entries.length)))
      (req.prevLogIndex + req.entries.length) := by
  have hlen := hx.length_le
  have htake := take_eq_of_not_clashes hL hm hx hp hc (q := min n.log.length _)
    (min_le_left _ _) (min_le_right _ (req.prevLogIndex + req.entries.length))
  generalize req.prevLogIndex + req.entries.length = m at hlen htake ⊢
  by_cases hle : m ≤ n.log.length
  case pos =>
    rw [min_eq_right hle] at htake
    rw [merge_eq_left (htake ▸ take_prefix _ _)]
    exact ⟨prefix_rfl, (max_eq_left hle).symm, fun i h₁ h₂ => absurd h₁ (not_le.mpr h₂)⟩
  have hlt : n.log.length < m := not_le.mp hle
  have hm' : (L.take m).length = m := length_take_of_le hlen
  have hnp : ¬L.take m <+: n.log := fun h => hle (hm' ▸ h.length_le)
  rw [min_eq_left (le_of_lt hlt), take_length] at htake
  rw [merge_eq_right hnp]
  refine ⟨htake ▸ take_prefix_take_left (le_of_lt hlt), ?_, fun i _ hi => ?_⟩
  · rw [hm', max_eq_right (le_of_lt hlt)]
  · exact getElem?_take_of_lt (hm' ▸ hi)

theorem merge_of_clashes (hL : Contiguous 0 L) (hx : Excerpt L req)
    (hc : Clashes n.log req.entries) :
    merge n.log (L.take (req.prevLogIndex + req.entries.length)) =
      L.take (req.prevLogIndex + req.entries.length) := by
  refine merge_eq_right fun hp => ?_
  obtain ⟨e, he, f, hf, hne⟩ := hc
  have ⟨k, hk⟩ := mem_iff_getElem?.mp he
  have hlt := List.getElem?_eq_some_iff.mp hk |>.1
  have hget := hx.2.getElem?_some hk
  rw [getElem?_drop] at hget
  have hi := hL.index_eq hget
  have := hp.getElem?_some <| (getElem?_take_of_lt (by omega)).trans hget
  rw [hi, Nat.zero_add] at hf
  exact hne <| congrArg LogEntry.term <| Option.some.inj <| hf.symm.trans this

-- What a leader's request that was answered with success has made of the log.
theorem log_of_request (hl : Contiguous 0 l.log) (hm : Matching n.log l.log)
    (h : (n.handleAppendEntries (l.buildAppendEntriesRequest peer) now).2.success = true) :
    let req := l.buildAppendEntriesRequest peer
    let log' := (n.handleAppendEntries req now).1.log
    if Clashes n.log req.entries then log' = l.log.take (req.prevLogIndex + req.entries.length)
    else Extends n.log l.log log' (req.prevLogIndex + req.entries.length) := by
  intro req log'
  have ⟨hp, heq⟩ := prevConflict_of_success h
  cases l.idle_or_excerpt hl peer
  case inr hx =>
    rw [show log' = _ from log_of_success hl hm hx.2 h]
    split
    case isTrue hc => exact merge_of_clashes hl hx.2 hc
    case isFalse hc => exact extends_of_not_clashes hl hm hx.2 hp hc
  case inl hi =>
    -- A request that points behind the leader's log carries no entries.
    have hes : req.entries = [] := hi.1
    have hlog : log' = n.log := by
      rw [show log' = _ from congrArg RaftNode.log heq, acceptEntries_log]
      simp [withEntries, hi.1]
    rw [if_neg (by simp [Clashes, hes]), hlog, hes, length_nil, Nat.add_zero]
    exact ⟨prefix_rfl, (max_eq_left <| le_of_prevConflict hp).symm,
      fun i h₁ h₂ => absurd h₁ (not_le.mpr h₂)⟩

theorem mem_appliedSince : (i + 1, e) ∈ n.appliedSince n' ↔
      n.lastApplied ≤ i ∧ i < n'.lastApplied ∧ n'.log[i]? = some e := by
  simp only [appliedSince, mem_filterMap, Option.map_eq_some_iff, mem_range'_1]
  constructor
  · rintro ⟨j, hj, f, hf, heq⟩
    obtain ⟨rfl, rfl⟩ := Prod.mk.inj heq
    exact ⟨by omega, by omega, getLogEntry_succ ▸ hf⟩
  · rintro ⟨h₁, h₂, he⟩
    exact ⟨i + 1, by omega, e, getLogEntry_succ ▸ he, rfl⟩

theorem pos_of_mem_appliedSince (h : p ∈ n.appliedSince n') : ∃ i, p.1 = i + 1 := by
  simp only [appliedSince, mem_filterMap, Option.map_eq_some_iff, mem_range'_1] at h
  obtain ⟨j, hj, f, _, rfl⟩ := h
  exact ⟨j - 1, by simp only; omega⟩

theorem forall_appliedSince :
    (∀ p ∈ n.appliedSince n', l.getLogEntry p.1 = some p.2) ↔
      ∀ i, n.lastApplied ≤ i → i < n'.lastApplied → ∀ e, n'.log[i]? = some e →
        l.log[i]? = some e := by
  constructor
  · intro h i h₁ h₂ e he
    exact getLogEntry_succ ▸ h (i + 1, e) (mem_appliedSince.mpr ⟨h₁, h₂, he⟩)
  · rintro h ⟨j, e⟩ hp
    obtain ⟨i, rfl⟩ := pos_of_mem_appliedSince hp
    have ⟨h₁, h₂, he⟩ := mem_appliedSince.mp hp
    exact getLogEntry_succ.trans <| h i h₁ h₂ e he

theorem indices_of_success (hc : Contiguous 0 (n.handleAppendEntries req now).1.log)
    (h : (n.handleAppendEntries req now).2.success = true) :
    if n.commitIndex < req.leaderCommit then
      (n.handleAppendEntries req now).1.commitIndex =
        min req.leaderCommit (n.handleAppendEntries req now).1.log.length ∧
      (n.handleAppendEntries req now).1.lastApplied =
        max n.lastApplied (n.handleAppendEntries req now).1.commitIndex else
      (n.handleAppendEntries req now).1.commitIndex = n.commitIndex ∧
      (n.handleAppendEntries req now).1.lastApplied = n.lastApplied := by
  have hq := quiet_followLeader n req now
  rw [(prevConflict_of_success h).2] at hc ⊢
  rw [acceptEntries_log] at hc
  rcases (n.followLeader req now).acceptEntries_cases req with ⟨hlt, heq⟩ | ⟨hle, heq⟩
  · have hap : ((n.followLeader req now).withEntries req).lastApplied = n.lastApplied :=
      hq.lastApplied
    rw [if_pos (hq.commitIndex ▸ hlt), heq]
    simp only [applyCommittedEntries_commitIndex, applyCommittedEntries_lastApplied,
      applyCommittedEntries_log, lastLogIndex_eq hc, hap, and_self]
  · rw [if_neg (not_lt.mpr <| hq.commitIndex ▸ hle), heq]
    exact ⟨hq.commitIndex, hq.lastApplied⟩

-- The commit index does not go up, or an entry of the request makes the follower cut off what the
-- request does not reach, or else the log has nothing up to the leader's commit index but what the
-- request covers or was committed before, and what is applied of it is the leader's.
def Verified (n : RaftNode) (L : List LogEntry) (req : AppendEntriesRequest) : Prop :=
  n.commitIndex < req.leaderCommit → ¬Clashes n.log req.entries →
    min req.leaderCommit n.log.length ≤ max n.commitIndex (req.prevLogIndex + req.entries.length) ∧
    ∀ i, n.lastApplied ≤ i → i < min req.leaderCommit n.log.length → n.log[i]? = L[i]?

theorem contiguous_of_request (hn : Contiguous 0 n.log) (hl : Contiguous 0 l.log)
    (h : (n.handleAppendEntries (l.buildAppendEntriesRequest peer) now).2.success = true) :
    Contiguous 0 (n.handleAppendEntries (l.buildAppendEntriesRequest peer) now).1.log := by
  have ⟨hp, heq⟩ := prevConflict_of_success h
  rw [heq, acceptEntries_log]
  simp only [withEntries, followLeader_log]
  exact hn.foldl_appendEntry (contiguous_entries hl peer) (le_of_prevConflict hp)

theorem commit_verified_iff (n l : RaftNode) (peer : NodeId) (now : Instant)
    (hn : Contiguous 0 n.log) (hl : Contiguous 0 l.log) (hm : Matching n.log l.log)
    (h : (n.handleAppendEntries (l.buildAppendEntriesRequest peer) now).2.success = true) :
    ((n.handleAppendEntries (l.buildAppendEntriesRequest peer) now).1.commitIndex ≤
        max n.commitIndex ((l.buildAppendEntriesRequest peer).prevLogIndex +
          (l.buildAppendEntriesRequest peer).entries.length) ∧
      ∀ p ∈ n.appliedSince (n.handleAppendEntries (l.buildAppendEntriesRequest peer) now).1,
        l.getLogEntry p.1 = some p.2) ↔ Verified n l.log (l.buildAppendEntriesRequest peer) := by
  have hind := indices_of_success (contiguous_of_request hn hl h) h
  have hlog := log_of_request hl hm h
  dsimp only at hlog
  rw [forall_appliedSince]
  generalize (n.handleAppendEntries (l.buildAppendEntriesRequest peer) now).1 = n' at hind hlog ⊢
  generalize l.buildAppendEntriesRequest peer = req at hind hlog ⊢
  unfold Verified
  by_cases hlt : n.commitIndex < req.leaderCommit
  case neg =>
    rw [if_neg hlt] at hind
    refine iff_of_true ⟨hind.1.le.trans (le_max_left _ _), fun i h₁ h₂ => ?_⟩ fun h => absurd h hlt
    omega
  rw [if_pos hlt] at hind
  by_cases hc : Clashes n.log req.entries
  case pos =>
    simp only [hc, if_true] at hlog
    refine iff_of_true ⟨?_, fun i _ hi e he => ?_⟩ fun _ h => absurd hc h
    · have := hlog ▸ length_take_le (req.prevLogIndex + req.entries.length) l.log
      omega
    · exact (hlog ▸ take_prefix _ _ : n'.log <+: l.log).getElem?_some he
  simp only [hc, if_false] at hlog
  simp only [hlt, hc, not_false_iff, forall_const]
  have hlen := hlog.length
  refine and_congr (by omega) ⟨fun h i h₁ h₂ => ?_, fun h i h₁ h₂ e he => ?_⟩
  · have he := getElem?_eq_getElem (l := n.log) (i := i) (by omega)
    exact he.trans (h i h₁ (by omega) _ (hlog.grows.getElem?_some he)).symm
  · by_cases hi : i < n.log.length
    case pos =>
      have he' := getElem?_eq_getElem hi
      rw [← h i h₁ (by omega), he', ← hlog.grows.getElem?_some he', he]
    case neg => exact hlog.beyond i (by omega) (by omega) ▸ he

theorem commit_verified_one :
    ({ staleFollower with log := staleFollower.log.take 1 }.handleAppendEntries
      (newLeader.buildAppendEntriesRequest 2) 0).1.commitIndex ≤ 1 := by
  refine (commit_verified_iff _ newLeader 2 0 (by decide) (by decide)
    (matching_newLeader.of_isPrefix <| take_prefix 1 _) (by decide)).mpr ?_ |>.1
  refine fun _ _ => ⟨by decide, fun i _ hi => ?_⟩
  obtain rfl : i = 0 := Nat.lt_one_iff.mp hi
  rfl

-- A batch of one entry, sent with the leader's commit index 2, makes the follower apply its own
-- second entry, which the leader has replaced.
theorem stale_entry_applied : Contiguous 0 staleFollower.log ∧ Contiguous 0 newLeader.log ∧
    Matching staleFollower.log newLeader.log ∧ newLeader.isLeader ∧
    (staleFollower.handleAppendEntries (newLeader.buildAppendEntriesRequest 2) 0).2.success ∧
    (newLeader.buildAppendEntriesRequest 2).prevLogIndex +
      (newLeader.buildAppendEntriesRequest 2).entries.length = 1 ∧
    (staleFollower.handleAppendEntries
      (newLeader.buildAppendEntriesRequest 2) 0).1.commitIndex = 2 ∧
    (2, ⟨1, 2, .put [1] [1], .command⟩) ∈ staleFollower.appliedSince
      (staleFollower.handleAppendEntries (newLeader.buildAppendEntriesRequest 2) 0).1 ∧
    newLeader.getLogEntry 2 = some ⟨2, 2, .noOp, .noOp⟩ :=
  ⟨by decide, by decide, matching_newLeader, by decide, by decide, by decide, by decide, by decide,
    rfl⟩

end RaftNode

end Raft
