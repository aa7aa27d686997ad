import AppliedCs.Lib.Transition
import AppliedCs.Raft.Theorems.Calls

namespace Raft

open Transition RaftNode

-- The calls after which entries may be gone from the front of the log.
def Call.discards : Call → Bool
  | .handleInstallSnapshot .. => true
  | .clusterHandleInstallSnapshot .. => true
  | .installSnapshotData .. => true
  | .createSnapshot => true
  | .compactLog _ => true
  | _ => false

-- A node with the last index that its log has used. Discarding entries does not give their
-- indices back.
structure LogUse where
  node : RaftNode
  lastUsed : ℕ := 0

namespace LogUse

variable {s : LogUse}
def step (s : LogUse) (c : Call) : Option LogUse :=
  let n := s.node.call c
  some ⟨n, if c.discards then s.lastUsed else n.lastLogIndex⟩

structure WellAddressed (s : LogUse) : Prop where
  contiguous : ∃ b, Contiguous b s.node.log
  getLogEntry : ∀ index e, s.node.getLogEntry index = some e → e.index = index
  commitIndex : s.node.commitIndex ≤ s.node.lastLogIndex
  nodup : (s.node.log.map (·.index)).Nodup
  lastLogIndex : s.node.lastLogIndex = s.lastUsed

-- Requests carry consecutive entries and do not conflict with committed ones, and nothing is
-- discarded.
def KeepsLog (s : LogUse) : Call → Prop
  | .handleAppendEntries req _ => s.node.Accepts req →
    Contiguous req.prevLogIndex req.entries ∧ Compatible s.node.log s.node.commitIndex req.entries
  | .handleInstallSnapshot req _ =>
    (s.node.installs req).isSome → req.lastIncludedIndex = 0
  | .clusterHandleInstallSnapshot req _ =>
    req.term < s.node.currentTerm ∨ req.done = false ∨ req.lastIncludedIndex = 0
  | .installSnapshotData index _ => s.node.restored.isSome → index = 0
  | .createSnapshot => ∀ e ∈ s.node.log, s.node.fsm.lastAppliedIndex < e.index
  | .compactLog upTo => ∀ e ∈ s.node.log, upTo < e.index
  | _ => True

instance (s : LogUse) : (c : Call) → Decidable (s.KeepsLog c)
  | .handleAppendEntries .. => inferInstanceAs <| Decidable (_ → _ ∧ _)
  | .handleInstallSnapshot .. => inferInstanceAs <| Decidable (_ → _)
  | .clusterHandleInstallSnapshot .. => inferInstanceAs <| Decidable (_ ∨ _)
  | .installSnapshotData .. => inferInstanceAs <| Decidable (_ → _)
  | .createSnapshot =>
    inferInstanceAs <| Decidable (∀ e ∈ s.node.log, s.node.fsm.lastAppliedIndex < e.index)
  | .compactLog upTo => inferInstanceAs <| Decidable (∀ e ∈ s.node.log, upTo < e.index)
  | .transitionToCandidate _ | .transitionToLeader | .handleRequestVote .. | .propose _
  | .handleRequestVoteResponse .. | .handleAppendEntriesResponse .. | .batchPropose _
  | .transferLeadership _ | .startPreVote | .handlePreVoteRequest .. | .handlePreVoteResponse .. =>
    .isTrue trivial

structure Inv (s : LogUse) : Prop where
  contiguous : Contiguous 0 s.node.log
  commit_le : s.node.commitIndex ≤ s.node.log.length
  lastUsed : s.lastUsed = s.node.log.length

theorem Inv.wellAddressed (h : Inv s) : WellAddressed s where
  contiguous := ⟨0, h.contiguous⟩
  getLogEntry index e he := by
    cases index
    case zero => simp [getLogEntry] at he
    case succ k => simpa using h.contiguous.index_eq (getLogEntry_succ ▸ he)
  commitIndex := lastLogIndex_eq h.contiguous ▸ h.commit_le
  nodup := h.contiguous.nodup_index
  lastLogIndex := (lastLogIndex_eq h.contiguous).trans h.lastUsed.symm

-- The log and the commit index of a node that has discarded nothing.
theorem Inv.set_keep (h : Inv s) (hs : s.step c = some s₂) (hd : c.discards)
    (hl : (s.node.call c).log = s.node.log)
    (hc : (s.node.call c).commitIndex ≤ s.node.commitIndex) : Inv s₂ := by
  simp only [LogUse.step, hd, if_true] at hs
  cases hs
  exact
    { contiguous := hl ▸ h.contiguous
      commit_le := hl ▸ hc.trans h.commit_le
      lastUsed := hl ▸ h.lastUsed }

theorem Inv.set (hs : s.step c = some s₂) (hd : c.discards = false)
    (hc : Contiguous 0 (s.node.call c).log)
    (hle : (s.node.call c).commitIndex ≤ (s.node.call c).log.length) : Inv s₂ := by
  simp only [LogUse.step, hd] at hs
  cases hs
  exact { contiguous := hc, commit_le := hle, lastUsed := lastLogIndex_eq hc }

theorem Inv.handleAppendEntries (h : Inv s) (hs : s.step (.handleAppendEntries req now) = some s₂)
    (hok : s.KeepsLog (.handleAppendEntries req now)) : Inv s₂ := by
  rcases s.node.handleAppendEntries_cases req now with ⟨hq, _⟩ | ⟨hacc, heq⟩
  · exact .set hs rfl (hq.log ▸ h.contiguous) (hq.log ▸ hq.commitIndex ▸ h.commit_le)
  · have ⟨hreq, hcomp⟩ := hok hacc
    have hf := s.node.quiet_followLeader req now
    have hcont : Contiguous 0 ((s.node.followLeader req now).withEntries req).log :=
      (hf.log ▸ h.contiguous).foldl_appendEntry hreq (hf.log ▸ le_of_prevConflict hacc.2)
    have hlen : s.node.commitIndex ≤
        ((s.node.followLeader req now).withEntries req).log.length := by
      rw [← List.length_take_of_le h.commit_le]
      exact (prefix_foldl_appendEntry (hf.log ▸ List.take_prefix _ _) hcomp).length_le
    have hcall : s.node.call (.handleAppendEntries req now) =
        (s.node.followLeader req now).acceptEntries req := by rw [call, heq]
    refine .set hs rfl (by rw [hcall]; simpa using hcont) ?_
    rw [hcall, acceptEntries_log]
    rcases (s.node.followLeader req now).acceptEntries_cases req with ⟨_, h'⟩ | ⟨_, h'⟩
    · rw [h', applyCommittedEntries_commitIndex, lastLogIndex_eq hcont]
      exact min_le_right _ _
    · rw [h']
      exact hf.commitIndex ▸ hlen

theorem Inv.handleAppendEntriesResponse (h : Inv s)
    (hs : s.step (.handleAppendEntriesResponse fromId resp k now) = some s₂) : Inv s₂ := by
  rcases s.node.handleAppendEntriesResponse_cases fromId resp k now with
    hq | ⟨lease, next, matched, next', _, heq⟩ | ⟨lease, next, matched, lease', next', _, _, heq⟩
  · exact .set hs rfl (hq.log ▸ h.contiguous) (hq.log ▸ hq.commitIndex ▸ h.commit_le)
  · exact .set hs rfl (by rw [call, heq]; exact h.contiguous)
      (by rw [call, heq]; exact h.commit_le)
  · refine .set hs rfl (by rw [call, heq]; simpa using h.contiguous) ?_
    rw [call, heq, (tryAdvanceCommitIndex_rest _).2.1]
    exact tryAdvanceCommitIndex_commitIndex_le h.commit_le

-- An index below every entry's discards nothing.
theorem filter_eq (h : ∀ e ∈ s.node.log, index < e.index) :
    s.node.log.filter (index < ·.index) = s.node.log :=
  List.filter_eq_self.mpr fun e he => decide_eq_true <| h e he

variable (h : Inv s)

include h

theorem Inv.zero_lt_index (hz : index = 0) : ∀ e ∈ s.node.log, index < e.index :=
  fun _ he => hz ▸ h.contiguous.lt_index he

-- Neither does a snapshot whose index is zero.
theorem Inv.set_install (hs : s.step c = some s₂)
    (hd : c.discards) (hz : index = 0) (hl : (s.node.call c).log =
      if s.node.lastLogIndex < index then [] else s.node.log.filter (index < ·.index))
    (hc : (s.node.call c).commitIndex = max s.node.commitIndex index) : Inv s₂ := by
  refine h.set_keep hs hd (hl.trans ?_) (hc.trans ?_).le
  · rw [if_neg (hz ▸ Nat.not_lt_zero _), filter_eq (h.zero_lt_index hz)]
  · rw [hz, Nat.max_zero]

theorem Inv.handleInstallSnapshot (hs : s.step (.handleInstallSnapshot req now) = some s₂)
    (hok : s.KeepsLog (.handleInstallSnapshot req now)) : Inv s₂ := by
  cases s.node.handleInstallSnapshot_cases req now
  case inl hu => exact h.set_keep hs rfl hu.2.log hu.2.commitIndex.le
  case inr hi =>
    have ⟨_, hi, hl, hc, _⟩ := hi
    exact h.set_install hs rfl (hok <| hi ▸ rfl) hl hc

theorem Inv.clusterHandleInstallSnapshot
    (hs : s.step (.clusterHandleInstallSnapshot req now) = some s₂)
    (hok : s.KeepsLog (.clusterHandleInstallSnapshot req now)) : Inv s₂ := by
  rcases s.node.clusterHandleInstallSnapshot_cases req now with ⟨_, hu⟩ | ⟨ht, hd, hl, hc, _⟩
  · exact h.set_keep hs rfl hu.log hu.commitIndex.le
  · have hz : req.lastIncludedIndex = 0 := by
      rcases hok with h' | h' | h'
      · exact absurd h' ht
      · simp [h'] at hd
      · exact h'
    exact h.set_keep hs rfl (hl.trans <| filter_eq <| h.zero_lt_index hz)
      (hc.trans hz |>.le.trans <| Nat.zero_le _)

theorem Inv.installSnapshotData (hs : s.step (.installSnapshotData index term) = some s₂)
    (hok : s.KeepsLog (.installSnapshotData index term)) : Inv s₂ := by
  cases s.node.installSnapshotData_cases index term
  case inl hu => exact h.set_keep hs rfl hu.2.log hu.2.commitIndex.le
  case inr hi =>
    have ⟨_, hi, _, hl, hc, _⟩ := hi
    exact h.set_install hs rfl (hok <| hi ▸ rfl) hl hc

theorem Inv.step (hs : s.step c = some s₂) (hok : s.KeepsLog c) : Inv s₂ := by
  by_cases hg : c.grows
  case pos =>
    have ⟨es, hes, hl, hc, _⟩ := s.node.grows_call hg
    rw [lastLogIndex_eq h.contiguous] at hes
    have hd : c.discards = false := by cases c <;> first | rfl | cases hg
    refine .set hs hd ?_ ?_
    · rw [hl, Contiguous.append_iff, Nat.zero_add]
      exact ⟨h.contiguous, hes⟩
    · rw [hl, hc, List.length_append]
      exact h.commit_le.trans (Nat.le_add_right ..)
  case neg =>
    cases c
    case handleAppendEntries => exact h.handleAppendEntries hs hok
    case handleAppendEntriesResponse => exact h.handleAppendEntriesResponse hs
    case handleInstallSnapshot => exact h.handleInstallSnapshot hs hok
    case clusterHandleInstallSnapshot => exact h.clusterHandleInstallSnapshot hs hok
    case installSnapshotData => exact h.installSnapshotData hs hok
    case createSnapshot | compactLog => exact h.set_keep hs rfl (filter_eq hok) le_rfl
    all_goals exact absurd rfl hg

-- When anything is discarded, either the first position holds an entry with a larger index, or
-- the log is empty and starts over at index 1.
theorem Inv.not_wellAddressed_compactLog (hs : s.step (.compactLog upTo) = some s₂)
    (hd : ¬s.KeepsLog (.compactLog upTo)) : ¬WellAddressed s₂ := by
  cases hs
  intro hw
  have ⟨e, he, hle⟩ : ∃ e ∈ s.node.log, e.index ≤ upTo := by simpa [KeepsLog] using hd
  have hpos := h.contiguous.lt_index he
  cases hl : s.node.log.filter (upTo < ·.index)
  case nil =>
    have hz : (s.node.compactLog upTo).lastLogIndex = 0 := by
      simp [lastLogIndex, compactLog, hl]
    have hused : s.node.log.length = 0 := h.lastUsed ▸ hw.lastLogIndex ▸ hz
    exact List.ne_nil_of_mem he (List.length_eq_zero_iff.mp hused)
  case cons f l =>
    have hf : upTo < f.index := by
      have : f ∈ s.node.log.filter (upTo < ·.index) := hl ▸ List.mem_cons_self
      simpa using (List.mem_filter.mp this).2
    have := hw.getLogEntry 1 f (by simp [getLogEntry, call, compactLog, hl])
    omega

end LogUse

open LogUse

-- Of the compactions, exactly those that remove nothing keep the log well-addressed.
theorem log_well_addressed {config : RaftConfig} {now : Instant} {storage : Option MemoryStorage}
    {snapshotStore : Option SnapshotStore} {s : LogUse} (h : Reaches step KeepsLog
      { node := .create config now storage snapshotStore } s) : s.WellAddressed ∧
    ∀ upTo s', s.step (.compactLog upTo) = some s' →
      (s'.WellAddressed ↔ s.KeepsLog (.compactLog upTo)) := by
  have hinv : Inv s := h.invariant
    { contiguous := .nil, commit_le := le_rfl, lastUsed := rfl }
    fun hi hok hs => Inv.step hi hs hok
  refine ⟨hinv.wellAddressed, fun upTo s' hs => ⟨fun hw => ?_, fun hok => ?_⟩⟩
  · by_contra hd
    exact hinv.not_wellAddressed_compactLog hs hd hw
  · exact (hinv.step hs hok).wellAddressed

def twoEntries : List LogEntry :=
  [⟨1, 1, .put [1] [2], .command⟩, ⟨1, 2, .delete [1], .command⟩]

theorem log_well_addressed_after_append :
    ∃ s, Reaches step KeepsLog { node := .create {} 0 none none } s ∧
      s.node.log = twoEntries ∧ s.node.lastApplied = 1 ∧ s.WellAddressed := by
  have ⟨s, r, hl, ha⟩ : ∃ s, Reaches step KeepsLog { node := .create {} 0 none none } s ∧
      s.node.log = twoEntries ∧ s.node.lastApplied = 1 :=
    Reaches.exists_of_run [.handleAppendEntries ⟨1, 2, 0, 0, twoEntries, 1⟩ 0] (by decide +kernel)
  exact ⟨s, r, hl, ha, (log_well_addressed r).1⟩

-- A snapshot of the first entry leaves the second one in its position. After a snapshot of both,
-- the node's last index is below its commit index, and it puts its next entry at index 1 again.
theorem compaction_moves_entries :
    (∃ s, Reaches step anyEvent { node := .create {} 0 none none } s ∧
      (s.node.getLogEntry 1).map (·.index) = some 2) ∧
    (∃ s, Reaches step anyEvent { node := .create {} 0 none none } s ∧
      s.lastUsed = 2 ∧ s.node.commitIndex = 2 ∧ s.node.lastLogIndex = 0 ∧
      s.node.transitionToLeader.log.map (·.index) = [1]) := by
  refine ⟨?_, ?_⟩
  · exact Reaches.exists_of_run
      [.handleAppendEntries ⟨1, 2, 0, 0, twoEntries, 1⟩ 0, .createSnapshot] (by decide +kernel)
  · exact Reaches.exists_of_run
      [.handleAppendEntries ⟨1, 2, 0, 0, twoEntries, 2⟩ 0, .createSnapshot] (by decide +kernel)

end Raft
