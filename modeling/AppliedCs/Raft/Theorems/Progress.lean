import AppliedCs.Lib.Transition
import AppliedCs.Raft.Theorems.Calls

namespace Raft

open Codec Transition Reaches

namespace RaftNode

variable {n : RaftNode}

-- The snapshot that a call installs: its index and the state machine restored from it.
def installed (n : RaftNode) : Call → Option (ℕ × KeyValueFSM)
  | .handleInstallSnapshot req _ => (n.installs req).map (req.lastIncludedIndex, ·)
  | .clusterHandleInstallSnapshot req _ =>
    if req.term < n.currentTerm ∨ req.done = false then
      none
    else
      (n.fsm.restore ⟨req.lastIncludedIndex, req.lastIncludedTerm, req.data⟩).toOption.map
        (req.lastIncludedIndex, ·)
  | .installSnapshotData index _ => n.restored.map (index, ·)
  | _ => none

-- In a log that is numbered from 1 on, the apply loop finds the entries that follow.
theorem entriesAfter_numbered (hc : Contiguous 0 n.log) (hle : start + k ≤ n.log.length) :
    Contiguous start (n.entriesAfter start k) ∧ (n.entriesAfter start k).length = k := by
  induction k
  case zero => exact ⟨.nil, rfl⟩
  case succ k hi =>
    have ⟨hcont, hlen⟩ := hi (by omega)
    have hget : n.log[start + k]? = some n.log[start + k] := List.getElem?_eq_getElem (by omega)
    rw [entriesAfter_succ, getLogEntry_succ, hget, Contiguous.append_iff, hlen]
    refine ⟨⟨hcont, ?_, trivial⟩, by simp [hlen]⟩
    simpa using hc.index_eq hget

-- What a call that installs nothing can do: it leaves the applied part alone, or it moves the
-- commit index and applies what the log has up to there.
structure Stays (n n' : RaftNode) : Prop where
  commitIndex : n'.commitIndex = n.commitIndex
  lastApplied : n'.lastApplied = n.lastApplied
  fsm : n'.fsm = n.fsm

structure Advances (n n' : RaftNode) : Prop where
  lastApplied : n'.lastApplied = max n.lastApplied n'.commitIndex
  fsm : n'.fsm = n.fsm.feed (n'.entriesAfter n.lastApplied (n'.lastApplied - n.lastApplied))

theorem Untouched.stays (h : Untouched n n') : Stays n n' :=
  ⟨h.commitIndex, h.lastApplied, h.fsm⟩

theorem Advances.applyCommittedEntries {m : RaftNode} (ha : m.lastApplied = n.lastApplied)
    (hf : m.fsm = n.fsm) : Advances n m.applyCommittedEntries := by
  have hk : max m.lastApplied m.commitIndex - n.lastApplied = m.commitIndex - m.lastApplied := by
    omega
  constructor
  · rw [applyCommittedEntries_lastApplied, applyCommittedEntries_commitIndex, ha]
  · rw [applyCommittedEntries_lastApplied, hk, applyCommittedEntries_eq, hf, ha]
    rfl

theorem handleAppendEntries_progress (n : RaftNode) (req : AppendEntriesRequest) (now : Instant) :
    Stays n (n.handleAppendEntries req now).1 ∨ (n.Accepts req ∧ n.commitIndex < req.leaderCommit ∧
      (n.handleAppendEntries req now).1.log = req.entries.foldl appendEntry n.log ∧
      (n.handleAppendEntries req now).1.commitIndex =
        min req.leaderCommit (n.handleAppendEntries req now).1.lastLogIndex ∧
      Advances n (n.handleAppendEntries req now).1) := by
  rcases n.handleAppendEntries_cases req now with ⟨hq, _⟩ | ⟨hacc, heq⟩
  · exact .inl hq.toUntouched.stays
  · have hf := (n.quiet_followLeader req now).toUntouched
    rw [heq]
    rcases (n.followLeader req now).acceptEntries_cases req with ⟨hlt, h⟩ | ⟨_, h⟩
    · refine .inr ⟨hacc, hf.commitIndex ▸ hlt, ?_, ?_, ?_⟩
      · rw [acceptEntries_log, withEntries, hf.log]
      · rw [h, applyCommittedEntries_commitIndex]
        simp only [lastLogIndex, applyCommittedEntries_log]
      · rw [h]
        exact .applyCommittedEntries hf.lastApplied hf.fsm
    · rw [h]
      exact .inl ⟨hf.commitIndex, hf.lastApplied, hf.fsm⟩

theorem handleAppendEntriesResponse_progress (n : RaftNode) (fromId : NodeId)
    (resp : AppendEntriesResponse) (k : ℕ) (now : Instant) :
    Stays n (n.handleAppendEntriesResponse fromId resp k now) ∨
    (n.isLeader ∧ (n.handleAppendEntriesResponse fromId resp k now).log = n.log ∧
      n.commitIndex < (n.handleAppendEntriesResponse fromId resp k now).commitIndex ∧
      (n.handleAppendEntriesResponse fromId resp k now).commitIndex ≤ n.log.length ∧
      Advances n (n.handleAppendEntriesResponse fromId resp k now)) := by
  rcases n.handleAppendEntriesResponse_cases fromId resp k now with
    hq | ⟨_, _, _, _, _, heq⟩ | ⟨_, _, _, lease', next', hs, _, heq⟩
  · exact .inl hq.toUntouched.stays
  · rw [heq]
    exact .inl ⟨rfl, rfl, rfl⟩
  · rw [heq]
    rcases tryAdvanceCommitIndex_cases _ with h | ⟨_, _, _, _, _, _, _, _, hlt, he, _, h⟩
    · rw [h]
      exact .inl ⟨rfl, rfl, rfl⟩
    · rw [h]
      refine .inr ⟨by simp [isLeader, hs], applyCommittedEntries_log _, ?_, ?_,
        .applyCommittedEntries rfl rfl⟩
      · rw [applyCommittedEntries_commitIndex]
        exact hlt
      · rw [applyCommittedEntries_commitIndex]
        exact le_of_getLogEntry he

-- The log is numbered from 1 on, the request carries consecutive entries that do not conflict with
-- committed ones, and one of the two reaches the commit index.
structure Fits (n : RaftNode) (req : AppendEntriesRequest) : Prop where
  log : Contiguous 0 n.log
  entries : Contiguous req.prevLogIndex req.entries
  compatible : Compatible n.log n.commitIndex req.entries
  reaches : n.commitIndex ≤ max n.log.length (req.prevLogIndex + req.entries.length)

instance (n : RaftNode) (req : AppendEntriesRequest) : Decidable (n.Fits req) :=
  decidable_of_iff (_ ∧ _ ∧ _ ∧ _)
    ⟨fun ⟨h₁, h₂, h₃, h₄⟩ => ⟨h₁, h₂, h₃, h₄⟩, fun ⟨h₁, h₂, h₃, h₄⟩ => ⟨h₁, h₂, h₃, h₄⟩⟩

theorem Fits.contiguous (h : n.Fits req) (hacc : n.Accepts req) :
    Contiguous 0 (req.entries.foldl appendEntry n.log) :=
  h.log.foldl_appendEntry h.entries (le_of_prevConflict hacc.2)

theorem Fits.le_length (h : n.Fits req) (hacc : n.Accepts req) :
    n.commitIndex ≤ (req.entries.foldl appendEntry n.log).length := by
  have hle := (prefix_foldl_appendEntry (List.take_prefix ..) h.compatible).length_le
  have := (length_foldl_appendEntry h.entries (le_of_prevConflict hacc.2)).1
  have := h.reaches
  rw [List.length_take] at hle
  omega

end RaftNode

open RaftNode

-- A node with what its state machine was built from: a snapshot, or the empty state at index 0,
-- and the entries applied since.
structure NodeHistory where
  node : RaftNode
  baseIndex : ℕ := 0
  base : KeyValueFSM := {}
  entries : List LogEntry := []

namespace NodeHistory

def step (s : NodeHistory) (c : Call) : Option NodeHistory :=
  let n := s.node.call c
  some <| match s.node.installed c with
    | some (index, fsm) => { node := n, baseIndex := index, base := fsm }
    | none =>
      { s with
        node := n
        entries := s.entries ++
          n.entriesAfter s.node.lastApplied (n.lastApplied - s.node.lastApplied) }

-- The state machine holds the entries up to the last applied index, in order and once each.
structure Replays (s : NodeHistory) : Prop where
  applied_le : s.node.lastApplied ≤ s.node.commitIndex
  base : s.base.lastAppliedIndex = s.baseIndex
  contiguous : Contiguous s.baseIndex s.entries
  length : s.baseIndex + s.entries.length = s.node.lastApplied
  fsm : s.node.fsm = s.base.feed s.entries

-- Entries are only applied from logs that are numbered from 1 on, and snapshots are complete,
-- consistent and not older than the node.
def KeepsProgress (s : NodeHistory) : Call → Prop
  | .handleAppendEntries req _ =>
    s.node.Accepts req → s.node.commitIndex < req.leaderCommit → s.node.Fits req
  | .handleAppendEntriesResponse .. => s.node.isLeader → Contiguous 0 s.node.log
  | .handleInstallSnapshot req _ =>
    ∀ fsm ∈ s.node.installs req,
      s.node.lastApplied ≤ req.lastIncludedIndex ∧ fsm.lastAppliedIndex = req.lastIncludedIndex
  | .installSnapshotData index _ =>
    ∀ fsm ∈ s.node.restored, s.node.lastApplied ≤ index ∧ fsm.lastAppliedIndex = index
  | .clusterHandleInstallSnapshot req _ =>
    ¬(req.term < s.node.currentTerm ∨ req.done = false) →
      s.node.commitIndex ≤ req.lastIncludedIndex ∧ (KeyValues.decode req.data).isSome
  | _ => True

instance (s : NodeHistory) : (c : Call) → Decidable (s.KeepsProgress c)
  | .handleAppendEntries .. => inferInstanceAs <| Decidable (_ → _ → _)
  | .handleAppendEntriesResponse .. => inferInstanceAs <| Decidable (_ → _)
  | .handleInstallSnapshot req _ =>
    inferInstanceAs <| Decidable (∀ fsm ∈ s.node.installs req, _ ∧ _)
  | .clusterHandleInstallSnapshot .. => inferInstanceAs <| Decidable (¬(_ ∨ _) → _)
  | .installSnapshotData .. => inferInstanceAs <| Decidable (∀ fsm ∈ s.node.restored, _ ∧ _)
  | .createSnapshot | .compactLog _
  | .transitionToCandidate _ | .transitionToLeader | .handleRequestVote .. | .propose _
  | .handleRequestVoteResponse .. | .batchPropose _
  | .transferLeadership _ | .startPreVote | .handlePreVoteRequest .. | .handlePreVoteResponse .. =>
    .isTrue trivial

-- What a single call keeps.
structure Kept (s s₂ : NodeHistory) : Prop where
  commitIndex : s.node.commitIndex ≤ s₂.node.commitIndex
  lastApplied : s.node.lastApplied ≤ s₂.node.lastApplied
  replays : Replays s₂

theorem Replays.stay (h : Replays s) (hn : s.node.Stays n) : Kept s { s with
      node := n
      entries := s.entries ++
        n.entriesAfter s.node.lastApplied (n.lastApplied - s.node.lastApplied) } := by
  have hnil : n.entriesAfter s.node.lastApplied (n.lastApplied - s.node.lastApplied) = [] := by
    rw [hn.lastApplied, Nat.sub_self]
    rfl
  rw [hnil, List.append_nil]
  exact
    { commitIndex := hn.commitIndex.ge
      lastApplied := hn.lastApplied.ge
      replays :=
        { applied_le := hn.lastApplied.trans_le <| h.applied_le.trans hn.commitIndex.ge
          base := h.base
          contiguous := h.contiguous
          length := h.length.trans hn.lastApplied.symm
          fsm := hn.fsm.trans h.fsm } }

theorem Replays.advance (h : Replays s) (hn : s.node.Advances n)
    (hc : s.node.commitIndex ≤ n.commitIndex) (hlog : Contiguous 0 n.log)
    (hend : n.commitIndex ≤ n.log.length) : Kept s { s with
      node := n
      entries := s.entries ++
        n.entriesAfter s.node.lastApplied (n.lastApplied - s.node.lastApplied) } := by
  have hle : s.node.lastApplied ≤ n.lastApplied := hn.lastApplied ▸ le_max_left ..
  have hfit : s.node.lastApplied + (n.lastApplied - s.node.lastApplied) ≤ n.log.length := by
    have := h.applied_le
    have := hn.lastApplied
    omega
  have ⟨hcont, hlen⟩ := entriesAfter_numbered hlog hfit
  exact
    { commitIndex := hc
      lastApplied := hle
      replays :=
        { applied_le := hn.lastApplied ▸ max_le (h.applied_le.trans hc) le_rfl
          base := h.base
          contiguous := Contiguous.append_iff.mpr ⟨h.contiguous, h.length ▸ hcont⟩
          length := by
            have := h.length
            simp only [List.length_append, hlen]
            omega
          fsm := by rw [hn.fsm, h.fsm, KeyValueFSM.feed_append] } }

theorem Kept.install {fsm : KeyValueFSM} (hc : s.node.commitIndex ≤ n.commitIndex)
    (ha : s.node.lastApplied ≤ index) (hi : index ≤ n.commitIndex) (hn : n.lastApplied = index)
    (hf : n.fsm = fsm) (hfsm : fsm.lastAppliedIndex = index) :
    Kept s { node := n, baseIndex := index, base := fsm } where
  commitIndex := hc
  lastApplied := hn ▸ ha
  replays :=
    { applied_le := hn ▸ hi
      base := hfsm
      contiguous := .nil
      length := hn.symm
      fsm := hf }

theorem Kept.install_max {fsm : KeyValueFSM}
    (h : s.node.lastApplied ≤ index ∧ fsm.lastAppliedIndex = index)
    (hc : n.commitIndex = max s.node.commitIndex index) (hn : n.lastApplied = index)
    (hf : n.fsm = fsm) : Kept s { node := n, baseIndex := index, base := fsm } :=
  .install (hc ▸ le_max_left ..) h.1 (hc ▸ le_max_right ..) hn hf h.2

theorem Replays.step (h : Replays s) (hok : s.KeepsProgress c) (hs : s.step c = some s₂) :
    Kept s s₂ := by
  cases hs
  by_cases hg : c.grows
  case pos =>
    have ⟨_, _, _, hc, ha, hf⟩ := s.node.grows_call hg
    have hi : s.node.installed c = none := by cases c <;> first | rfl | cases hg
    rw [hi]
    exact h.stay ⟨hc, ha, hf⟩
  cases c
  case handleAppendEntries req now =>
    rcases s.node.handleAppendEntries_progress req now with hn | ⟨hacc, hlt, hlog, hc, hn⟩
    · exact h.stay hn
    · have hfit := hok hacc hlt
      have hcont : Contiguous 0 (s.node.handleAppendEntries req now).1.log :=
        hlog ▸ hfit.contiguous hacc
      rw [lastLogIndex_eq hcont] at hc
      refine h.advance hn (hc ▸ le_min hlt.le ?_) hcont (hc ▸ min_le_right ..)
      exact hlog ▸ hfit.le_length hacc
  case handleAppendEntriesResponse fromId resp k now =>
    rcases s.node.handleAppendEntriesResponse_progress fromId resp k now with
      hn | ⟨hl, hlog, hlt, hle, hn⟩
    · exact h.stay hn
    · exact h.advance hn hlt.le (hlog ▸ hok hl) (hlog ▸ hle)
  case handleInstallSnapshot req now =>
    cases s.node.handleInstallSnapshot_cases req now
    case inl hu =>
      simp only [installed, hu.1, Option.map_none]
      exact h.stay hu.2.stays
    case inr hi =>
      have ⟨fsm, hi, _, hc, ha, hf⟩ := hi
      simp only [installed, hi, Option.map_some]
      exact .install_max (hok fsm hi) hc ha hf
  case installSnapshotData index term =>
    cases s.node.installSnapshotData_cases index term
    case inl hu =>
      simp only [installed, hu.1, Option.map_none]
      exact h.stay hu.2.stays
    case inr hi =>
      have ⟨fsm, hi, _, _, hc, ha, hf⟩ := hi
      simp only [installed, hi, Option.map_some]
      exact .install_max (hok fsm hi) hc ha hf
  case clusterHandleInstallSnapshot req now =>
    rcases s.node.clusterHandleInstallSnapshot_cases req now with ⟨hi, hu⟩ | ⟨ht, hd, _, hc, ha, hf⟩
    · simp only [installed, if_pos hi]
      exact h.stay hu.stays
    · have hi : ¬(req.term < s.node.currentTerm ∨ req.done = false) := by simp [ht, hd]
      have ⟨hle, hdec⟩ := hok hi
      have ⟨⟨data, rest⟩, hdata⟩ := Option.isSome_iff_exists.mp hdec
      simp only [installed, if_neg hi, KeyValueFSM.restore, hdata] at hf ⊢
      exact .install (hc ▸ hle) (h.applied_le.trans hle) hc.ge ha hf rfl
  case createSnapshot | compactLog => exact h.stay ⟨rfl, rfl, rfl⟩
  all_goals exact absurd rfl hg

end NodeHistory

open NodeHistory

theorem progress_kept {config : RaftConfig} {now : Instant} {storage : Option MemoryStorage}
    {snapshotStore : Option SnapshotStore} {s₁ s₂ : NodeHistory} (h₁ : Reaches step KeepsProgress
      { node := .create config now storage snapshotStore } s₁)
    (h₂ : Reaches step KeepsProgress s₁ s₂) :
    s₁.node.commitIndex ≤ s₂.node.commitIndex ∧ s₁.node.lastApplied ≤ s₂.node.lastApplied ∧
    s₂.Replays := by
  have hr : s₁.Replays := h₁.invariant
    { applied_le := le_rfl, base := rfl, contiguous := .nil, length := rfl, fsm := rfl }
    fun hi hok hs => (hi.step hok hs).replays
  have hk : s₁.Kept s₂ := h₂.invariant (P := s₁.Kept) ⟨le_rfl, le_rfl, hr⟩
    fun hi hok hs =>
      have hk := hi.replays.step hok hs
      ⟨hi.commitIndex.trans hk.commitIndex, hi.lastApplied.trans hk.lastApplied, hk.replays⟩
  exact ⟨hk.commitIndex, hk.lastApplied, hk.replays⟩

-- The data after the first of two entries, as each of the handlers takes it.
def firstData : KeyValues :=
  AList.insert [1] [2] ∅

def mapRequest : InstallSnapshotRequest :=
  ⟨1, 2, 1, 1, 0, firstData.encode, true⟩

def fileRequest : InstallSnapshotRequest :=
  ⟨1, 2, 1, 1, 0, Snapshot.encode ⟨1, 1, firstData.encode⟩, true⟩

def appendTwo : AppendEntriesRequest :=
  ⟨1, 2, 0, 0, [⟨1, 1, .put [1] [2], .command⟩, ⟨1, 2, .delete [1], .command⟩], 2⟩

theorem progress_kept_after_snapshot : ∃ s₁ s₂,
      Reaches step KeepsProgress { node := .create {} 0 none none } s₁ ∧
      Reaches step KeepsProgress s₁ s₂ ∧
      s₁.node.lastApplied = 1 ∧ s₂.node.lastApplied = 2 ∧ s₂.node.fsm.get [1] = none ∧
        s₂.Replays := by
  have ⟨s₁, r₁, h₁, h₂⟩ : ∃ s₁, Reaches step KeepsProgress { node := .create {} 0 none none } s₁ ∧
      s₁.node.lastApplied = 1 ∧
      (run step KeepsProgress s₁ [.handleAppendEntries appendTwo 0]).any
        (fun s₂ => decide (s₂.node.lastApplied = 2 ∧ s₂.node.fsm.get [1] = none)) :=
    exists_of_run
      [.clusterHandleInstallSnapshot mapRequest 0] (by decide +kernel)
  have ⟨s₂, r₂, h₂, hg⟩ := exists_of_run [Call.handleAppendEntries appendTwo 0] h₂
  exact ⟨s₁, s₂, r₁, r₂, h₁, h₂, hg, (progress_kept r₁ r₂).2.2⟩

-- The request that installed the snapshot is delivered again after the second entry was applied.
-- Both handlers take the node back, and the cluster's takes the commit index with it.
theorem old_snapshot_reverts :
    (∃ s₁ s₂, Reaches step anyEvent { node := .create {} 0 none (some {}) } s₁ ∧
      Reaches step anyEvent s₁ s₂ ∧
      s₁.node.lastApplied = 2 ∧ s₂.node.lastApplied = 1 ∧
      s₁.node.fsm.get [1] = none ∧ s₂.node.fsm.get [1] = some [2]) ∧
    (∃ s₁ s₂, Reaches step anyEvent { node := .create {} 0 none none } s₁ ∧
      Reaches step anyEvent s₁ s₂ ∧
      s₁.node.commitIndex = 2 ∧ s₂.node.commitIndex = 1 ∧
      s₁.node.lastApplied = 2 ∧ s₂.node.lastApplied = 1) := by
  refine ⟨?_, ?_⟩
  · have ⟨s₁, r₁, h₁, hg₁, h₂⟩ : ∃ s₁,
        Reaches step anyEvent { node := .create {} 0 none (some {}) } s₁ ∧
        s₁.node.lastApplied = 2 ∧ s₁.node.fsm.get [1] = none ∧
        (run step anyEvent s₁ [.handleInstallSnapshot fileRequest 0]).any (fun s₂ =>
          decide (s₂.node.lastApplied = 1 ∧ s₂.node.fsm.get [1] = some [2])) :=
      exists_of_run
        [.handleInstallSnapshot fileRequest 0, .handleAppendEntries appendTwo 0] (by decide +kernel)
    have ⟨s₂, r₂, h₂, hg₂⟩ := exists_of_run [Call.handleInstallSnapshot fileRequest 0] h₂
    exact ⟨s₁, s₂, r₁, r₂, h₁, h₂, hg₁, hg₂⟩
  · have ⟨s₁, r₁, hc₁, ha₁, h₂⟩ : ∃ s₁,
        Reaches step anyEvent { node := .create {} 0 none none } s₁ ∧
        s₁.node.commitIndex = 2 ∧ s₁.node.lastApplied = 2 ∧
        (run step anyEvent s₁ [.clusterHandleInstallSnapshot mapRequest 0]).any (fun s₂ =>
          decide (s₂.node.commitIndex = 1 ∧ s₂.node.lastApplied = 1)) :=
      exists_of_run
        [.clusterHandleInstallSnapshot mapRequest 0, .handleAppendEntries appendTwo 0]
        (by decide +kernel)
    have ⟨s₂, r₂, hc₂, ha₂⟩ := exists_of_run [Call.clusterHandleInstallSnapshot mapRequest 0] h₂
    exact ⟨s₁, s₂, r₁, r₂, hc₁, hc₂, ha₁, ha₂⟩

end Raft
