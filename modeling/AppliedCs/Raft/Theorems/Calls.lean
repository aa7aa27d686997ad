import AppliedCs.Raft.Calls
import AppliedCs.Raft.Theorems.Node

namespace Raft

namespace RaftNode

-- The log has grown by entries that are numbered on, and nothing was committed or applied.
def Grows (n n' : RaftNode) : Prop :=
  ∃ es, Contiguous n.lastLogIndex es ∧ n'.log = n.log ++ es ∧ n'.commitIndex = n.commitIndex ∧
    n'.lastApplied = n.lastApplied ∧ n'.fsm = n.fsm

theorem Untouched.grows (h : Untouched n n') : Grows n n' :=
  ⟨[], .nil, by simp [h.log], h.commitIndex, h.lastApplied, h.fsm⟩

theorem Untouched.refl (n : RaftNode) : Untouched n n :=
  ⟨rfl, rfl, rfl, rfl, rfl⟩

theorem grows_transitionToLeader (n : RaftNode) : Grows n n.transitionToLeader :=
  ⟨_, Contiguous.cons_iff.mpr ⟨rfl, .nil⟩, rfl, rfl, rfl, rfl⟩

end RaftNode

-- The calls that neither take over, compact nor apply entries.
def Call.grows : Call → Bool
  | .handleAppendEntries .. => false
  | .handleAppendEntriesResponse .. => false
  | .handleInstallSnapshot .. => false
  | .clusterHandleInstallSnapshot .. => false
  | .installSnapshotData .. => false
  | .createSnapshot => false
  | .compactLog _ => false
  | _ => true

theorem RaftNode.grows_call (n : RaftNode) (hc : c.grows) : n.Grows (n.call c) := by
  cases c
  case transitionToCandidate => exact Untouched.grows ⟨rfl, rfl, rfl, rfl, rfl⟩
  case transitionToLeader => exact n.grows_transitionToLeader
  case handleRequestVote req now => exact (n.quiet_handleRequestVote req now).toUntouched.grows
  case handleRequestVoteResponse fromId resp =>
    rcases n.handleRequestVoteResponse_cases fromId resp with hq | ⟨_, _, heq⟩
    · exact hq.toUntouched.grows
    · rw [call, heq]
      exact grows_transitionToLeader _
  case propose command =>
    cases hp : n.propose command
    case error => simpa [call, hp, Except.map, Except.toOption] using (Untouched.refl n).grows
    case ok r =>
      have ⟨_, _, hn⟩ := of_propose_ok hp
      simp only [call, hp, Except.map, Except.toOption, Option.getD_some, hn]
      exact ⟨_, Contiguous.cons_iff.mpr ⟨rfl, .nil⟩, rfl, rfl, rfl, rfl⟩
  case batchPropose commands =>
    cases hp : n.batchPropose commands
    case error => simpa [call, hp, Except.map, Except.toOption] using (Untouched.refl n).grows
    case ok r =>
      have ⟨_, hn⟩ := of_batchPropose_ok hp
      simp only [call, hp, Except.map, Except.toOption, Option.getD_some, hn]
      exact ⟨_, .batchEntries .., rfl, rfl, rfl, rfl⟩
  case transferLeadership target =>
    simp only [call, transferLeadership]
    split
    case isFalse => exact (Untouched.refl n).grows
    case isTrue => split <;> exact Untouched.grows ⟨rfl, rfl, rfl, rfl, rfl⟩
  case startPreVote =>
    simp only [call, startPreVote]
    split <;> exact Untouched.grows ⟨rfl, rfl, rfl, rfl, rfl⟩
  case handlePreVoteRequest => exact (Untouched.refl n).grows
  case handlePreVoteResponse =>
    simp only [call, handlePreVoteResponse]
    split
    · exact (Untouched.refl n).grows
    · split
      case isFalse => exact (Untouched.refl n).grows
      case isTrue => split <;> exact Untouched.grows ⟨rfl, rfl, rfl, rfl, rfl⟩
  all_goals cases hc

namespace RaftNode

variable (n : RaftNode)

-- The state machine that the received snapshot file can be restored to.
def restored : Option KeyValueFSM :=
  match n.snapshotStore with
  | none => none
  | some store =>
    match store.finalize with
    | .error _ => none
    | .ok (_, snapshot) => (n.fsm.restore snapshot).toOption

theorem installSnapshotData_cases (index term : ℕ) :
    (n.restored = none ∧ Untouched n (n.installSnapshotData index term)) ∨
    (∃ fsm, n.restored = some fsm ∧ (n.installSnapshotData index term).config = n.config ∧
      (n.installSnapshotData index term).log =
        (if n.lastLogIndex < index then [] else n.log.filter (index < ·.index)) ∧
      (n.installSnapshotData index term).commitIndex = max n.commitIndex index ∧
      (n.installSnapshotData index term).lastApplied = index ∧
      (n.installSnapshotData index term).fsm = fsm) := by
  simp only [restored, installSnapshotData]
  cases hs : n.snapshotStore
  case none => exact .inl ⟨rfl, .refl n⟩
  case some store =>
    cases hf : store.finalize
    case error =>
      simp only [hf]
      exact .inl ⟨trivial, .refl n⟩
    case ok r =>
      simp only [hf]
      cases hr : n.fsm.restore r.2
      case error => exact .inl ⟨rfl, ⟨rfl, rfl, rfl, rfl, rfl⟩⟩
      case ok fsm => exact .inr ⟨fsm, rfl, rfl, rfl, rfl, rfl, rfl⟩

variable (req : InstallSnapshotRequest)

theorem untouched_adoptSnapshotTerm (now : Instant) : Untouched n (n.adoptSnapshotTerm req now) ∧
    (n.adoptSnapshotTerm req now).snapshotStore = n.snapshotStore := by
  unfold adoptSnapshotTerm
  split <;> exact ⟨⟨rfl, rfl, rfl, rfl, rfl⟩, rfl⟩

-- A request installs a snapshot when it completes a file that can be restored.
def installs : Option KeyValueFSM :=
  if req.term < n.currentTerm ∨ req.done = false then none else (n.writeSnapshotChunk req).restored

theorem handleInstallSnapshot_cases (now : Instant) :
    (n.installs req = none ∧ Untouched n (n.handleInstallSnapshot req now).1) ∨
    (∃ fsm, n.installs req = some fsm ∧
      (n.handleInstallSnapshot req now).1.log =
        (if n.lastLogIndex < req.lastIncludedIndex then []
          else n.log.filter (req.lastIncludedIndex < ·.index)) ∧
      (n.handleInstallSnapshot req now).1.commitIndex = max n.commitIndex req.lastIncludedIndex ∧
      (n.handleInstallSnapshot req now).1.lastApplied = req.lastIncludedIndex ∧
      (n.handleInstallSnapshot req now).1.fsm = fsm) := by
  have ⟨⟨hc, hl, hci, hla, hf⟩, hstore⟩ := n.untouched_adoptSnapshotTerm req now
  have hres : ((n.adoptSnapshotTerm req now).writeSnapshotChunk req).restored =
      (n.writeSnapshotChunk req).restored := by
    simp only [restored, writeSnapshotChunk, hstore, hf]
  unfold installs handleInstallSnapshot
  by_cases hlt : req.term < n.currentTerm
  case pos => simpa only [hlt, true_or, if_true] using .inl ⟨trivial, .refl n⟩
  cases hd : req.done
  case false => simpa [hlt, hd] using ⟨hc, hl, hci, hla, hf⟩
  case true =>
    simp only [hlt, Bool.true_eq_false, or_self, if_false, if_true]
    rcases ((n.adoptSnapshotTerm req now).writeSnapshotChunk req).installSnapshotData_cases
        req.lastIncludedIndex req.lastIncludedTerm with
          ⟨hr, hu⟩ | ⟨fsm, hr, _, hl', hci', hla', hf'⟩
    · refine .inl ⟨hres ▸ hr, ?_⟩
      exact ⟨hu.config.trans hc, hu.log.trans hl, hu.commitIndex.trans hci,
        hu.lastApplied.trans hla, hu.fsm.trans hf⟩
    · refine .inr ⟨fsm, hres ▸ hr, hl'.trans ?_, hci'.trans ?_, hla', hf'⟩
      · simp only [lastLogIndex, writeSnapshotChunk, hl]
        rfl
      · simp only [writeSnapshotChunk, hci]

theorem clusterHandleInstallSnapshot_cases (now : Instant) :
    ((req.term < n.currentTerm ∨ req.done = false) ∧
      Untouched n (RaftClusterNode.handleInstallSnapshot n req now).1) ∨
    (¬req.term < n.currentTerm ∧ req.done ∧
      (RaftClusterNode.handleInstallSnapshot n req now).1.log =
        n.log.filter (req.lastIncludedIndex < ·.index) ∧
      (RaftClusterNode.handleInstallSnapshot n req now).1.commitIndex = req.lastIncludedIndex ∧
      (RaftClusterNode.handleInstallSnapshot n req now).1.lastApplied = req.lastIncludedIndex ∧
      (RaftClusterNode.handleInstallSnapshot n req now).1.fsm =
        (n.fsm.restore
          ⟨req.lastIncludedIndex, req.lastIncludedTerm, req.data⟩).toOption.getD n.fsm) := by
  have ⟨⟨hc, hl, hci, hla, hf⟩, _⟩ := n.untouched_adoptSnapshotTerm req now
  unfold RaftClusterNode.handleInstallSnapshot
  by_cases hlt : req.term < n.currentTerm
  case pos => simpa only [hlt, true_or, if_true] using .inl ⟨trivial, .refl n⟩
  cases hd : req.done
  case false => simpa [hlt, hd] using ⟨hc, hl, hci, hla, hf⟩
  case true =>
    refine .inr ⟨hlt, rfl, ?_⟩
    simp only [hlt, if_false, if_true, hl, hf, true_and]
    cases n.fsm.restore ⟨req.lastIncludedIndex, req.lastIncludedTerm, req.data⟩ <;> rfl

end RaftNode

end Raft
