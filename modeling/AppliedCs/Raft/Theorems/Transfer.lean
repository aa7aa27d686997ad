import AppliedCs.Raft.Theorems.Calls
import AppliedCs.Raft.Theorems.Storage

namespace Raft

open Codec RaftNode

namespace RaftNode

variable {n f g : RaftNode}
variable {req : InstallSnapshotRequest}

-- The requests that a leader sends from `offset` on, until one of them is the last.
def snapshotRequests (n : RaftNode) (chunkSize : ℕ) : ℕ → ℕ → List InstallSnapshotRequest
  | 0, _ => []
  | fuel + 1, offset =>
    match n.buildInstallSnapshotRequest offset chunkSize with
    | none => []
    | some req =>
      req :: if req.done then [] else n.snapshotRequests chunkSize fuel (offset + chunkSize)

-- Every chunk has at least one byte, so there are at most as many requests as bytes.
def sendSnapshot (n : RaftNode) (chunkSize : ℕ) : List InstallSnapshotRequest :=
  n.snapshotRequests chunkSize n.fsm.snapshot.data.length 0

-- A follower that handles the requests in order, the one with offset `k` at time `now k`.
def receiveSnapshot (f : RaftNode) (now : ℕ → Instant) (reqs : List InstallSnapshotRequest) :
    RaftNode :=
  reqs.foldl (fun f req => (f.handleInstallSnapshot req (now req.offset)).1) f

-- The follower after the chunks before `offset`.
structure Receives (n f g : RaftNode) (offset : ℕ) : Prop where
  untouched : Untouched f g
  term_le : g.currentTerm ≤ n.currentTerm
  store : ∃ store, g.snapshotStore = some store ∧ store.tmp.getD [] = n.fsm.data.encode.take offset

-- The follower with the whole file, before it is installed.
structure Received (n f g : RaftNode) : Prop where
  untouched : Untouched f g
  store : ∃ store, g.snapshotStore = some store ∧ store.tmp = some n.fsm.data.encode

theorem buildInstallSnapshotRequest_eq (n : RaftNode) (c : ℕ)
    (h : offset < n.fsm.data.encode.length) : n.buildInstallSnapshotRequest offset c = some
      { term := n.currentTerm
        leaderId := n.config.id
        lastIncludedIndex := n.fsm.lastAppliedIndex
        lastIncludedTerm := n.fsm.lastAppliedTerm
        offset
        data := (n.fsm.data.encode.take (offset + c)).drop offset
        done := n.fsm.data.encode.length ≤ offset + c } := by
  have hd : n.fsm.data.encode.take (min (offset + c) n.fsm.data.encode.length) =
      n.fsm.data.encode.take (offset + c) := by
    rw [← List.take_take, List.take_length]
  simp [buildInstallSnapshotRequest, not_le.mpr h, hd, KeyValueFSM.snapshot]

theorem Receives.writeSnapshotChunk (h : Receives n f g offset)
    (ho : req.offset = offset) (hlt : offset ≤ n.fsm.data.encode.length)
    (hd : req.data = (n.fsm.data.encode.take (offset + c)).drop offset) (t : Instant) :
    Untouched f ((g.adoptSnapshotTerm req t).writeSnapshotChunk req) ∧
    ∃ store, ((g.adoptSnapshotTerm req t).writeSnapshotChunk req).snapshotStore = some store ∧
      store.tmp = some (n.fsm.data.encode.take (offset + c)) := by
  have ⟨hu, hs⟩ := g.untouched_adoptSnapshotTerm req t
  have ⟨store, hg, htmp⟩ := h.store
  refine ⟨?_, ?_⟩
  · exact ⟨hu.config.trans h.untouched.config, hu.log.trans h.untouched.log,
      hu.commitIndex.trans h.untouched.commitIndex, hu.lastApplied.trans h.untouched.lastApplied,
      hu.fsm.trans h.untouched.fsm⟩
  · refine ⟨store.writeChunk req.offset req.data, by simp [RaftNode.writeSnapshotChunk, hs, hg], ?_⟩
    have hsplit : n.fsm.data.encode.take offset ++
        (n.fsm.data.encode.take (offset + c)).drop offset =
          n.fsm.data.encode.take (offset + c) := by
      conv_rhs => rw [← List.take_append_drop offset (n.fsm.data.encode.take (offset + c))]
      rw [List.take_take, min_eq_left (Nat.le_add_right ..)]
    rw [SnapshotStore.writeChunk, htmp, ho, hd,
      SnapshotStore.writeAt_eq_append (List.length_take_of_le hlt), hsplit]

theorem handleInstallSnapshot_of_le (h : g.currentTerm ≤ req.term)
    (t : Instant) : (g.handleInstallSnapshot req t).1 =
      if req.done then ((g.adoptSnapshotTerm req t).writeSnapshotChunk req).installSnapshotData
          req.lastIncludedIndex req.lastIncludedTerm else
        (g.adoptSnapshotTerm req t).writeSnapshotChunk req := by
  rw [handleInstallSnapshot, if_neg (not_lt.mpr h)]

theorem adoptSnapshotTerm_currentTerm_le (h : g.currentTerm ≤ req.term)
    (t : Instant) : (g.adoptSnapshotTerm req t).currentTerm ≤ req.term := by
  unfold adoptSnapshotTerm
  split
  case isTrue => exact le_rfl
  case isFalse => exact h

-- The run of the transfer: each chunk is appended to the file, and after the last one the file is
-- taken for a snapshot.
theorem Receives.run (h : Receives n f g offset) (now : ℕ → Instant) (fuel : ℕ) (hc : 0 < c)
    (hlt : offset < n.fsm.data.encode.length) (hfuel : n.fsm.data.encode.length ≤ offset + fuel) :
    ∃ g', Received n f g' ∧ g.receiveSnapshot now (n.snapshotRequests c fuel offset) =
      g'.installSnapshotData n.fsm.lastAppliedIndex n.fsm.lastAppliedTerm := by
  induction fuel generalizing g offset
  case zero => omega
  case succ fuel hi =>
    have hb := n.buildInstallSnapshotRequest_eq c hlt
    generalize hreq : InstallSnapshotRequest.mk .. = req at hb
    have hterm : req.term = n.currentTerm := hreq ▸ rfl
    have hoff : req.offset = offset := hreq ▸ rfl
    have hdata : req.data = (n.fsm.data.encode.take (offset + c)).drop offset := hreq ▸ rfl
    have hdone : req.done = decide (n.fsm.data.encode.length ≤ offset + c) := hreq ▸ rfl
    have hle : g.currentTerm ≤ req.term := hterm ▸ h.term_le
    have ⟨hu, store, hs, htmp⟩ := h.writeSnapshotChunk hoff hlt.le hdata (now offset)
    simp only [snapshotRequests, hb, hdone, decide_eq_true_eq, receiveSnapshot, List.foldl_cons,
      handleInstallSnapshot_of_le hle, hoff]
    by_cases hend : n.fsm.data.encode.length ≤ offset + c
    case pos =>
      rw [List.take_of_length_le hend] at htmp
      refine ⟨_, ⟨hu, store, hs, htmp⟩, ?_⟩
      simp [hend, ← hreq]
    case neg =>
      rw [if_neg hend, if_neg hend]
      refine hi ⟨hu, ?_, store, hs, htmp ▸ rfl⟩ (not_le.mp hend) (by omega)
      exact hterm ▸ adoptSnapshotTerm_currentTerm_le hle (now offset)

theorem receiveSnapshot_of_lt (h : n.currentTerm < f.currentTerm) (fuel offset : ℕ) :
    f.receiveSnapshot now (n.snapshotRequests c fuel offset) = f := by
  induction fuel generalizing offset
  case zero => rfl
  case succ fuel hi =>
    rw [snapshotRequests]
    split
    · rfl
    case h_2 req hreq =>
      have ht : req.term = n.currentTerm := by
        dsimp only [buildInstallSnapshotRequest] at hreq
        split at hreq
        case isTrue => cases hreq
        case isFalse => exact Option.some.inj hreq ▸ rfl
      have hf : (f.handleInstallSnapshot req (now req.offset)).1 = f := by
        rw [handleInstallSnapshot, if_pos (ht ▸ h)]
      rw [receiveSnapshot, List.foldl_cons, hf]
      split
      case isTrue => rfl
      case isFalse => exact hi _

theorem Received.restored (h : Received n f g) : g.restored = n.fsm.data.readAsSnapshot.map
      fun (s, data) => ⟨data, s.lastIncludedIndex, s.lastIncludedTerm⟩ := by
  have ⟨store, hs, htmp⟩ := h.store
  simp only [RaftNode.restored, hs, SnapshotStore.finalize, htmp, KeyValues.readAsSnapshot]
  cases hd : Snapshot.decode n.fsm.data.encode
  case none => rfl
  case some r =>
    simp only [Option.bind_some, KeyValueFSM.restore]
    cases KeyValues.decode r.1.data <;> rfl

end RaftNode

-- The transfer leaves the follower with the leader's data exactly when the follower had them before
-- and nothing is installed. What is installed is never the leader's map: the receiver takes its
-- first bytes for a snapshot's header.
theorem snapshot_transfer_iff {n f : RaftNode} {store : SnapshotStore} {c : ℕ} (now : ℕ → Instant)
    (hc : 0 < c) (hs : f.snapshotStore = some store) (ht : store.tmp.getD [] = []) :
    (∀ key, (f.receiveSnapshot now (n.sendSnapshot c)).fsm.get key = n.fsm.get key) ∧
      (f.receiveSnapshot now (n.sendSnapshot c)).lastApplied = n.fsm.lastAppliedIndex ↔
    (n.currentTerm < f.currentTerm ∨ n.fsm.data.readAsSnapshot = none) ∧
      (∀ key, f.fsm.get key = n.fsm.get key) ∧ f.lastApplied = n.fsm.lastAppliedIndex := by
  by_cases hlt : n.currentTerm < f.currentTerm
  case pos =>
    rw [sendSnapshot, receiveSnapshot_of_lt hlt]
    simp [hlt]
  have hpos : 0 < n.fsm.data.encode.length := by
    rw [KeyValues.length_encode]
    omega
  have hstart : Receives n f f 0 := ⟨.refl f, not_lt.mp hlt, store, hs, by simpa using ht⟩
  have ⟨g, hg, hrun⟩ := hstart.run now n.fsm.data.encode.length hc hpos (Nat.zero_add _).ge
  have hres := hg.restored
  rw [sendSnapshot, KeyValueFSM.snapshot, hrun]
  rcases g.installSnapshotData_cases n.fsm.lastAppliedIndex n.fsm.lastAppliedTerm with
    ⟨hnone, hu⟩ | ⟨fsm, hsome, _, _, _, _, hfsm⟩
  · rw [hnone, eq_comm, Option.map_eq_none_iff] at hres
    rw [hu.fsm, hu.lastApplied, hg.untouched.fsm, hg.untouched.lastApplied]
    simp [hres]
  · rw [hsome, eq_comm, Option.map_eq_some_iff] at hres
    have ⟨⟨s, data⟩, hread, heq⟩ := hres
    have hne := KeyValues.lookup_ne_of_readAsSnapshot hread
    rw [hfsm, ← heq]
    simp only [hread, hlt, reduceCtorEq, or_self, false_and, iff_false, not_and]
    exact fun h => absurd h hne

-- A leader that has applied one entry, and a follower without any.
def loadedLeader : RaftNode :=
  { new { id := 1 } 0 with currentTerm := 1, fsm := ⟨AList.insert [1] [2] ∅, 1, 1⟩ }

def freshFollower : RaftNode :=
  .create { id := 2 } 0 none (some {})

-- A follower that has everything already ignores the transfer.
theorem snapshot_transfer_repeated :
    let f := { freshFollower with fsm := loadedLeader.fsm, lastApplied := 1 }
    (∀ key, (f.receiveSnapshot (fun _ => 0) (loadedLeader.sendSnapshot 3)).fsm.get key =
        loadedLeader.fsm.get key) ∧
      (f.receiveSnapshot (fun _ => 0) (loadedLeader.sendSnapshot 3)).lastApplied = 1 :=
  (snapshot_transfer_iff _ (by decide) rfl rfl).mpr
    ⟨.inr (by decide +kernel), fun _ => rfl, rfl⟩

theorem snapshot_not_transferred :
    let f := freshFollower.receiveSnapshot (fun _ => 0) (loadedLeader.sendSnapshot 3)
    loadedLeader.fsm.get [1] = some [2] ∧ f.fsm.get [1] = none ∧
      loadedLeader.fsm.lastAppliedIndex = 1 ∧ f.lastApplied = 0 := by
  decide +kernel

end Raft
