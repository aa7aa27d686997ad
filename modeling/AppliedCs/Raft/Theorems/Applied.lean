import AppliedCs.Raft.Cluster
import AppliedCs.Raft.Theorems.Node

namespace Raft

open List

variable {n : RaftNode}

-- How entries appear in the record of what a node applied.
def recorded (l : List LogEntry) : List (ℕ × LogEntry) :=
  l.map fun e => (e.index, e)

theorem recorded_append (l₁ l₂ : List LogEntry) :
    recorded (l₁ ++ l₂) = recorded l₁ ++ recorded l₂ :=
  map_append

theorem mem_recorded : (k, e) ∈ recorded l ↔ e ∈ l ∧ e.index = k := by
  simp only [recorded, mem_map, Prod.mk.injEq]
  exact ⟨fun ⟨_, hm, hi, he⟩ => he ▸ ⟨hm, hi⟩, fun ⟨hm, hi⟩ => ⟨e, hm, hi, rfl⟩⟩

theorem filterMap_getLogEntry (hc : Contiguous 0 n.log) (start k : ℕ)
    (hle : start + k ≤ n.log.length) :
    ((range' (start + 1) k).filterMap fun index => (n.getLogEntry index).map (index, ·)) =
      recorded ((n.log.drop start).take k) := by
  induction k
  case zero => simp [recorded]
  case succ k hi =>
    have hlt : start + k < n.log.length := by omega
    have hget : n.log[start + k]? = some n.log[start + k] := getElem?_eq_getElem hlt
    have hidx : n.log[start + k].index = start + k + 1 := by simpa using hc.index_eq hget
    rw [range'_concat, filterMap_append, hi (by omega), take_add_one, recorded_append,
      getElem?_drop, hget, Nat.one_mul, Nat.add_right_comm]
    simp [hget, recorded, hidx]

theorem RaftNode.appliedSince_eq (hc : Contiguous 0 n'.log)
    (hle : n.lastApplied ≤ n'.lastApplied) (hlen : n'.lastApplied ≤ n'.log.length) :
    n.appliedSince n' = recorded ((n'.log.take n'.lastApplied).drop n.lastApplied) := by
  rw [appliedSince, filterMap_getLogEntry hc _ _ (by omega), drop_take]

theorem RaftNode.appliedSince_eq_nil (h : n'.lastApplied = n.lastApplied) :
    n.appliedSince n' = [] := by
  simp [appliedSince, h]

-- The record grows with the log, as long as the log keeps what was applied before.
theorem RaftNode.recorded_append_appliedSince (hc : Contiguous 0 n'.log)
    (hle : n.lastApplied ≤ n'.lastApplied) (hlen : n'.lastApplied ≤ n'.log.length)
    (hpre : n.log.take n.lastApplied <+: n'.log) (hn : n.lastApplied ≤ n.log.length) :
    recorded (n.log.take n.lastApplied) ++ n.appliedSince n' =
      recorded (n'.log.take n'.lastApplied) := by
  have hlen' : (n.log.take n.lastApplied).length = n.lastApplied := length_take_of_le hn
  have htake : (n'.log.take n'.lastApplied).take n.lastApplied = n.log.take n.lastApplied := by
    rw [take_take, min_eq_left hle, hpre.take_eq_take (le_of_eq hlen'.symm), take_take, min_self]
  rw [appliedSince_eq hc hle hlen, ← htake, ← recorded_append, take_append_drop]

theorem getElem?_of_recorded (hc : Contiguous 0 l) (h : (k, e) ∈ recorded l) :
    l[k - 1]? = some e := by
  have ⟨hm, hi⟩ := mem_recorded.mp h
  have ⟨j, hj⟩ := mem_iff_getElem?.mp hm
  rwa [← hi, hc.index_eq hj, Nat.zero_add, Nat.add_sub_cancel]

end Raft
