import AppliedCs.Lib.ReplicatedLog.Basic
import AppliedCs.Raft.Node

namespace Raft

open ReplicatedLog RaftNode List

-- The entries carry consecutive indices, the first of them `b + 1`.
def Contiguous : ℕ → List LogEntry → Prop
  | _, [] => True
  | b, e :: l => e.index = b + 1 ∧ Contiguous (b + 1) l

instance Contiguous.decidable : (b : ℕ) → (l : List LogEntry) → Decidable (Contiguous b l)
  | _, [] => .isTrue trivial
  | b, e :: l =>
    have := Contiguous.decidable (b + 1) l
    inferInstanceAs <| Decidable (e.index = b + 1 ∧ Contiguous (b + 1) l)

namespace Contiguous

@[simp]
theorem nil : Contiguous b [] :=
  trivial

@[simp]
theorem cons_iff : Contiguous b (e :: l) ↔ e.index = b + 1 ∧ Contiguous (b + 1) l :=
  Iff.rfl

theorem append_iff : Contiguous b (l₁ ++ l₂) ↔ Contiguous b l₁ ∧ Contiguous (b + l₁.length) l₂ := by
  induction l₁ generalizing b
  case nil => simp
  case cons e l₁ hi => simp [hi, and_assoc, Nat.add_assoc, Nat.add_comm 1]

theorem of_isPrefix (h : Contiguous b l₂) (hp : l₁ <+: l₂) : Contiguous b l₁ := by
  have ⟨_, hp⟩ := hp
  exact append_iff.mp (hp ▸ h) |>.1

section

variable (h : Contiguous b l)

include h

theorem drop (hk : k ≤ l.length) : Contiguous (b + k) (l.drop k) := by
  rw [← take_append_drop k l, append_iff, length_take_of_le hk] at h
  exact h.2

theorem index_eq (hk : l[k]? = some e) : e.index = b + k + 1 := by
  induction l generalizing b k
  case nil => simp at hk
  case cons f l hi =>
    cases k
    case zero => simpa [← Option.some.inj hk] using h.1
    case succ k =>
      have := hi h.2 (by simpa using hk)
      omega

theorem lt_index (he : e ∈ l) : b < e.index := by
  have ⟨k, hk⟩ := mem_iff_getElem?.mp he
  have := h.index_eq hk
  omega

theorem nodup_index : (l.map (·.index)).Nodup := by
  induction l generalizing b
  case nil => exact nodup_nil
  case cons e l hi =>
    refine nodup_cons.mpr ⟨fun hm => ?_, hi h.2⟩
    have ⟨f, hf, hfe⟩ := mem_map.mp hm
    have hlt : e.index < f.index := h.1 ▸ Contiguous.lt_index h.2 hf
    exact Nat.ne_of_gt hlt hfe

theorem getLast_index (hl : l.getLast? = some e) : e.index = b + l.length := by
  rw [getLast?_eq_getElem?] at hl
  have := h.index_eq hl
  have := List.getElem?_eq_some_iff.mp hl |>.1
  omega

theorem filter_index (next : ℕ) : l.filter (next ≤ ·.index) = l.drop (next - 1 - b) := by
  induction l generalizing b
  case nil => simp
  case cons e l hi =>
    have he := h.1
    rw [filter_cons, hi h.2]
    by_cases hn : next ≤ e.index
    case pos =>
      have h₁ : next - 1 - b = 0 := by omega
      have h₂ : next - 1 - (b + 1) = 0 := by omega
      simp [hn, h₁, h₂]
    case neg =>
      have : next - 1 - b = next - 1 - (b + 1) + 1 := by omega
      simp [hn, this]

end

theorem batchEntries (term : ℕ) (b : ℕ) (commands : List Command) :
    Contiguous b (batchEntries term (b + 1) commands) := by
  induction commands generalizing b
  case nil => exact nil
  case cons _ rest hi => exact ⟨rfl, hi (b + 1)⟩

end Contiguous

namespace RaftNode

variable {n : RaftNode}

theorem lastLogIndex_eq (h : Contiguous 0 n.log) : n.lastLogIndex = n.log.length := by
  unfold lastLogIndex
  cases hl : n.log.getLast?
  case none => simp [getLast?_eq_none_iff.mp hl]
  case some e => simpa using h.getLast_index hl

@[simp]
theorem getLogEntry_succ : n.getLogEntry (k + 1) = n.log[k]? := by
  simp [getLogEntry]

theorem le_of_getLogEntry (h : n.getLogEntry k = some e) : k ≤ n.log.length := by
  unfold getLogEntry at h
  split at h
  case isTrue => cases h
  case isFalse =>
    have := List.getElem?_eq_some_iff.mp h |>.1
    omega

theorem term_of_mem_batchEntries (h : e ∈ batchEntries term b commands) : e.term = term := by
  induction commands generalizing b
  case nil => cases h
  case cons _ rest hi =>
    cases mem_cons.mp h
    case inl h => exact h ▸ rfl
    case inr h => exact hi h

end RaftNode

-- Entries of one term at one position are only found in logs that agree up to there.
def Matching (log L : List LogEntry) : Prop :=
  ∀ k e f, log[k]? = some e → L[k]? = some f → e.term = f.term → log.take (k + 1) = L.take (k + 1)

variable {log : List LogEntry} {prev : ℕ}

-- An entry is left out where the log has one of its term, and takes its place otherwise.
theorem appendEntry_cases (log : List LogEntry) (hi : e.index = m + 1) :
    (∃ f, log[m]? = some f ∧ f.term = e.term ∧ appendEntry log e = log) ∨
    ((∀ f, log[m]? = some f → f.term ≠ e.term) ∧
      appendEntry log e = log.take m ++ [e]) := by
  simp only [appendEntry, hi, Nat.succ_ne_zero, if_false, Nat.add_sub_cancel, Nat.succ_le_iff]
  by_cases hlog : m < log.length
  case neg =>
    have hlen : log.length ≤ m := not_lt.mp hlog
    refine .inr ⟨by simp [getElem?_eq_none hlen], ?_⟩
    rw [if_neg hlog, take_of_length_le hlen]
  case pos =>
    rw [if_pos hlog, getElem?_eq_getElem hlog]
    by_cases hterm : log[m].term = e.term
    case pos => exact .inl ⟨_, rfl, hterm, if_neg (not_not_intro hterm)⟩
    case neg => exact .inr ⟨fun f hf => Option.some.inj hf ▸ hterm, if_pos hterm⟩

-- One round of the loop takes one more entry of `L` over.
theorem appendEntry_merge (hL : Contiguous 0 L) (hm : Matching log L) (he : L[m]? = some e) :
    appendEntry (merge log (L.take m)) e = merge log (L.take (m + 1)) := by
  have hi : e.index = m + 1 := by simpa using hL.index_eq he
  have hlt := List.getElem?_eq_some_iff.mp he |>.1
  have ht : L.take (m + 1) = L.take m ++ [e] := by
    rw [take_add_one, he, Option.toList_some]
  have hlen : (L.take m).length = m := length_take_of_le (le_of_lt hlt)
  by_cases hp : L.take m <+: log
  case neg =>
    have hp' : ¬L.take (m + 1) <+: log := fun h =>
      hp <| (take_prefix_take_left m.le_succ).trans h
    rw [merge_eq_right hp, merge_eq_right hp', ht]
    simp only [appendEntry, hi, hlen, Nat.not_succ_le_self, if_false]
  rw [merge_eq_left hp]
  cases appendEntry_cases log hi
  case inl h =>
    have ⟨f, hf, hterm, heq⟩ := h
    have hp' : L.take (m + 1) <+: log := hm m f e hf he hterm ▸ take_prefix _ _
    rw [heq, merge_eq_left hp']
  case inr h =>
    have hp' : ¬L.take (m + 1) <+: log := fun hp' =>
      h.1 e (hp'.getElem?_some <| (getElem?_take_of_lt m.lt_succ_self).trans he) rfl
    have htake : log.take m = L.take m := by
      simpa [hlen] using (prefix_iff_eq_take.mp hp).symm
    rw [h.2, merge_eq_right hp', htake, ht]

theorem foldl_appendEntry (hL : Contiguous 0 L) (hm : Matching log L) (hp : L.take prev <+: log)
    (he : entries <+: L.drop prev) :
    entries.foldl appendEntry log = merge log (L.take (prev + entries.length)) := by
  suffices h : entries.foldl appendEntry (merge log (L.take prev)) =
      merge log (L.take (prev + entries.length)) by
    rwa [merge_eq_left hp] at h
  clear hp
  induction entries generalizing prev
  case nil => simp
  case cons e entries hi =>
    have hk : L[prev]? = some e := by
      have := he.getElem?_some (i := 0) rfl
      simpa using this
    have he' : entries <+: L.drop (prev + 1) := by
      have ⟨r, hr⟩ := he
      rw [← drop_drop, ← hr]
      simp
    rw [foldl_cons, appendEntry_merge hL hm hk, hi he', length_cons]
    congr 2
    omega

theorem length_appendEntry (hi : e.index = m + 1) (hm : m ≤ log.length) :
    m + 1 ≤ (appendEntry log e).length ∧ (appendEntry log e).length ≤ max log.length (m + 1) := by
  cases appendEntry_cases log hi
  case inl h =>
    have ⟨f, hf, _, heq⟩ := h
    rw [heq]
    exact ⟨List.getElem?_eq_some_iff.mp hf |>.1, le_max_left ..⟩
  case inr h =>
    have hlen : (appendEntry log e).length = m + 1 := by
      rw [h.2, length_append, length_take_of_le hm, length_singleton]
    exact ⟨hlen.ge, hlen ▸ le_max_right ..⟩

theorem length_foldl_appendEntry (he : Contiguous prev entries) (hp : prev ≤ log.length) :
    prev + entries.length ≤ (entries.foldl appendEntry log).length ∧
    (entries.foldl appendEntry log).length ≤ max log.length (prev + entries.length) := by
  induction entries generalizing log prev
  case nil => exact ⟨hp, le_max_left ..⟩
  case cons e entries hi =>
    have ⟨h₁, h₂⟩ := length_appendEntry he.1 hp
    have ⟨h₃, h₄⟩ := hi he.2 h₁
    rw [foldl_cons, length_cons]
    omega

-- Whatever the log has had there, it stays numbered when a numbered entry is put in place.
theorem Contiguous.appendEntry (h : Contiguous 0 log) (hi : e.index = m + 1) (hm : m ≤ log.length) :
    Contiguous 0 (appendEntry log e) := by
  cases appendEntry_cases log hi
  case inl heq =>
    have ⟨_, _, _, heq⟩ := heq
    rwa [heq]
  case inr heq =>
    rw [heq.2]
    refine append_iff.mpr ⟨h.of_isPrefix (List.take_prefix _ _), ?_⟩
    simp [hi, hm]

theorem Contiguous.foldl_appendEntry (h : Contiguous 0 log) (he : Contiguous prev entries)
    (hp : prev ≤ log.length) : Contiguous 0 (entries.foldl RaftNode.appendEntry log) := by
  induction entries generalizing log prev
  case nil => exact h
  case cons e entries hi =>
    exact hi (h.appendEntry he.1 hp) he.2 (length_appendEntry he.1 hp).1

-- Up to index `k`, the entries have the terms of those that the log has in their places.
def Compatible (log : List LogEntry) (k : ℕ) (entries : List LogEntry) : Prop :=
  ∀ e ∈ entries, e.index ≤ k → ∀ f ∈ log[e.index - 1]?, f.term = e.term

instance (log : List LogEntry) (k : ℕ) (entries : List LogEntry) :
    Decidable (Compatible log k entries) :=
  inferInstanceAs <| Decidable (∀ e ∈ entries, e.index ≤ k → ∀ f ∈ log[e.index - 1]?, _ = _)

theorem prefix_appendEntry (hp : log.take k <+: L) (hc : Compatible log k [e]) :
    log.take k <+: appendEntry L e := by
  unfold appendEntry
  split
  case isFalse => exact hp.trans (prefix_append _ _)
  split
  case isTrue => exact hp
  case isFalse hpos =>
    split
    case h_2 => exact hp
    case h_1 f hf =>
      split
      case isFalse => exact hp
      case isTrue hne =>
        -- A conflict is beyond what is to be kept.
        have hle : (log.take k).length ≤ e.index - 1 := by
          by_contra hlt
          have hlt := not_le.mp hlt
          have hget := hp.getElem?_some (getElem?_eq_getElem hlt)
          rw [hf, getElem_take, Option.some_inj] at hget
          rw [length_take] at hlt
          exact hne <| hc e mem_cons_self (by omega) f <| hget ▸ getElem?_eq_getElem (by omega)
        exact (prefix_take_iff.mpr ⟨hp, hle⟩).trans (prefix_append _ _)

theorem prefix_foldl_appendEntry (hp : log.take k <+: L) (hc : Compatible log k entries) :
    log.take k <+: entries.foldl appendEntry L := by
  induction entries generalizing L
  case nil => exact hp
  case cons e entries hi =>
    refine hi (prefix_appendEntry hp fun f hf => hc f ?_) fun f hf => hc f (mem_cons_of_mem e hf)
    exact mem_singleton.mp hf ▸ mem_cons_self

end Raft
