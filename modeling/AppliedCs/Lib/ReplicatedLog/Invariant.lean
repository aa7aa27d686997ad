import AppliedCs.Lib.ReplicatedLog.Basic

namespace ReplicatedLog

open List

noncomputable section
open Classical

variable {N E : Type*} {P : Protocol N E} {s s₂ : State N E}

-- If a vote was cast with log `l` in term `U`, then `l` has whatever the voter had stored of an
-- earlier leader's own entries, or a leader in between had already lost it.
def Carried (P : Protocol N E) (s : State N E) (n : N) (l : List E) (U : ℕ) : Prop :=
  ∀ T k, T < U → k < s.acked n T → Own P s T k → s.upTo T k <+: l ∨ Lost s T k U

structure Inv (P : Protocol N E) (s : State N E) : Prop where
  log_le : ∀ n, ∀ e ∈ s.log n, P.term e ≤ s.cur n
  log_anch : ∀ n, Anchored P s (s.log n)
  stand_cur : ∀ {n T l}, s.stand n T = some l → T ≤ s.cur n
  stand_pos : ∀ {n T l}, s.stand n T = some l → 0 < T
  stand_lt : ∀ {n T l}, s.stand n T = some l → ∀ e ∈ l, P.term e < T
  stand_anch : ∀ {n T l}, s.stand n T = some l → Anchored P s l
  llog_nil : ∀ {T}, s.leader T = none → s.llog T = []
  base_prefix : ∀ T, s.base T <+: s.llog T
  base_lt : ∀ T, ∀ e ∈ s.base T, P.term e < T
  llog_own : ∀ {T i e}, (s.llog T)[i]? = some e → (s.base T).length ≤ i → P.term e = T
  llog_anch : ∀ T, Anchored P s (s.llog T)
  vote_cur : ∀ {n T c}, s.vote n T = some c → T ≤ s.cur n
  vote_stand : ∀ {n T c}, s.vote n T = some c → ∃ l, s.stand c T = some l
  acked_le : ∀ n T, s.acked n T ≤ (s.llog T).length
  acked_cur : ∀ {n T}, 0 < s.acked n T → T ≤ s.cur n
  held : ∀ n T k, k < s.acked n T → s.upTo T k <+: s.log n ∨ Lost s T k (s.cur n + 1)
  voted : ∀ {n U c l}, s.vote n U = some c → s.stand c U = some l → s.leader U = none →
                  Carried P s n l U
  elected : ∀ {U c}, s.leader U = some c →
                  ∃ Q, P.quorum Q ∧ ∀ n ∈ Q, s.vote n U = some c ∧ Carried P s n (s.base U) U

theorem Inv.init : Inv P (State.init : State N E) := by
  constructor <;> simp [State.init, Anchored.nil]

namespace Inv

variable (h : Inv P s)

include h

theorem lt_llog (hk : k < s.acked n T) : k < (s.llog T).length :=
  lt_of_lt_of_le hk (h.acked_le n T)

theorem llog_le : ∀ e ∈ s.llog T, P.term e ≤ T := by
  intro e he
  have ⟨i, hi⟩ := mem_iff_getElem?.mp he
  by_cases hb : i < (s.base T).length
  case pos => exact le_of_lt <| h.base_lt T e <| (h.base_prefix T).mem_of_getElem? hi hb
  case neg => exact le_of_eq <| h.llog_own hi <| not_lt.mp hb

theorem leader_of_llog (he : e ∈ s.llog T) : s.leader T ≠ none := by
  intro hn
  simp [h.llog_nil hn] at he

theorem leader_stand (hl : s.leader T = some c) : ∃ l, s.stand c T = some l := by
  have ⟨Q, hq, hQ⟩ := h.elected hl
  have ⟨n, hn, _⟩ := P.meet hq hq
  exact h.vote_stand (hQ n hn).1

theorem leader_le_cur (hl : s.leader T = some c) : T ≤ s.cur c :=
  have ⟨_, hs⟩ := h.leader_stand hl
  h.stand_cur hs

theorem leader_pos (hl : s.leader T ≠ none) : 0 < T :=
  have ⟨_, hl⟩ := Option.ne_none_iff_exists'.mp hl
  have ⟨_, hs⟩ := h.leader_stand hl
  h.stand_pos hs

theorem term_pos (ha : Anchored P s l) (he : e ∈ l) : 0 < P.term e := by
  have ⟨i, hi⟩ := mem_iff_getElem?.mp he
  have := (ha i e hi).getElem?_some (getElem?_take_of_lt (Nat.lt_succ_self i) ▸ hi)
  exact h.leader_pos <| h.leader_of_llog <| mem_of_getElem? this

-- Terms do not decrease along a log.
theorem sorted (ha : Anchored P s l) {j : ℕ} (hi : l[i]? = some e) (hj : l[j]? = some f)
    (hij : i ≤ j) : P.term e ≤ P.term f := by
  apply h.llog_le
  apply (ha j f hj).subset
  have hlt := List.getElem?_eq_some_iff.mp hi |>.1
  rw [← List.getElem?_eq_some_iff.mp hi |>.2]
  exact mem_take_iff_getElem.mpr ⟨i, by omega, rfl⟩

-- A log whose last entry is of term `U` reaches beyond what the leader of `U` started with.
theorem base_prefix_of_last (ha : Anchored P s l) (he : l.getLast? = some e) :
    s.base (P.term e) <+: l := by
  apply prefix_of_prefix_length_le (h.base_prefix _) (ha.prefix_of_getLast? he)
  by_contra hl
  have hle := (ha.prefix_of_getLast? he).getElem?_some (getLast?_eq_getElem? ▸ he)
  exact lt_irrefl _ <| h.base_lt _ e <| (h.base_prefix _).mem_of_getElem? hle (by omega)

-- The comparison that a voter makes hands on what the voter has stored.
theorem upToDate_carries (hv : Anchored P s l₂) (hl : Anchored P s l₁) (hu : P.UpToDate l₁ l₂)
    (hlt : ∀ e ∈ l₁, P.term e < U) (ho : Own P s T k) (hp : s.upTo T k <+: l₂) :
    s.upTo T k <+: l₁ ∨ Lost s T k U := by
  obtain ⟨e, he, ht⟩ := ho
  have hk : l₂[k]? = some e := by
    apply hp.getElem?_some
    rw [State.upTo, getElem?_take_of_lt (Nat.lt_succ_self k), he]
  have hklt := List.getElem?_eq_some_iff.mp hk |>.1
  obtain ⟨f, hf⟩ : ∃ f, l₂.getLast? = some f := by
    rw [getLast?_eq_getElem?]
    exact ⟨_, getElem?_eq_getElem (by omega)⟩
  have hTf : T ≤ P.term f := by
    rw [getLast?_eq_getElem?] at hf
    exact ht ▸ h.sorted hv hk hf (by omega)
  have hn : l₁ ≠ [] := by
    rintro rfl
    simp only [Protocol.UpToDate, Protocol.lastTerm, hf, getLast?_nil, length_nil,
      Option.map_none, Option.getD_none] at hu
    omega
  obtain ⟨g, hg⟩ : ∃ g, l₁.getLast? = some g := ⟨_, getLast?_eq_some_getLast hn⟩
  simp only [Protocol.UpToDate, Protocol.lastTerm, hf, hg, Option.map_some, Option.getD_some] at hu
  cases hu
  -- The last entry of `l₁` is of a later term, whose leader either started with the entries or
  -- lost them.
  case inl hu =>
    by_cases hb : s.upTo T k <+: s.base (P.term g)
    case pos => exact .inl <| hb.trans <| h.base_prefix_of_last hl hg
    case neg =>
      refine .inr ⟨P.term g, by omega, hlt g (mem_of_getLast? hg), ?_, hb⟩
      exact h.leader_of_llog <| (hl.prefix_of_getLast? hg).subset <| mem_of_getLast? hg
  -- Both logs are prefixes of one leader's log.
  case inr hu =>
    have h₁ := hl.prefix_of_getLast? hg
    have h₂ := hv.prefix_of_getLast? hf
    rw [hu.1] at h₁
    exact .inl <| hp.trans <| prefix_of_prefix_length_le h₂ h₁ hu.2

variable (he : Extends s s₂)

include he

-- `Carried` speaks about terms that the voter has left, for which nothing more is stored.
theorem carried_extends (hc : Carried P s n l U) (hu : U ≤ s.cur n) : Carried P s₂ n l U := by
  intro T k hT hk ho
  rw [he.frozen (lt_of_lt_of_le hT hu)] at hk
  have hl := h.lt_llog hk
  have ho' : Own P s T k := by
    have ⟨e, h₁, h₂⟩ := ho
    refine ⟨e, ?_, h₂⟩
    rw [← h₁, getElem?_eq_getElem hl]
    exact (he.llog T).getElem?_some (getElem?_eq_getElem hl) |>.symm
  rw [he.upTo_eq hl]
  exact (hc T k hT hk ho').imp_right (·.extends he hl)

-- What holds of the nodes and terms that a step leaves alone.
theorem held_extends (hl : s.log n <+: s₂.log n) (hk : k < s.acked n T) :
    s₂.upTo T k <+: s₂.log n ∨ Lost s₂ T k (s₂.cur n + 1) := by
  rw [he.upTo_eq (h.lt_llog hk)]
  cases h.held n T k hk
  case inl hp => exact .inl <| hp.trans hl
  case inr hp =>
    exact .inr <| (hp.extends he (h.lt_llog hk)).weaken <| Nat.add_le_add_right (he.cur n) 1

theorem voted_extends (hv : s.vote n U = some c) (hs : s₂.stand c U = some l)
    (hl : s₂.leader U = none) : Carried P s₂ n l U := by
  have ⟨l', hs'⟩ := h.vote_stand hv
  have : l' = l := by simpa [he.stand hs'] using hs
  have hn : s.leader U = none := by
    by_contra hc
    exact he.leader_ne hc hl
  exact h.carried_extends he (h.voted hv (this ▸ hs') hn) (h.vote_cur hv)

theorem elected_extends (hl : s.leader U = some c) :
    ∃ Q, P.quorum Q ∧ ∀ n ∈ Q, s₂.vote n U = some c ∧ Carried P s₂ n (s₂.base U) U := by
  have ⟨Q, hq, hQ⟩ := h.elected hl
  refine ⟨Q, hq, fun n hn => ⟨he.vote (hQ n hn).1, ?_⟩⟩
  rw [he.base (by simp [hl])]
  exact h.carried_extends he (hQ n hn).2 (h.vote_cur (hQ n hn).1)

end Inv

end

end ReplicatedLog
