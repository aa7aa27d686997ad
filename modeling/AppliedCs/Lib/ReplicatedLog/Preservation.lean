import AppliedCs.Lib.ReplicatedLog.Invariant

namespace ReplicatedLog

open List Function

noncomputable section
open Classical

variable {N E : Type*} {P : Protocol N E} {s : State N E}

theorem Step.extends (hs : Step P n s₁ s₂) (h : Inv P s₁) : Extends s₁ s₂ := by
  cases hs
  case observe T hT =>
    refine { Extends.refl s₁ with cur := fun n' => ?_ }
    by_cases hn : n' = n <;> simp [hn, hT]
  case stand =>
    have hc : ∀ n', s₁.cur n' ≤ update s₁.cur n (s₁.cur n + 1) n' := by
      intro n'
      by_cases hn : n' = n <;> simp [hn]
    refine { Extends.refl s₁ with cur := hc, vote := fun hv => ?_, stand := fun hv => ?_ }
    · refine (setAt_of_ne ?_).trans hv
      rintro ⟨rfl, rfl⟩
      exact absurd (h.vote_cur hv) (by omega)
    · refine (setAt_of_ne ?_).trans hv
      rintro ⟨rfl, rfl⟩
      exact absurd (h.stand_cur hv) (by omega)
  case grant c l hl hv hu =>
    refine { Extends.refl s₁ with vote := fun {n'} {T'} {c'} hv' => ?_ }
    by_cases hn : n' = n ∧ T' = s₁.cur n
    case pos =>
      have ⟨hn, hT⟩ := hn
      subst hn hT
      simpa [hv', eq_comm] using hv
    case neg => exact (setAt_of_ne hn).trans hv'
  case elect Q hl hs hq hQ =>
    have hne : ∀ {T}, s₁.leader T ≠ none → T ≠ s₁.cur n := by
      rintro _ hn rfl
      exact hn hl
    refine { Extends.refl s₁ with
      leader := fun hc => ?_, base := fun hc => ?_, llog := fun T => ?_ }
    · exact (update_of_ne (hne (by simp [hc])) ..).trans hc
    · exact update_of_ne (hne hc) ..
    · by_cases hT : T = s₁.cur n
      case pos => simp [hT, h.llog_nil hl]
      case neg => simp [hT]
  case append es hl hc he =>
    refine { Extends.refl s₁ with
      llog := fun T => ?_, acked := fun m T => ?_, frozen := fun hT => ?_ }
    · by_cases hT : T = s₁.cur n
      case pos => simp [hT, hc]
      case neg => simp [hT]
    · by_cases hn : m = n ∧ T = s₁.cur n
      case pos =>
        have := h.acked_le m T
        simp [hn.1, hn.2, hc, setAt] at this ⊢
        omega
      case neg => exact le_of_eq (setAt_of_ne hn).symm
    · apply setAt_of_ne
      rintro ⟨rfl, rfl⟩
      exact lt_irrefl _ hT
  case accept m hl hm =>
    refine { Extends.refl s₁ with acked := fun n' T => ?_, frozen := fun hT => ?_ }
    · by_cases hn : n' = n ∧ T = s₁.cur n
      case pos => simp [hn.1, hn.2]
      case neg => exact le_of_eq (setAt_of_ne hn).symm
    · apply setAt_of_ne
      rintro ⟨rfl, rfl⟩
      exact lt_irrefl _ hT

theorem Step.frame (hs : Step P n s₁ s₂) : Frame n s₁ s₂ := by
  cases hs
  case observe => exact { Frame.refl n s₁ with cur := fun hm => update_of_ne hm .. }
  case stand =>
    refine { Frame.refl n s₁ with cur := fun hm => update_of_ne hm .., vote := fun hm => ?_ }
    exact funext fun _ => setAt_of_ne fun hc => hm hc.1
  case grant =>
    exact { Frame.refl n s₁ with vote := fun hm => funext fun _ => setAt_of_ne fun hc => hm hc.1 }
  case elect hl _ _ _ =>
    refine { Frame.refl n s₁ with leader := fun {m T} hm hT => ?_, llog := fun {m T} hm hT => ?_ }
    · by_cases hc : T = s₁.cur n
      case pos => exact absurd (by simpa [hc, eq_comm] using hT) hm
      case neg => simpa [hc] using hT
    · refine update_of_ne ?_ ..
      rintro rfl
      simp [hl] at hT
  case append hl _ _ =>
    refine { Frame.refl n s₁ with
      log := fun hm => update_of_ne hm ..
      llog := fun hm hT => update_of_ne ?_ ..
      acked := fun hm => funext fun _ => setAt_of_ne fun hc => hm hc.1 }
    rintro rfl
    exact hm <| by simpa [hl, eq_comm] using hT
  case accept =>
    exact { Frame.refl n s₁ with
      log := fun hm => update_of_ne hm ..
      acked := fun hm => funext fun _ => setAt_of_ne fun hc => hm hc.1 }

namespace Inv

section

variable (h : Inv P s)

include h

theorem observe (hT : s.cur n ≤ T) : Inv P { s with cur := update s.cur n T } := by
  have he := Step.observe (P := P) T hT |>.extends h
  exact { h with
    log_le := fun n' e hm => (h.log_le n' e hm).trans (he.cur n')
    stand_cur := fun hs => (h.stand_cur hs).trans (he.cur _)
    vote_cur := fun hv => (h.vote_cur hv).trans (he.cur _)
    acked_cur := fun ha => (h.acked_cur ha).trans (he.cur _)
    held := fun n' T' k hk => h.held_extends he prefix_rfl hk }

theorem stand (n : N) : Inv P { s with
      cur := update s.cur n (s.cur n + 1)
      vote := setAt s.vote n (s.cur n + 1) (some n)
      stand := setAt s.stand n (s.cur n + 1) (some (s.log n)) } := by
  have he := Step.stand (P := P) (n := n) |>.extends h
  exact { h with
    log_le := fun n' e hm => (h.log_le n' e hm).trans (he.cur n')
    stand_cur := fun hs => of_setAt hs (by simp) fun hs => (h.stand_cur hs).trans (he.cur _)
    stand_pos := fun hs => of_setAt hs (Nat.succ_pos _) h.stand_pos
    stand_lt := fun hs => of_setAt hs (fun e hm => Nat.lt_succ_of_le <| h.log_le _ e hm) h.stand_lt
    stand_anch := fun hs => of_setAt hs (h.log_anch _) h.stand_anch
    vote_cur := fun hv => of_setAt hv (by simp) fun hv => (h.vote_cur hv).trans (he.cur _)
    vote_stand := fun hv => of_setAt hv ⟨_, setAt_self ..⟩ fun hv =>
      (h.vote_stand hv).imp fun _ => he.stand
    acked_cur := fun ha => (h.acked_cur ha).trans (he.cur _)
    held := fun n' T' k hk => h.held_extends he prefix_rfl hk
    voted := fun {n'} {U} {c'} {l} hv hs hl => by
      rcases eq_some_of_setAt hv with ⟨rfl, rfl, rfl⟩ | hv
      -- The node's own vote: what it has stored is in the log with which it stands.
      · have hl' : l = s.log c' := by simpa [setAt, eq_comm] using hs
        exact fun T k _ hk _ => hl' ▸ h.held c' T k hk
      · exact h.voted_extends he hv hs hl
    elected := fun hl => h.elected_extends he hl }

theorem grant (hs : s.stand c (s.cur n) = some l)
    (hv : s.vote n (s.cur n) = none ∨ s.vote n (s.cur n) = some c) (hu : P.UpToDate l (s.log n)) :
    Inv P { s with vote := setAt s.vote n (s.cur n) (some c) } := by
  have he := Step.grant c l hs hv hu |>.extends h
  exact { h with
    vote_cur := fun hv => of_setAt hv le_rfl h.vote_cur
    vote_stand := fun hv => of_setAt hv ⟨l, hs⟩ h.vote_stand
    voted := fun {n'} {U} {c'} {l'} hv hs' hl => by
      rcases eq_some_of_setAt hv with ⟨rfl, rfl, rfl⟩ | hv
      · have hl' : l' = l := by simpa [hs, eq_comm] using hs'
        subst hl'
        intro T k hT hk ho
        cases h.held _ T k hk
        case inl hp =>
          exact h.upToDate_carries (h.log_anch _) (h.stand_anch hs) hu (h.stand_lt hs) ho hp
        case inr hp =>
          -- No leader was elected in the term of the vote yet.
          have ⟨T', h₁, h₂, h₃, h₄⟩ := hp
          refine .inr ⟨T', h₁, lt_of_le_of_ne (Nat.le_of_lt_succ h₂) ?_, h₃, h₄⟩
          rintro rfl
          exact h₃ hl
      · exact h.voted_extends he hv hs' hl
    elected := fun hl => h.elected_extends he hl }

theorem elect (hn : s.leader (s.cur c) = none) (hs : s.stand c (s.cur c) = some (s.log c))
    (hq : P.quorum Q) (hQ : ∀ n ∈ Q, s.vote n (s.cur c) = some c) : Inv P { s with
      leader := update s.leader (s.cur c) (some c)
      base := update s.base (s.cur c) (s.log c)
      llog := update s.llog (s.cur c) (s.log c) } := by
  have he := Step.elect Q hn hs hq hQ |>.extends h
  exact { h with
    log_anch := fun n => (h.log_anch n).mono he.llog
    stand_anch := fun hs => (h.stand_anch hs).mono he.llog
    llog_nil := fun {T} hl => by
      by_cases hT : T = s.cur c
      case pos => simp [hT] at hl
      case neg => simpa [hT] using h.llog_nil (T := T) (by simpa [hT] using hl)
    base_prefix := fun T => by
      by_cases hT : T = s.cur c
      case pos => simp [hT]
      case neg => simpa [hT] using h.base_prefix T
    base_lt := fun T => by
      by_cases hT : T = s.cur c
      case pos => simpa [hT] using h.stand_lt hs
      case neg => simpa [hT] using h.base_lt T
    llog_own := fun {T} {i} {e} hi hb => by
      by_cases hT : T = s.cur c
      case pos =>
        simp only [hT, update_self] at hi hb
        exact absurd (List.getElem?_eq_some_iff.mp hi |>.1) (not_lt.mpr hb)
      case neg =>
        simp only [update_of_ne hT] at hi hb
        exact h.llog_own hi hb
    llog_anch := fun T => by
      by_cases hT : T = s.cur c
      case pos => simpa [hT] using (h.log_anch c).mono he.llog
      case neg => simpa [hT] using (h.llog_anch T).mono he.llog
    acked_le := fun n T => (h.acked_le n T).trans (he.llog T).length_le
    held := fun n T k hk => h.held_extends he prefix_rfl hk
    voted := fun hv hs hl => h.voted_extends he hv hs hl
    elected := fun {U} {c'} hl => by
      by_cases hU : U = s.cur c
      case pos =>
        have hc : c' = c := by simpa [hU, eq_comm] using hl
        subst hU hc
        refine ⟨Q, hq, fun n hm => ⟨hQ n hm, ?_⟩⟩
        simpa using h.carried_extends he (h.voted (hQ n hm) hs hn) (h.vote_cur (hQ n hm))
      case neg => exact h.elected_extends he (by simpa [hU] using hl) }

theorem append (hl : s.leader (s.cur c) = some c) (hc : s.log c = s.llog (s.cur c))
    (hes : ∀ e ∈ es, P.term e = s.cur c) : Inv P { s with
      log := update s.log c (s.log c ++ es)
      llog := update s.llog (s.cur c) (s.log c ++ es)
      acked := setAt s.acked c (s.cur c) (s.log c ++ es).length } := by
  have he := Step.append es hl hc hes |>.extends h
  have hlog : ∀ n, s.log n <+: update s.log c (s.log c ++ es) n := by
    intro n
    by_cases hn : n = c <;> simp [hn]
  -- An entry is either an old one or one of `es`.
  have hcase : ∀ {i : ℕ} {e : E}, (s.log c ++ es)[i]? = some e →
      (s.log c)[i]? = some e ∨ P.term e = s.cur c := by
    intro i e hi
    by_cases hlt : i < (s.log c).length
    case pos => exact .inl <| getElem?_append_left hlt ▸ hi
    case neg =>
      rw [getElem?_append_right (not_lt.mp hlt)] at hi
      exact .inr <| hes e <| mem_of_getElem? hi
  have hanch : Anchored P { s with
      log := update s.log c (s.log c ++ es)
      llog := update s.llog (s.cur c) (s.log c ++ es)
      acked := setAt s.acked c (s.cur c) (s.log c ++ es).length } (s.log c ++ es) := by
    intro i e hi
    cases hcase hi
    case inl ho =>
      rw [take_append_of_le_length (List.getElem?_eq_some_iff.mp ho |>.1)]
      exact (h.log_anch c i e ho).trans (he.llog _)
    case inr ht => simpa [ht] using take_prefix _ _
  exact { h with
    log_le := fun n e hm => by
      by_cases hn : n = c
      case pos =>
        subst hn
        cases mem_append.mp (by simpa using hm)
        case inl hm => exact h.log_le n e hm
        case inr hm => exact le_of_eq (hes e hm)
      case neg => exact h.log_le n e (by simpa [hn] using hm)
    log_anch := fun n => by
      by_cases hn : n = c
      case pos => simpa [hn] using hanch
      case neg => simpa [hn] using (h.log_anch n).mono he.llog
    stand_anch := fun hs => (h.stand_anch hs).mono he.llog
    llog_nil := fun {T} hn => by
      by_cases hT : T = s.cur c
      case pos => simp [hT, hl] at hn
      case neg => simpa [hT] using h.llog_nil hn
    base_prefix := fun T => (h.base_prefix T).trans (he.llog T)
    llog_own := fun {T} {i} {e} hi hb => by
      by_cases hT : T = s.cur c
      case pos =>
        subst hT
        cases hcase (by simpa using hi)
        case inl ho => exact h.llog_own (hc ▸ ho) hb
        case inr ht => exact ht
      case neg => exact h.llog_own (by simpa [hT] using hi) hb
    llog_anch := fun T => by
      by_cases hT : T = s.cur c
      case pos => simpa [hT] using hanch
      case neg => simpa [hT] using (h.llog_anch T).mono he.llog
    acked_le := fun n T => by
      by_cases hn : n = c ∧ T = s.cur c
      case pos => simp [hn]
      case neg =>
        exact (le_of_eq (setAt_of_ne hn)).trans <| (h.acked_le n T).trans (he.llog T).length_le
    acked_cur := fun {n} {T} ha => by
      by_cases hn : n = c ∧ T = s.cur c
      case pos => exact le_of_eq (hn.1 ▸ hn.2)
      case neg => exact h.acked_cur <| lt_of_lt_of_eq ha (setAt_of_ne hn)
    held := fun n T k hk => by
      by_cases hn : n = c ∧ T = s.cur c
      case pos => exact .inl <| by simpa [State.upTo, hn] using take_prefix _ _
      case neg => exact h.held_extends he (hlog n) <| lt_of_lt_of_eq hk (setAt_of_ne hn)
    voted := fun hv hs hl => h.voted_extends he hv hs hl
    elected := fun hl => h.elected_extends he hl }

-- Accepting a part of the current leader's log keeps what earlier leaders had sent, as far as the
-- current leader started with it.
theorem held_merge (hl : s.leader (s.cur n) ≠ none) (hk : k < s.acked n T) (m : ℕ) :
    s.upTo T k <+: merge (s.log n) ((s.llog (s.cur n)).take m) ∨ Lost s T k (s.cur n + 1) := by
  cases h.held n T k hk
  case inr hp => exact .inr hp
  case inl hp =>
    by_cases hT : T = s.cur n
    case pos => exact .inl <| prefix_merge_take hp (hT ▸ s.upTo_prefix T k) m
    case neg =>
      have hlt : T < s.cur n := lt_of_le_of_ne (h.acked_cur (Nat.zero_lt_of_lt hk)) hT
      by_cases hb : s.upTo T k <+: s.base (s.cur n)
      case pos => exact .inl <| prefix_merge_take hp (hb.trans (h.base_prefix _)) m
      case neg => exact .inr ⟨s.cur n, hlt, Nat.lt_succ_self _, hl, hb⟩

theorem accept (hl : s.leader (s.cur n) ≠ none) (hm : m ≤ (s.llog (s.cur n)).length) :
    Inv P { s with
      log := update s.log n (merge (s.log n) ((s.llog (s.cur n)).take m))
      acked := setAt s.acked n (s.cur n) (max (s.acked n (s.cur n)) m) } := by
  have he := Step.accept (P := P) m hl hm |>.extends h
  exact { h with
    log_le := fun n' e he => by
      by_cases hn : n' = n
      case pos =>
        subst hn
        simp only [update_self] at he
        cases merge_eq_or (s.log n') ((s.llog (s.cur n')).take m)
        case inl hm => exact h.log_le n' e (hm ▸ he)
        case inr hm => exact h.llog_le e (mem_of_mem_take (hm ▸ he))
      case neg => exact h.log_le n' e (by simpa [hn] using he)
    log_anch := fun n' => by
      by_cases hn : n' = n
      case pos =>
        simp only [hn, update_self]
        refine Anchored.mono (s := s) ?_ he.llog
        cases merge_eq_or (s.log n) ((s.llog (s.cur n)).take m)
        case inl hm => exact hm.symm ▸ h.log_anch n
        case inr hm => exact hm.symm ▸ (h.llog_anch _).of_isPrefix (List.take_prefix _ _)
      case neg => simpa [hn] using (h.log_anch n').mono he.llog
    acked_le := fun n' T => by
      by_cases hn : n' = n ∧ T = s.cur n
      case pos => simpa [hn, hm] using h.acked_le n (s.cur n)
      case neg => exact (le_of_eq (setAt_of_ne hn)).trans (h.acked_le n' T)
    acked_cur := fun {n'} {T} ha => by
      by_cases hn : n' = n ∧ T = s.cur n
      case pos => exact le_of_eq (hn.1 ▸ hn.2)
      case neg => exact h.acked_cur <| lt_of_lt_of_eq ha (setAt_of_ne hn)
    held := fun n' T k hk => by
      by_cases hn : n' = n
      case neg =>
        refine h.held_extends he (by simp [hn]) <| lt_of_lt_of_eq hk (setAt_of_ne ?_)
        exact fun hc => hn hc.1
      subst hn
      by_cases ho : k < s.acked n' T
      case pos => simpa [State.upTo, Lost] using h.held_merge hl ho m
      -- The entry is one of those just accepted.
      have hT : T = s.cur n' := by
        by_contra hT
        exact ho <| lt_of_lt_of_eq hk (setAt_of_ne fun hc => hT hc.2)
      subst hT
      have hkm : k < m := by simpa [ho] using hk
      refine .inl ?_
      simp only [State.upTo, update_self]
      exact (take_prefix_take_left hkm).trans (prefix_merge _ _)
    voted := fun hv hs hl => h.voted_extends he hv hs hl
    elected := fun hl => h.elected_extends he hl }

end

theorem step (h : Inv P s₁) (hs : Step P n s₁ s₂) : Inv P s₂ := by
  cases hs
  case observe hT => exact h.observe hT
  case stand => exact h.stand n
  case grant hs hv hu => exact h.grant hs hv hu
  case elect hl hs hq hQ => exact h.elect hl hs hq hQ
  case append hl hc he => exact h.append hl hc he
  case accept hl hm => exact h.accept hl hm

end Inv

end

end ReplicatedLog
