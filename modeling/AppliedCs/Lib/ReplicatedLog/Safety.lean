import AppliedCs.Lib.ReplicatedLog.Preservation

namespace ReplicatedLog

noncomputable section
open Classical

variable {N E : Type*} {P : Protocol N E} {s₁ s₂ : State N E} {n : N}

def Steps (P : Protocol N E) (n : N) : State N E → State N E → Prop :=
  Relation.ReflTransGen (Step P n)

namespace Steps

theorem refl : Steps P n s s :=
  Relation.ReflTransGen.refl

theorem single (hs : Step P n s₁ s₂) : Steps P n s₁ s₂ :=
  Relation.ReflTransGen.single hs

variable (hs : Steps P n s₁ s₂) (h : Inv P s₁)

include hs h

theorem inv : Inv P s₂ := by
  induction hs
  case refl => exact h
  case tail hs hi => exact hi.step hs

theorem to_extends : Extends s₁ s₂ := by
  induction hs
  case refl => exact .refl _
  case tail hr hs he => exact he.trans <| hs.extends <| inv hr h

theorem frame : Frame n s₁ s₂ := by
  induction hs
  case refl => exact .refl n _
  case tail hr hs hf => exact hf.trans hs.frame (to_extends hr h)

end Steps

-- An entry is committed by a leader that created it, once a quorum has stored it.
def Committed (P : Protocol N E) (s : State N E) (T k : ℕ) : Prop :=
  Own P s T k ∧ ∃ Q, P.quorum Q ∧ ∀ n ∈ Q, k < s.acked n T

theorem Committed.extends (h : Committed P s₁ T k) (he : Extends s₁ s₂) : Committed P s₂ T k :=
  have ⟨ho, Q, hq, hQ⟩ := h
  ⟨ho.extends he, Q, hq, fun n hn => lt_of_lt_of_le (hQ n hn) (he.acked n T)⟩

theorem Committed.leader_ne (h : Committed P s T k) (hi : Inv P s) : s.leader T ≠ none :=
  have ⟨_, he, _⟩ := h.1
  hi.leader_of_llog (List.mem_of_getElem? he)

-- Every later leader starts with the committed entries: the voter that had stored them handed
-- them on, unless a leader in between had lost them.
theorem Inv.leader_complete (h : Inv P s) (hc : Committed P s T k) (hT : T < U)
    (hl : s.leader U ≠ none) : s.upTo T k <+: s.base U := by
  induction U using Nat.strong_induction_on
  case _ U ih =>
    have ⟨c, hl⟩ := Option.ne_none_iff_exists'.mp hl
    have ⟨ho, Q, hq, hQ⟩ := hc
    have ⟨Q', hq', hQ'⟩ := h.elected hl
    have ⟨n, hn, hn'⟩ := P.meet hq hq'
    cases (hQ' n hn').2 T k hT (hQ n hn) ho
    case inl hp => exact hp
    case inr hp =>
      have ⟨T', h₁, h₂, h₃, h₄⟩ := hp
      exact absurd (ih T' h₂ h₁ h₃) h₄

-- `p` is a part of a leader's log that was committed in a term up to `U`.
def CommittedPrefix (P : Protocol N E) (s : State N E) (U : ℕ) (p : List E) : Prop :=
  p = [] ∨ ∃ T k, T ≤ U ∧ Committed P s T k ∧ p <+: s.upTo T k

namespace CommittedPrefix

theorem nil : CommittedPrefix P s U [] :=
  .inl rfl

theorem of_isPrefix (h : CommittedPrefix P s U q) (hp : p <+: q) : CommittedPrefix P s U p := by
  cases h
  case inl h => exact .inl <| List.prefix_nil.mp (h ▸ hp)
  case inr h =>
    have ⟨T, k, hT, hc, hq⟩ := h
    exact .inr ⟨T, k, hT, hc, hp.trans hq⟩

theorem mono (h : CommittedPrefix P s U p) (hU : U ≤ V) : CommittedPrefix P s V p :=
  h.imp_right fun ⟨T, k, hT, h⟩ => ⟨T, k, hT.trans hU, h⟩

theorem of_extends (h : CommittedPrefix P s₁ U p) (he : Extends s₁ s₂) :
    CommittedPrefix P s₂ U p := by
  refine h.imp_right fun ⟨T, k, hT, hc, hp⟩ => ⟨T, k, hT, hc.extends he, ?_⟩
  rwa [he.upTo_eq hc.1.lt]

theorem prefix_llog (h : CommittedPrefix P s U p) (hi : Inv P s) (hU : U ≤ V)
    (hl : s.leader V ≠ none) : p <+: s.llog V := by
  cases h
  case inl h => exact h ▸ List.nil_prefix
  case inr h =>
    have ⟨T, k, hT, hc, hp⟩ := h
    by_cases hTV : T = V
    case pos => exact hp.trans <| hTV ▸ s.upTo_prefix T k
    case neg =>
      have hlt : T < V := lt_of_le_of_ne (hT.trans hU) hTV
      exact hp.trans <| (hi.leader_complete hc hlt hl).trans (hi.base_prefix V)

-- There is one sequence of committed entries.
theorem agree (hp : CommittedPrefix P s U p) (hq : CommittedPrefix P s V q) (hi : Inv P s) :
    p <+: q ∨ q <+: p := by
  cases hp
  case inl hp => exact .inl <| hp ▸ List.nil_prefix
  case inr hp =>
    cases hq
    case inl hq => exact .inr <| hq ▸ List.nil_prefix
    case inr hq =>
      have ⟨T₁, k₁, _, h₁, hp₁⟩ := hp
      have ⟨T₂, k₂, _, h₂, hq₂⟩ := hq
      have hp : CommittedPrefix P s T₁ p := .inr ⟨T₁, k₁, le_rfl, h₁, hp₁⟩
      have hq : CommittedPrefix P s T₂ q := .inr ⟨T₂, k₂, le_rfl, h₂, hq₂⟩
      cases le_total T₁ T₂
      case inl h =>
        have hl := h₂.leader_ne hi
        exact List.prefix_or_prefix_of_prefix (hp.prefix_llog hi h hl) (hq.prefix_llog hi le_rfl hl)
      case inr h =>
        have hl := h₁.leader_ne hi
        exact List.prefix_or_prefix_of_prefix (hp.prefix_llog hi le_rfl hl) (hq.prefix_llog hi h hl)

end CommittedPrefix

end

end ReplicatedLog
