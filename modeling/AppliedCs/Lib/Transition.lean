import Mathlib.Logic.Relation
import Mathlib.Data.Option.Basic

-- Transition systems given by a partial step function `step : σ → ε → Option σ` over events `ε`.
-- A predicate `ok` on a state and the event about to happen restricts which events a run may take,
-- so that "every run" and "every run whose steps all meet a condition" are instances of one notion.
namespace Transition

variable {σ ε : Type*}

def Step (step : σ → ε → Option σ) (ok : σ → ε → Prop) (s₁ s₂ : σ) : Prop :=
  ∃ e, ok s₁ e ∧ step s₁ e = some s₂

def Reaches (step : σ → ε → Option σ) (ok : σ → ε → Prop) : σ → σ → Prop :=
  Relation.ReflTransGen (Step step ok)

-- The trivial restriction, which allows every event.
def anyEvent (_ : σ) (_ : ε) : Prop :=
  True

instance (s : σ) (e : ε) : Decidable (anyEvent s e) :=
  .isTrue trivial

variable {ok : σ → ε → Prop}

namespace Reaches

theorem refl : Reaches step ok s s :=
  Relation.ReflTransGen.refl

-- What holds at the start of a run and is kept by every allowed step holds at its end.
theorem invariant {P : σ → Prop} (r : Reaches step ok s₁ s₂) (h : P s₁)
    (hs : ∀ {s s' e}, P s → ok s e → step s e = some s' → P s') : P s₂ := by
  induction r
  case refl => exact h
  case tail hstep hi =>
    have ⟨_, ho, he⟩ := hstep
    exact hs hi ho he

end Reaches

-- The executable form of a run: the events are taken one by one, and an event that is not
-- allowed or not enabled ends the attempt.
def run (step : σ → ε → Option σ) (ok : σ → ε → Prop) [∀ s e, Decidable (ok s e)] :
    σ → List ε → Option σ
  | s, [] => some s
  | s, e :: es => if ok s e then (step s e).bind (run step ok · es) else none

theorem Reaches.of_run [∀ s e, Decidable (ok s e)] (h : run step ok s₁ es = some s₂) :
    Reaches step ok s₁ s₂ := by
  induction es generalizing s₁
  case nil =>
    cases h
    exact refl
  case cons e es hi =>
    simp only [run, Option.ite_none_right_eq_some, Option.bind_eq_some_iff] at h
    have ⟨ho, _, hs, h⟩ := h
    exact Relation.ReflTransGen.head ⟨e, ho, hs⟩ (hi h)

-- A concrete run shows that a state with a decidable property is reached.
theorem Reaches.exists_of_run [∀ s e, Decidable (ok s e)] [DecidablePred P] (es : List ε)
    (h : (run step ok s₁ es).any (decide <| P ·) = true) : ∃ s₂, Reaches step ok s₁ s₂ ∧ P s₂ := by
  have ⟨s₂, hs, hp⟩ := Option.any_eq_true .. |>.mp h
  exact ⟨s₂, .of_run hs, of_decide_eq_true hp⟩

end Transition
