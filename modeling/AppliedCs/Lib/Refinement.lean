import Mathlib.Logic.Basic

-- A component takes calls one after the other and answers each of them, unless it fails. An
-- abstract model says how a call changes the abstract state and which answers it allows.
namespace Refinement

variable {σ τ ε ω : Type*}

def run (step : σ → ε → Option (σ × ω)) : σ → List ε → Option (σ × List ω)
  | s, [] => some (s, [])
  | s, e :: es => (step s e).bind fun r => (run step r.1 es).map fun p => (p.1, r.2 :: p.2)

-- Every answer is allowed in the abstract state at the time of its call.
def Answered (spec : τ → ε → τ) (allowed : τ → ε → ω → Prop) : τ → List ε → List ω → Prop
  | _, [],      [] => True
  | t, e :: es, a :: as => allowed t e a ∧ Answered spec allowed (spec t e) es as
  | _, _,       _ => False

variable {allowed : τ → ε → ω → Prop}

-- A relation between the states that every call keeps, with an allowed answer, does so for all
-- sequences of calls.
theorem answered_of_simulation (R : σ → τ → Prop)
    (h : ∀ {s t} e, R s t → ∃ s' a, step s e = some (s', a) ∧ allowed t e a ∧ R s' (spec t e))
    (h₀ : R s t) (es : List ε) :
    ∃ s' as, run step s es = some (s', as) ∧ Answered spec allowed t es as ∧
      R s' (es.foldl spec t) := by
  induction es generalizing s t
  case nil => exact ⟨s, [], rfl, trivial, h₀⟩
  case cons e es hi =>
    obtain ⟨s₁, a, h₁, ha, hr₁⟩ := h e h₀
    obtain ⟨s₂, as, h₂, has, hr₂⟩ := hi hr₁
    exact ⟨s₂, a :: as, by rw [run, h₁, Option.bind_some, h₂, Option.map_some], ⟨ha, has⟩, hr₂⟩

end Refinement
