import Mathlib.Data.List.Basic

-- Runs of a partial function that takes a state to a label and the next state.
namespace Trace

variable {σ α : Type*}

inductive Runs (next : σ → Option (α × σ)) : σ → List α → σ → Prop
  | refl {s : σ} : Runs next s [] s
  | step {s s' t : σ} {a : α} {as : List α} (h : next s = some (a, s')) (hr : Runs next s' as t) :
    Runs next s (a :: as) t

variable {next : σ → Option (α × σ)} {s t : σ} {as : List α}

namespace Runs

theorem single (h : next s = some (a, t)) : Runs next s [a] t :=
  .step h .refl

variable (h : Runs next s as t)

include h

theorem append (h' : Runs next t as' t') : Runs next s (as ++ as') t' := by
  induction h
  case refl => exact h'
  case step hn hr hi => exact .step hn (hi h')

theorem exists_of_mem (ha : a ∈ as) : ∃ as' u u', Runs next s as' u ∧ next u = some (a, u') := by
  induction h
  case refl => cases ha
  case step s s' t b as hn _ hi =>
    obtain rfl | ha := List.mem_cons.mp ha
    · exact ⟨[], s, s', .refl, hn⟩
    · obtain ⟨as', u, u', hr, hu⟩ := hi ha
      exact ⟨b :: as', u, u', .step hn hr, hu⟩

theorem not_of_stuck (hs : next s = none) : as = [] ∧ t = s := by
  cases h
  case refl => exact ⟨rfl, rfl⟩
  case step hn _ => cases hs.symm.trans hn

-- A state has one next state, so one of two runs is the beginning of the other one.
theorem split (h' : Runs next s as' t') : (∃ rest, as' = as ++ rest ∧ Runs next t rest t') ∨
      ∃ rest, as = as' ++ rest ∧ Runs next t' rest t := by
  induction h generalizing as'
  case refl => exact .inl ⟨as', rfl, h'⟩
  case step s₁ s₂ t a as hn hr hi =>
    cases h'
    case refl => exact .inr ⟨a :: as, rfl, .step hn hr⟩
    case step hn' hr' =>
      cases hn.symm.trans hn'
      obtain ⟨rest, rfl, h⟩ | ⟨rest, rfl, h⟩ := hi hr'
      · exact .inl ⟨rest, rfl, h⟩
      · exact .inr ⟨rest, rfl, h⟩

theorem split_of_stuck (ht : next t = none) (h' : Runs next s as' t') :
    ∃ rest, as = as' ++ rest ∧ Runs next t' rest t := by
  obtain ⟨rest, rfl, hr⟩ | hr := h.split h'
  · obtain ⟨rfl, rfl⟩ := hr.not_of_stuck ht
    exact ⟨[], by simp, .refl⟩
  · exact hr

theorem eq_of_stuck (ht : next t = none) (h' : Runs next s as' t')
    (ht' : next t' = none) : as = as' ∧ t = t' := by
  obtain ⟨rest, rfl, hr⟩ := h.split_of_stuck ht h'
  obtain ⟨rfl, rfl⟩ := hr.not_of_stuck ht'
  exact ⟨List.append_nil _, rfl⟩

end Runs

end Trace
