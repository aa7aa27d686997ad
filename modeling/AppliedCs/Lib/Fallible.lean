import Mathlib.Data.List.Forall2

-- Computations that may fail, and loops of them.
namespace Fallible

variable {α β ε : Type}

section

variable {x : Except ε α} {b : β}

theorem bind_eq_ok_iff : x >>= f = .ok b ↔ ∃ a, x = .ok a ∧ f a = .ok b := by
  cases x
  case error | ok a => simp [bind, Except.bind]

theorem map_eq_ok_iff : x.map g = .ok b ↔ ∃ a, x = .ok a ∧ g a = b := by
  cases x
  case error | ok a => simp [Except.map]

end

section mapM

variable {f : α → Except ε β}

theorem mapM_cons_eq_ok_iff : (a :: as).mapM f = .ok bs ↔
    ∃ b rest, f a = .ok b ∧ as.mapM f = .ok rest ∧ bs = b :: rest := by
  rw [List.mapM_cons, bind_eq_ok_iff]
  refine exists_congr fun b => ?_
  rw [bind_eq_ok_iff]
  constructor
  · rintro ⟨hb, rest, hr, he⟩
    exact ⟨rest, hb, hr, (Except.ok.inj he).symm⟩
  · rintro ⟨rest, hb, hr, rfl⟩
    exact ⟨hb, rest, hr, rfl⟩

theorem mapM_eq_ok_iff : as.mapM f = .ok bs ↔ List.Forall₂ (fun a b => f a = .ok b) as bs := by
  induction as generalizing bs
  case nil => cases bs <;> simp [pure, Except.pure]
  case cons a as hi =>
    rw [mapM_cons_eq_ok_iff, List.forall₂_cons_left_iff]
    simp only [hi]

end mapM

end Fallible
