import Mathlib.Algebra.Order.Monoid.Defs
import Mathlib.Data.Set.Insert

-- Walks in a graph with lengths, and the frontier of a search that settles its nodes one by one.
namespace ShortestPath

variable {V L : Type*} [AddCommMonoid L] [LinearOrder L] {link : V → V → L → Prop} {src : V}
  {settled : Set V} {entries : V → L → Prop}

inductive Walk (link : V → V → L → Prop) (src : V) : V → L → Prop
  | refl : Walk link src src 0
  | step {v w : V} {l d : L} (h : Walk link src v l) (hl : link v w d) : Walk link src w (l + d)

-- An entry is a node with the length of some walk to it. Whatever leaves the settled nodes has an
-- entry that is no longer.
structure Frontier (link : V → V → L → Prop) (src : V) (settled : Set V) (entries : V → L → Prop) :
    Prop where
  start : src ∉ settled → ∃ l ≤ 0, entries src l
  leave : ∀ v ∈ settled, ∀ w ∉ settled, ∀ l d, Walk link src v l → link v w d →
    ∃ l' ≤ l + d, entries w l'

-- An entry for a settled node is not needed any more.
theorem Frontier.mono (hf : Frontier link src settled entries)
    (h : ∀ w ∉ settled, ∀ l, entries w l → entries' w l) :
    Frontier link src settled entries' where
  start hs := by
    obtain ⟨l, hl, he⟩ := hf.start hs
    exact ⟨l, hl, h src hs l he⟩
  leave v hv w hw l d hwalk hlink := by
    obtain ⟨l', hl, he⟩ := hf.leave v hv w hw l d hwalk hlink
    exact ⟨l', hl, h w hw l' he⟩

variable [IsOrderedAddMonoid L]

section

variable (hf : Frontier link src settled entries)

include hf

theorem Frontier.exists_le (h0 : ∀ v w d, link v w d → 0 ≤ d) (hw : Walk link src v l)
    (hv : v ∉ settled) : ∃ w ∉ settled, ∃ l' ≤ l, entries w l' := by
  induction hw
  case refl =>
    obtain ⟨l', hl, he⟩ := hf.start hv
    exact ⟨src, hv, l', hl, he⟩
  case step u w l d hw hlink hi =>
    by_cases hu : u ∈ settled
    case pos =>
      obtain ⟨l', hl, he⟩ := hf.leave u hu w hv l d hw hlink
      exact ⟨w, hv, l', hl, he⟩
    case neg =>
      obtain ⟨x, hx, l', hl, he⟩ := hi hu
      exact ⟨x, hx, l', hl.trans (le_add_of_nonneg_right (h0 u w d hlink)), he⟩

-- The node with the shortest entry is settled, and its own links get entries.
theorem Frontier.settle (h0 : ∀ v w d, link v w d → 0 ≤ d) (hv : v ∉ settled)
    (hmin : ∀ w l', entries w l' → l ≤ l')
    (hkeep : ∀ w ∉ insert v settled, ∀ l', entries w l' → entries' w l')
    (hnew : ∀ w ∉ insert v settled, ∀ d, link v w d → entries' w (l + d)) :
    Frontier link src (insert v settled) entries' where
  start hs := by
    obtain ⟨l', hl, he⟩ := hf.start fun h => hs (.inr h)
    exact ⟨l', hl, hkeep src hs l' he⟩
  leave u hu w hw l' d hwalk hlink := by
    obtain rfl | hu := hu
    · obtain ⟨x, -, l₀, hl, he⟩ := hf.exists_le h0 hwalk hv
      exact ⟨l + d, add_le_add_left ((hmin x l₀ he).trans hl) d, hnew w hw d hlink⟩
    · obtain ⟨l₀, hl, he⟩ := hf.leave u hu w (fun h => hw (.inr h)) l' d hwalk hlink
      exact ⟨l₀, hl, hkeep w hw l₀ he⟩

end

end ShortestPath
