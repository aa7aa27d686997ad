import Mathlib

-- Pieces of a line that do not overlap, and what may be done to them: one is added behind all
-- others, cut in two, or joined with the one that begins where it ends.
namespace Ranges

open Function

variable {ι α : Type*} [LinearOrder α]

structure Piece (ι α : Type*) where
  lo : α
  hi : α
  next : Option ι

-- A piece may be linked to the one behind it, which is in the same room.
structure Tiled (S : Set ι) (f : ι → Piece ι α) (room : ι → Set α) (top : α) : Prop where
  nonempty : ∀ i ∈ S, (f i).lo < (f i).hi
  apart : ∀ i ∈ S, ∀ j ∈ S, i ≠ j → (f i).hi ≤ (f j).lo ∨ (f j).hi ≤ (f i).lo
  linked : ∀ i ∈ S, ∀ j ∈ (f i).next, j ∈ S ∧ (f i).hi = (f j).lo ∧ room j = room i
  within : ∀ i ∈ S, ∀ a, (f i).lo ≤ a → a < (f i).hi → a ∈ room i
  below : ∀ i ∈ S, (f i).hi ≤ top

namespace Tiled

variable {S : Set ι} {f : ι → Piece ι α} {room : ι → Set α} {top : α} (h : Tiled S f room top)

include h

theorem disjoint (hi : i ∈ S) (hj : j ∈ S) (hne : i ≠ j) :
    Disjoint (Set.Ico (f i).lo (f i).hi) (Set.Ico (f j).lo (f j).hi) := by
  refine Set.disjoint_left.mpr fun a ha hb => ?_
  cases h.apart i hi j hj hne
  case inl hle => exact absurd (ha.2.trans_le hle) (not_lt.mpr hb.1)
  case inr hle => exact absurd (hb.2.trans_le hle) (not_lt.mpr ha.1)

theorem eq_of_lo_eq (hi : i ∈ S) (hj : j ∈ S) (he : (f i).lo = (f j).lo) : i = j := by
  by_contra hne
  cases h.apart i hi j hj hne
  case inl hle => exact absurd (h.nonempty i hi) (not_lt.mpr <| he ▸ hle)
  case inr hle => exact absurd (h.nonempty j hj) (not_lt.mpr <| he ▸ hle)

theorem eq_of_hi_eq (hi : i ∈ S) (hj : j ∈ S) (he : (f i).hi = (f j).hi) : i = j := by
  by_contra hne
  cases h.apart i hi j hj hne
  case inl hle => exact absurd (h.nonempty j hj) (not_lt.mpr <| he ▸ hle)
  case inr hle => exact absurd (h.nonempty i hi) (not_lt.mpr <| he ▸ hle)

theorem ne_of_linked (hi : i ∈ S) (hn : (f i).next = some j) : i ≠ j := by
  rintro rfl
  exact (h.nonempty i hi).ne' (h.linked i hi i hn).2.1

variable [DecidableEq ι]

theorem add (hk : k ∉ S) (hlt : top < b) :
    Tiled (insert k S) (update f k ⟨top, b, none⟩) (update room k (Set.Ico top b)) b := by
  have hb : ∀ i ∈ S, (f i).hi < b := fun i hi => (h.below i hi).trans_lt hlt
  constructor
  case nonempty => grind [h.nonempty]
  case apart => grind [h.below, h.apart]
  case linked => grind [h.linked]
  case within => grind [h.within]
  case below => grind

-- The front part stays with `i`, the rest goes to `k`.
theorem cut (hi : i ∈ S) (hk : k ∉ S) (h₁ : (f i).lo < m) (h₂ : m < (f i).hi) :
    Tiled (insert k S) (update (update f k ⟨m, (f i).hi, (f i).next⟩) i ⟨(f i).lo, m, some k⟩)
      (update room k (room i)) top := by
  have hb := h.below i hi
  constructor
  case nonempty => grind [h.nonempty]
  case apart => grind [h.apart]
  case linked => grind [h.linked]
  case within => grind [h.within]
  case below => grind [h.below]

-- `i` takes over the range of `j`, which is given up.
theorem join (hi : i ∈ S) (hn : (f i).next = some j) :
    Tiled (S \ {j}) (update f i ⟨(f i).lo, (f j).hi, (f j).next⟩) room top := by
  obtain ⟨hj, hadj, hroom⟩ := h.linked i hi j hn
  have hne := h.ne_of_linked hi hn
  have hlt := h.nonempty i hi
  have hlt' := h.nonempty j hj
  have hb := h.below j hj
  -- No other piece is linked to the one that is given up.
  have honly : ∀ k ∈ S, ∀ l ∈ (f k).next, l = j → k = i := by
    rintro k hk l hl rfl
    exact h.eq_of_hi_eq hk hi ((h.linked k hk l hl).2.1.trans hadj.symm)
  -- A piece that is apart from both is apart from their union.
  have hmid : ∀ k ∈ S, k ≠ i → k ≠ j → (f k).hi ≤ (f i).lo ∨ (f j).hi ≤ (f k).lo := by
    intro k hk hki hkj
    have := h.nonempty k hk
    grind [h.apart k hk i hi hki, h.apart k hk j hj hkj]
  constructor
  case nonempty => grind [h.nonempty]
  case apart => grind [h.apart]
  case linked => grind [h.linked, h.ne_of_linked]
  case within => grind [h.within]
  case below => grind [h.below]

end Tiled

end Ranges
