import Mathlib.Data.List.Nodup
import Mathlib.Data.Set.Insert

-- Items are put on shelves that they fit. An item that is not out is on at most one shelf.
namespace Shelves

open List Function

variable {ι κ : Type*}

structure Stocked (fits : κ → ι → Prop) (shelf : κ → List ι) (out : Set ι) : Prop where
  nodup : ∀ k, (shelf k).Nodup
  once : ∀ {i k k'}, i ∈ shelf k → i ∈ shelf k' → k = k'
  inside : ∀ {i k}, i ∈ shelf k → i ∉ out
  filed : ∀ {i k}, i ∈ shelf k → fits k i

namespace Stocked

variable {fits fits' : κ → ι → Prop} {shelf shelf' : κ → List ι} {out out' : Set ι}
variable (h : Stocked fits shelf out)

include h

theorem mono (hs : ∀ k, (shelf' k).Sublist (shelf k))
    (ho : ∀ {i k}, i ∈ shelf' k → i ∉ out → fits k i → i ∉ out' ∧ fits' k i) :
    Stocked fits' shelf' out' := by
  have hall {i k} (hi : i ∈ shelf' k) :=
    have hm := (hs k).subset hi
    ho hi (h.inside hm) (h.filed hm)
  exact ⟨fun k => (h.nodup k).sublist (hs k),
    fun hi hi' => h.once ((hs _).subset hi) ((hs _).subset hi'),
    fun hi => (hall hi).1, fun hi => (hall hi).2⟩

variable [DecidableEq κ]

theorem put (hi : i ∈ out) (hf : fits k i) (ho : ∀ j ∈ out', j ∈ out ∧ j ≠ i) :
    Stocked fits (update shelf k (shelf k ++ [i])) out' := by
  have hnot {k'} : i ∉ shelf k' := fun hj => h.inside hj hi
  refine ⟨fun k' => ?_, fun hj hj' => ?_, fun hj hout => ?_, fun hj => ?_⟩
  · by_cases hk : k' = k
    case pos => subst hk; simpa [nodup_append] using ⟨h.nodup k', fun j hj he => hnot (he ▸ hj)⟩
    case neg => simpa [hk] using h.nodup k'
  · grind [h.once]
  · grind [h.inside]
  · grind [h.filed]

theorem take (hk : shelf k = l₁ ++ i :: l₂) (ho : ∀ j ∉ out, j ≠ i → j ∉ out') :
    Stocked fits (update shelf k (l₁ ++ l₂)) out' := by
  have hnot : i ∉ l₁ ++ l₂ := (nodup_cons.mp <| nodup_middle.mp <| hk ▸ h.nodup k).1
  have hall (k') : (update shelf k (l₁ ++ l₂) k').Sublist (shelf k') := by
    by_cases hk' : k' = k
    case pos => subst hk'; simp [hk]
    case neg => simp [hk']
  refine h.mono hall fun {j k'} hj hout hf => ⟨ho _ hout ?_, hf⟩
  rintro rfl
  obtain rfl : k' = k := h.once ((hall k').subset hj) (by simp [hk])
  exact hnot (by simpa using hj)

end Stocked

end Shelves
