import Mathlib.Data.Finset.Card
import Mathlib.Data.List.Sort

-- Majorities of a finite set, and reading off a sorted list what a majority has reached.
namespace Quorum

open List Finset

variable {α : Type*} [DecidableEq α] {members : Finset α}

def Majority (members Q : Finset α) : Prop :=
  Q ⊆ members ∧ members.card < 2 * Q.card

theorem Majority.meet (h₁ : Majority members Q₁) (h₂ : Majority members Q₂) : ∃ n ∈ Q₁, n ∈ Q₂ := by
  by_contra hc
  have hd : Disjoint Q₁ Q₂ := disjoint_left.mpr fun n hn hn' => hc ⟨n, hn, hn'⟩
  have hle := card_le_card (union_subset h₁.1 h₂.1)
  rw [card_union_of_disjoint hd] at hle
  have := h₁.2
  have := h₂.2
  omega

-- The largest sets that avoid `members` decide whether every set of `q` elements of the two
-- groups has a majority of `members`.
theorem forall_majority_iff :
    (∀ V ⊆ members ∪ others, q ≤ V.card → Majority members (V ∩ members)) ↔
      (members ∪ others).card < q ∨ members.card / 2 + (others \ members).card < q := by
  constructor
  case mp =>
    intro h
    by_contra hc
    rw [not_or, not_lt] at hc
    have hsub : others \ members ⊆ members ∪ others :=
      sdiff_subset.trans subset_union_right
    rcases le_total q (others \ members).card with hq | hq
    · obtain ⟨V, hV, hcard⟩ := exists_subset_card_eq hq
      have hd : V ∩ members = ∅ :=
        disjoint_iff_inter_eq_empty.mp <| disjoint_of_subset_left hV sdiff_disjoint
      have := (h V (hV.trans hsub) hcard.ge).2
      rw [hd, card_empty] at this
      omega
    · obtain ⟨V, hV, hVu, hcard⟩ := exists_subsuperset_card_eq hsub hq hc.1
      have hm := (h V hVu hcard.ge).2
      have hle : others \ members ⊆ V \ members := fun x hx =>
        mem_sdiff.mpr ⟨hV hx, (mem_sdiff.mp hx).2⟩
      have := card_le_card hle
      have := card_inter_add_card_sdiff V members
      omega
  case mpr =>
    intro h V hV hq
    have hle : V \ members ⊆ others \ members := fun x hx => by
      obtain ⟨hx, hn⟩ := mem_sdiff.mp hx
      exact mem_sdiff.mpr ⟨(mem_union.mp (hV hx)).resolve_left hn, hn⟩
    have := card_le_card hle
    have := card_le_card hV
    have := card_inter_add_card_sdiff V members
    exact ⟨inter_subset_right, by omega⟩

-- The `q`-th largest value of a list is reached by `q` of its values.
theorem le_countP_of_insertionSort {l : List ℕ} (hq : q ≤ l.length)
    (h : (l.insertionSort (· ≤ ·))[l.length - q]? = some v) : q ≤ l.countP (v ≤ ·) := by
  have hs := pairwise_insertionSort (· ≤ ·) l
  have hp := perm_insertionSort (· ≤ ·) l
  rw [← hp.countP_eq]
  rw [← hp.length_eq] at hq h
  generalize l.insertionSort (· ≤ ·) = s at hs hq h
  rw [← take_append_drop (s.length - q) s, countP_append]
  have hall : ∀ w ∈ s.drop (s.length - q), decide (v ≤ w) = true := by
    intro w hw
    have ⟨k, hk, hw⟩ := mem_iff_getElem.mp hw
    have ⟨hlt, hv⟩ := List.getElem?_eq_some_iff.mp h
    rw [getElem_drop] at hw
    subst hv hw
    cases k
    case zero => simp
    case succ k => exact decide_eq_true <| pairwise_iff_getElem.mp hs _ _ _ _ (by omega)
  rw [countP_eq_length.mpr hall, length_drop]
  omega

-- Nothing larger than the `q`-th largest value is reached by `q` of the values.
theorem le_of_countP_insertionSort {l : List ℕ} (hw : q ≤ l.countP (w ≤ ·))
    (h : (l.insertionSort (· ≤ ·))[l.length - q]? = some v) : w ≤ v := by
  by_contra hlt
  have hs := pairwise_insertionSort (· ≤ ·) l
  have hp := perm_insertionSort (· ≤ ·) l
  rw [← hp.countP_eq] at hw
  rw [← hp.length_eq] at h
  generalize l.insertionSort (· ≤ ·) = s at hs hw h
  obtain ⟨hi, hv⟩ := List.getElem?_eq_some_iff.mp h
  have hnone : ∀ x ∈ s.take (s.length - q + 1), ¬ decide (w ≤ x) = true := by
    intro x hx
    obtain ⟨k, hk, rfl⟩ := mem_iff_getElem.mp hx
    rw [length_take] at hk
    rw [getElem_take, decide_eq_true_iff]
    have hle : s[k] ≤ s[s.length - q] := by
      rcases Nat.lt_or_ge k (s.length - q) with hlt | hge
      · exact pairwise_iff_getElem.mp hs _ _ _ _ hlt
      · exact le_of_eq <| getElem_congr_idx (by omega)
    omega
  rw [← take_append_drop (s.length - q + 1) s, countP_append, countP_eq_zero.mpr hnone] at hw
  have hle := (s.drop (s.length - q + 1)).countP_le_length (p := (w ≤ ·))
  rw [length_drop] at hle
  omega

end Quorum
