import Mathlib.Data.List.Infix

namespace List.IsPrefix

variable {α : Type*} {l₁ : List α} {i : ℕ}

theorem getElem?_some (h : l₁ <+: l₂) (hi : l₁[i]? = some a) : l₂[i]? = some a := by
  have ⟨hl, ha⟩ := List.getElem?_eq_some_iff.mp hi
  have hl₂ := lt_of_lt_of_le hl h.length_le
  exact List.getElem?_eq_some_iff.mpr ⟨hl₂, h.getElem hl ▸ ha⟩

theorem mem_of_getElem? (h : l₁ <+: l₂) (hi : l₂[i]? = some a) (hl : i < l₁.length) : a ∈ l₁ := by
  have ⟨_, ha⟩ := List.getElem?_eq_some_iff.mp hi
  exact ha ▸ h.getElem hl ▸ List.getElem_mem hl

theorem take_eq_take (h : l₁ <+: l₂) (hn : n ≤ l₁.length) : l₂.take n = l₁.take n := by
  have ⟨t, ht⟩ := h
  rw [← ht, List.take_append_of_le_length hn]

end List.IsPrefix
