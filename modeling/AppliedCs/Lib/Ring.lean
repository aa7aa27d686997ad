import Mathlib.Data.List.Basic

-- Cells that are written round and round, and hold the last elements of a stream.
namespace Ring

open List

variable {α : Type*} {cells : List α} {c : ℕ}

-- The element at index `i` of the stream is in the cell `i % c`, until that cell is written again.
structure Holds (cells stream : List α) : Prop where
  recent : ∀ {i}, i < stream.length → stream.length ≤ i + cells.length →
    cells[i % cells.length]? = stream[i]?

theorem Holds.nil : Holds cells [] :=
  ⟨fun h => absurd h (Nat.not_lt_zero _)⟩

def write (cells : List α) (pos : ℕ) (data : List α) : List α :=
  cells.take pos ++ (data ++ cells.drop (pos + data.length))

theorem length_write (h : n + data.length ≤ cells.length) :
    (write cells n data).length = cells.length := by
  simp only [write, length_append, length_take, length_drop]
  omega

theorem getElem?_write (h : n + data.length ≤ cells.length) : (write cells n data)[i]? =
    if i < n then cells[i]? else if i < n + data.length then data[i - n]? else cells[i]? := by
  have hn : (cells.take n).length = n := length_take_of_le (by omega)
  rw [write]
  split_ifs with h₁ h₂
  · rw [getElem?_append_left (by omega), getElem?_take_of_lt h₁]
  · rw [getElem?_append_right (by omega), hn, getElem?_append_left (by omega)]
  · rw [getElem?_append_right (by omega), hn, getElem?_append_right (by omega), getElem?_drop]
    congr 1
    omega

-- Behind the position come the indices that are going to be written, and then the oldest ones.
theorem add_mod_of_lt (h : n % c + j < c) : (n + j) % c = n % c + j := by
  rw [← Nat.mod_add_mod, Nat.mod_eq_of_lt h]

theorem mod_outside (hc : 0 < c) (hi : i < n) (hk : n + k ≤ i + c) (hw : n % c + k ≤ c) :
    i % c < n % c ∨ n % c + k ≤ i % c := by
  obtain ⟨d, rfl⟩ : ∃ d, n = i + d := ⟨n - i, by omega⟩
  by_cases hlt : i % c + d < c
  · rw [add_mod_of_lt hlt] at hw ⊢
    omega
  · have hm : (i + d) % c = i % c + d - c := by
      have hi' := Nat.mod_lt i hc
      rw [← Nat.mod_add_mod, Nat.mod_eq_sub_mod (by omega), Nat.mod_eq_of_lt (by omega)]
    omega

theorem Holds.write (h : Holds cells stream)
    (hw : stream.length % cells.length + data.length ≤ cells.length) (hc : 0 < cells.length) :
    Holds (write cells (stream.length % cells.length) data) (stream ++ data) := by
  refine ⟨fun {i} hi hr => ?_⟩
  rw [length_write hw, length_append] at *
  rw [getElem?_write hw]
  by_cases hlt : i < stream.length
  case pos =>
    rw [getElem?_append_left hlt, ← h.recent hlt (by omega)]
    obtain hm | hm := mod_outside hc hlt hr hw
    · rw [if_pos hm]
    · rw [if_neg (by omega), if_neg (by omega)]
  obtain ⟨j, rfl⟩ : ∃ j, i = stream.length + j := ⟨i - stream.length, by omega⟩
  rw [add_mod_of_lt (by omega), if_neg (by omega), if_pos (by omega),
    getElem?_append_right (by omega)]
  congr 1
  omega

-- A part of the stream that does not go round is a part of the cells.
theorem Holds.read (h : Holds cells stream) (hk : o % cells.length + k ≤ cells.length)
    (hl : o + k ≤ stream.length) (hr : stream.length ≤ o + cells.length) :
    (cells.drop (o % cells.length)).take k = (stream.drop o).take k := by
  refine ext_getElem? fun j => ?_
  by_cases hj : j < k
  case neg => rw [getElem?_take_eq_none (by omega), getElem?_take_eq_none (by omega)]
  case pos =>
    rw [getElem?_take_of_lt hj, getElem?_take_of_lt hj, getElem?_drop,
      getElem?_drop, ← h.recent (by omega) (by omega), add_mod_of_lt (by omega)]

end Ring
