import Mathlib.Data.List.Nodup

-- Doubly linked lists whose cells are found by a key.
namespace LinkedList

open List

variable {κ ν : Type*} {key : ν → κ}

structure Cell (κ ν : Type*) where
  value : ν
  left : Option κ
  right : Option κ

abbrev Heap (κ ν : Type*) :=
  κ → Option (Cell κ ν)

def first (key : ν → κ) (l : List ν) : Option κ :=
  l.head?.map key

-- The cells of `l` are linked to each other, the first one has `left` as its left neighbour and the
-- last one has no right neighbour.
def Linked (heap : Heap κ ν) (key : ν → κ) : Option κ → List ν → Prop
  | _,    [] => True
  | left, x :: l => heap (key x) = some ⟨x, left, first key l⟩ ∧ Linked heap key (some (key x)) l

theorem first_append_cons : first key (l₁ ++ x :: l₂) = first key (l₁ ++ x :: l) := by
  cases l₁ <;> rfl

-- The left neighbour of what follows `l`.
def last (key : ν → κ) (left : Option κ) (l : List ν) : Option κ :=
  (l.getLast?.map key).or left

theorem last_cons : last key left (x :: l) = last key (some (key x)) l := by
  cases h : l.getLast? <;> simp [last, getLast?_cons, h]

theorem Linked.append_right (h : Linked heap key left (l₁ ++ l₂)) :
    Linked heap key (last key left l₁) l₂ := by
  induction l₁ generalizing left
  case nil => exact h
  case cons hi => exact last_cons ▸ hi h.2

theorem Linked.heap_eq (h : Linked heap key left (l₁ ++ x :: l₂)) :
    heap (key x) = some ⟨x, last key left l₁, first key l₂⟩ :=
  h.append_right.1

-- In a list that has all cells, the left neighbours are the inverse of the right neighbours.
theorem Linked.right_iff_left (h : Linked heap key none l)
    (hd : ∀ k, (heap k).isSome → k ∈ l.map key) :
    (heap a).bind (·.right) = some b ↔ (heap b).bind (·.left) = some a := by
  have hcell {k} {c : Cell κ ν} (hc : heap k = some c) : ∃ l₁ x l₂, l = l₁ ++ x :: l₂ ∧ key x = k ∧
      c = ⟨x, last key none l₁, first key l₂⟩ := by
    obtain ⟨x, hx, rfl⟩ := mem_map.mp <| hd k (hc ▸ rfl)
    obtain ⟨l₁, l₂, rfl⟩ := append_of_mem hx
    exact ⟨l₁, x, l₂, rfl, rfl, Option.some.inj <| hc.symm.trans h.heap_eq⟩
  constructor <;> intro hab <;> obtain ⟨c, hc, hn⟩ := Option.bind_eq_some_iff.mp hab <;>
    obtain ⟨l₁, x, l₂, rfl, rfl, rfl⟩ := hcell hc
  case mp =>
    cases l₂
    case nil => cases hn
    case cons y l₂ =>
      cases hn
      rw [append_cons] at h
      simp [h.heap_eq, last]
  case mpr =>
    obtain rfl | ⟨l₁, y, rfl⟩ := eq_nil_or_concat' l₁
    case inl => cases hn
    case inr =>
      have hn : key y = a := by simpa [last] using hn
      rw [← append_cons] at h
      rw [← hn, h.heap_eq]
      rfl

theorem Linked.congr (h : Linked heap key left l) (hf : ∀ k ∈ l.map key, heap' k = heap k) :
    Linked heap' key left l := by
  induction l generalizing left
  case nil => trivial
  case cons x l hi =>
    refine ⟨(hf _ mem_cons_self).trans h.1, hi h.2 fun k hk => hf k ?_⟩
    exact mem_cons_of_mem _ hk

theorem Linked.map (f : ν → ν) (hk : ∀ x, key (f x) = key x) (h : Linked heap key left l)
    (hf : ∀ x ∈ l, ∀ left right, heap (key x) = some ⟨x, left, right⟩ →
      heap' (key x) = some ⟨f x, left, right⟩) : Linked heap' key left (l.map f) := by
  have hfirst : ∀ l, first key (l.map f) = first key l := by
    intro l
    cases l
    case nil => rfl
    case cons => simp [first, hk]
  induction l generalizing left
  case nil => trivial
  case cons x l hi =>
    refine ⟨?_, ?_⟩
    · rw [hk, hfirst]
      exact hf x mem_cons_self _ _ h.1
    · rw [hk]
      exact hi h.2 fun y hy => hf y <| mem_cons_of_mem x hy

-- The changes to the heap by which `y` is put behind `x`, where `l` is what was behind `x` before.
structure Splice (heap heap' : Heap κ ν) (key : ν → κ) (x y : ν) (l : List ν) : Prop where
  left : heap' (key x) = (heap (key x)).map fun c => { c with right := some (key y) }
  new : heap' (key y) = some ⟨y, some (key x), first key l⟩
  right : ∀ k, first key l = some k →
            heap' k = (heap k).map fun c => { c with left := some (key y) }
  frame : ∀ k, k ≠ key x → k ≠ key y → first key l ≠ some k → heap' k = heap k

theorem Linked.splice (s : Splice heap heap' key x y l₂) (h : Linked heap key left (l₁ ++ x :: l₂))
    (hn : ((l₁ ++ x :: l₂).map key).Nodup) (hy : key y ∉ (l₁ ++ x :: l₂).map key) :
    Linked heap' key left (l₁ ++ x :: y :: l₂) := by
  induction l₁ generalizing left
  case nil =>
    rw [nil_append] at h hn hy ⊢
    refine ⟨by rw [s.left, h.1]; rfl, s.new, ?_⟩
    cases l₂
    case nil => trivial
    case cons z l₂ =>
      refine ⟨by rw [s.right _ rfl, h.2.1]; rfl, h.2.2.congr fun k hk => s.frame k ?_ ?_ ?_⟩
      all_goals
        simp only [map_cons, nodup_cons, mem_cons, not_or] at hn hy
        rintro heq
      · exact hn.1.2 (heq ▸ hk)
      · exact hy.2.2 (heq ▸ hk)
      · exact hn.2.1 (Option.some.inj heq ▸ hk)
  case cons w l₁ hi =>
    simp only [cons_append, map_cons, nodup_cons, mem_cons, not_or] at hn hy
    refine ⟨?_, hi h.2 hn.2 hy.2⟩
    refine (s.frame (key w) ?_ (Ne.symm hy.1) ?_).trans <|
      h.1.trans <| congrArg (fun k => some (Cell.mk w left k)) first_append_cons
    · exact fun hw => hn.1 <| hw ▸ by simp
    · intro hw
      obtain ⟨z, hz, hk⟩ := Option.map_eq_some_iff.mp hw
      have hz := mem_of_head? hz
      exact hn.1 <| hk ▸ mem_map_of_mem (by simp [hz])

end LinkedList
