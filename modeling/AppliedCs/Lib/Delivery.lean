import Mathlib.Data.List.Basic
import Mathlib.Data.Set.Basic

-- Operations that replicas deliver in different orders. An operation can be delivered once the
-- state provides what it refers to; two operations that can both be delivered commute, and
-- delivering an operation again changes nothing.
namespace Delivery

open List

variable {σ α : Type*} {act : σ → α → σ} {ready done : σ → α → Prop} {S : Set α} {l : List α}

structure Commuting (act : σ → α → σ) (ready done : σ → α → Prop) (S : Set α) : Prop where
  comm : ∀ s, ∀ p ∈ S, ∀ q ∈ S, p ≠ q → ready s p → ready s q → act (act s p) q = act (act s q) p
  ready_act : ∀ s p q, ready s q → ready (act s p) q
  done_act : ∀ s p, ready s p → done (act s p) p
  done_mono : ∀ s p q, done s q → done (act s p) q
  act_done : ∀ s p, done s p → act s p = s

-- Every operation is ready when its turn comes.
def Enabled (act : σ → α → σ) (ready : σ → α → Prop) : σ → List α → Prop
  | _, [] => True
  | s, p :: l => ready s p ∧ Enabled act ready (act s p) l

section

variable (h : Commuting act ready done S)

include h

-- Operations that were delivered before can be left out.
theorem Commuting.filter [DecidableEq α] (hd : done s p) (he : Enabled act ready s l) :
    Enabled act ready s (l.filter (· ≠ p)) ∧ (l.filter (· ≠ p)).foldl act s = l.foldl act s := by
  induction l generalizing s
  case nil => exact ⟨trivial, rfl⟩
  case cons q l hi =>
    by_cases hq : q = p
    case pos =>
      subst hq
      have hs : act s q = s := h.act_done s q hd
      have ⟨h₁, h₂⟩ := hi hd (hs ▸ he.2)
      rw [filter_cons_of_neg (by simp), foldl_cons, hs]
      exact ⟨h₁, h₂⟩
    case neg =>
      have ⟨h₁, h₂⟩ := hi (h.done_mono s q p hd) he.2
      rw [filter_cons_of_pos (by simpa using hq)]
      exact ⟨⟨he.1, h₁⟩, h₂⟩

-- An operation that is ready can be delivered before all others.
theorem Commuting.front (hp : ready s p) (hpS : p ∈ S)
    (hS : ∀ q ∈ l₁, q ∈ S) (hne : p ∉ l₁) (he : Enabled act ready s (l₁ ++ p :: l₂)) :
    Enabled act ready (act s p) (l₁ ++ l₂) ∧
    (l₁ ++ p :: l₂).foldl act s = (l₁ ++ l₂).foldl act (act s p) := by
  induction l₁ generalizing s
  case nil => exact ⟨he.2, rfl⟩
  case cons q l₁ hi =>
    have hq : q ≠ p := fun hq => hne <| hq ▸ mem_cons_self
    have ⟨h₁, h₂⟩ := hi (h.ready_act s q p hp) (fun r hr => hS r (mem_cons_of_mem q hr))
      (fun hm => hne <| mem_cons_of_mem q hm) he.2
    have hc := h.comm s q (hS q mem_cons_self) p hpS hq he.1 hp
    rw [hc] at h₁
    refine ⟨⟨h.ready_act s p q he.1, h₁⟩, ?_⟩
    rw [cons_append, foldl_cons, h₂, hc]
    rfl

-- Deliveries of the same operations, in any order and any number of times, have the same result.
theorem Commuting.foldl_eq [DecidableEq α] (hS : ∀ p ∈ l₁, p ∈ S)
    (hm : ∀ p, p ∈ l₁ ↔ p ∈ l₂) (h₁ : Enabled act ready s l₁) (h₂ : Enabled act ready s l₂) :
    l₁.foldl act s = l₂.foldl act s := by
  induction hn : l₁.length using Nat.strong_induction_on generalizing s l₁ l₂
  case h n hi =>
    subst hn
    cases l₁
    case nil =>
      cases l₂
      case nil => rfl
      case cons p l₂ => exact absurd ((hm p).mpr mem_cons_self) not_mem_nil
    case cons p l₁ =>
      have ⟨m₁, m₂, hsplit, hne⟩ := eq_append_cons_of_mem ((hm p).mp mem_cons_self)
      subst hsplit
      have hpS := hS p mem_cons_self
      have ⟨he, hf⟩ := h.front h₁.1 hpS
        (fun q hq => hS q <| (hm q).mpr <| mem_append_left _ hq) hne h₂
      -- After its first delivery, `p` is dropped on both sides.
      have hd := h.done_act s p h₁.1
      have ⟨he₁, hf₁⟩ := h.filter hd h₁.2
      have ⟨he₂, hf₂⟩ := h.filter hd he
      rw [hf, foldl_cons, ← hf₁, ← hf₂]
      refine hi _ ?_ (fun q hq => hS q <| mem_cons_of_mem p <| mem_of_mem_filter hq)
        (fun q => ?_) he₁ he₂ rfl
      · exact Nat.lt_succ_of_le (length_filter_le _ _)
      · have := hm q
        simp only [mem_cons, mem_append] at this
        simp only [mem_filter, mem_append, decide_eq_true_eq]
        tauto

theorem Commuting.done_foldl (hd : done s q) : done (l.foldl act s) q := by
  induction l generalizing s
  case nil => exact hd
  case cons hi => exact hi (h.done_mono _ _ _ hd)

end

section Taken

variable [∀ s p, Decidable (ready s p)]

-- The deliveries that were ready when they came.
def taken (act : σ → α → σ) (ready : σ → α → Prop) [∀ s p, Decidable (ready s p)] :
    σ → List α → List α
  | _, [] => []
  | s, p :: l => if ready s p then p :: taken act ready (act s p) l else taken act ready s l

theorem enabled_taken : Enabled act ready s (taken act ready s l) := by
  induction l generalizing s
  case nil => trivial
  case cons p l hi =>
    rw [taken]
    split
    case isTrue h => exact ⟨h, hi⟩
    case isFalse => exact hi

-- If an operation that is not ready changes nothing, the other deliveries decide.
theorem foldl_taken (hn : ∀ s p, ¬ ready s p → act s p = s) :
    (taken act ready s l).foldl act s = l.foldl act s := by
  induction l generalizing s
  case nil => rfl
  case cons p l hi =>
    rw [taken, foldl_cons]
    split
    case isTrue => exact hi
    case isFalse h => rw [hn s p h, hi]

theorem Commuting.done_of_mem_taken (h : Commuting act ready done S)
    (hn : ∀ s p, ¬ ready s p → act s p = s) (hq : q ∈ taken act ready s l) :
    done (l.foldl act s) q := by
  induction l generalizing s
  case nil => exact absurd hq not_mem_nil
  case cons p l hi =>
    rw [taken] at hq
    rw [foldl_cons]
    split at hq
    case isFalse hp => rw [hn s p hp]; exact hi hq
    case isTrue hp =>
      obtain rfl | hq := mem_cons.mp hq
      case inl => exact h.done_foldl (h.done_act s q hp)
      case inr => exact hi hq

-- What is done in the end was done in the beginning or taken, if an operation is done by no other.
theorem mem_taken_of_done (hn : ∀ s p, ¬ ready s p → act s p = s)
    (hd : ∀ s, ∀ p ∈ S, ready s p → done (act s p) q → done s q ∨ p = q) (hS : ∀ p ∈ l, p ∈ S)
    (h : done (l.foldl act s) q) : done s q ∨ q ∈ taken act ready s l := by
  induction l generalizing s
  case nil => exact .inl h
  case cons p l hi =>
    have hi := hi (fun r hr => hS r (mem_cons_of_mem p hr)) h
    rw [taken]
    split
    case isFalse hp => rwa [hn s p hp] at hi
    case isTrue hp =>
      obtain hi | hi := hi
      case inr => exact .inr (mem_cons_of_mem p hi)
      case inl =>
        refine (hd s p (hS p mem_cons_self) hp hi).imp_right fun hp => ?_
        exact hp ▸ mem_cons_self

end Taken

section Ordered

-- Operations that are ordered only in part. A delivery keeps that order, and what is not ordered
-- commutes in all states that can occur.
def Respects (before : α → α → Prop) (l : List α) : Prop :=
  l.Pairwise fun p q => ¬ before q p

instance [DecidableRel before] : Decidable (Respects before l) :=
  inferInstanceAs <| Decidable (l.Pairwise _)

structure Independent (act : σ → α → σ) (before : α → α → Prop) (I : σ → Prop) (S : Set α) :
    Prop where
  keep : ∀ s, I s → ∀ p ∈ S, I (act s p)
  comm : ∀ s, I s → ∀ p ∈ S, ∀ q ∈ S, p ≠ q → ¬ before p q → ¬ before q p →
           act (act s p) q = act (act s q) p

-- An operation can be delivered before all others that it is not ordered with.
theorem Independent.front (h : Independent act before I S) (hs : I s) (hp : p ∈ S)
    (hl : ∀ q ∈ l₁, q ∈ S ∧ q ≠ p ∧ ¬ before q p ∧ ¬ before p q) :
    (l₁ ++ p :: l₂).foldl act s = (l₁ ++ l₂).foldl act (act s p) := by
  induction l₁ generalizing s
  case nil => rfl
  case cons q l₁ hi =>
    have ⟨hq, hne, hqp, hpq⟩ := hl q mem_cons_self
    have hi := hi (h.keep s hs q hq) fun r hr => hl r (mem_cons_of_mem q hr)
    rw [cons_append, foldl_cons, hi, h.comm s hs q hq p hp hne hqp hpq]
    rfl

-- All deliveries that keep the order have the same result.
theorem Independent.foldl_eq (h : Independent act before I S) (hs : I s) (hS : ∀ p ∈ l₁, p ∈ S)
    (hp : l₁.Perm l₂) (hn : l₁.Nodup) (h₁ : Respects before l₁) (h₂ : Respects before l₂) :
    l₁.foldl act s = l₂.foldl act s := by
  induction l₁ generalizing s l₂
  case nil => rw [hp.symm.eq_nil]
  case cons p l₁ hi =>
    obtain ⟨m₁, m₂, rfl⟩ := append_of_mem (hp.subset mem_cons_self)
    have hp' : l₁.Perm (m₁ ++ m₂) := (hp.trans perm_middle).cons_inv
    have ⟨hpl, hn⟩ := nodup_cons.mp hn
    have ⟨hp₁, h₁⟩ := pairwise_cons.mp h₁
    have ⟨hm₁, hm₂, hm⟩ := pairwise_append.mp h₂
    have hpS := hS p mem_cons_self
    have hS' : ∀ q ∈ l₁, q ∈ S := fun q hq => hS q (mem_cons_of_mem p hq)
    -- What stands before `p` on one side only is not ordered with it.
    have hf : (m₁ ++ p :: m₂).foldl act s = (m₁ ++ m₂).foldl act (act s p) := by
      refine h.front hs hpS fun q hq => ?_
      have hql : q ∈ l₁ := hp'.symm.subset (mem_append_left m₂ hq)
      exact ⟨hS' q hql, fun h => hpl (h ▸ hql), hp₁ q hql, hm q hq p mem_cons_self⟩
    have hr : Respects before (m₁ ++ m₂) := by
      refine pairwise_append.mpr ⟨hm₁, (pairwise_cons.mp hm₂).2, fun q hq r hr => ?_⟩
      exact hm q hq r (mem_cons_of_mem p hr)
    rw [hf]
    exact hi (h.keep s hs p hpS) hS' hp' hn h₁ hr

end Ordered

end Delivery
