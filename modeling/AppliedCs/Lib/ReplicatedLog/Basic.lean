import AppliedCs.Lib.Prefix
import Mathlib.Data.Finset.Card

-- Replication of a log by an elected leader, in terms of what was ever decided: which vote a node
-- cast in a term, with which log a node stood for election, who won and what the winner's log has
-- grown to, and how much of a leader's log a node has stored. Messages do not appear; they only
-- report such decisions.
namespace ReplicatedLog

open Function

noncomputable section
open Classical

-- The parameters of the protocol: the term in which an entry was created, and which sets of nodes
-- decide.
structure Protocol (N E : Type*) where
  term : E → ℕ
  quorum : Finset N → Prop
  meet : ∀ {Q₁ Q₂}, quorum Q₁ → quorum Q₂ → ∃ n ∈ Q₁, n ∈ Q₂

structure State (N E : Type*) where
  cur : N → ℕ
  log : N → List E
  vote : N → ℕ → Option N
  stand : N → ℕ → Option (List E)
  leader : ℕ → Option N
  base : ℕ → List E
  llog : ℕ → List E
  acked : N → ℕ → ℕ

variable {N E : Type*} {s s₁ : State N E} {l : List E}

def State.init : State N E where
  cur _ := 0
  log _ := []
  vote _ _ := none
  stand _ _ := none
  leader _ := none
  base _ := []
  llog _ := []
  acked _ _ := 0

-- A table over nodes and terms with one value replaced.
def setAt {α : Type*} (f : N → ℕ → α) (n : N) (T : ℕ) (a : α) : N → ℕ → α :=
  fun n' T' => if n' = n ∧ T' = T then a else f n' T'

@[simp]
theorem setAt_self {α : Type*} (f : N → ℕ → α) (n : N) (T : ℕ) (a : α) : setAt f n T a n T = a := by
  simp [setAt]

theorem setAt_of_ne {α : Type*} {f : N → ℕ → α} {a : α} (h : ¬(n' = n ∧ T' = T)) :
    setAt f n T a n' T' = f n' T' := by
  simp [setAt, h]

theorem eq_some_of_setAt {α : Type*} {f : N → ℕ → Option α} {a b : α}
    (h : setAt f n T (some a) n' T' = some b) : (n' = n ∧ T' = T ∧ b = a) ∨ f n' T' = some b := by
  by_cases hn : n' = n ∧ T' = T
  case pos => exact .inl ⟨hn.1, hn.2, by simpa [setAt, hn, eq_comm] using h⟩
  case neg => exact .inr <| (setAt_of_ne hn).symm.trans h

@[elab_as_elim]
theorem of_setAt {α : Type*} {f : N → ℕ → Option α} {a b : α} {Q : N → ℕ → α → Prop}
    (h : setAt f n T (some a) n' T' = some b) (hnew : Q n T a) (hold : f n' T' = some b → Q n' T' b)
    : Q n' T' b := by
  rcases eq_some_of_setAt h with ⟨rfl, rfl, rfl⟩ | h
  · exact hnew
  · exact hold h

-- A stored log keeps what it has beyond an accepted prefix, unless it disagrees with the prefix.
def merge (l p : List E) : List E :=
  if p <+: l then l else p

theorem merge_eq_left (h : p <+: l) : merge l p = l :=
  if_pos h

theorem merge_eq_right (h : ¬p <+: l) : merge l p = p :=
  if_neg h

theorem merge_eq_or (l p : List E) : merge l p = l ∨ merge l p = p := by
  by_cases h : p <+: l
  case pos => exact .inl <| merge_eq_left h
  case neg => exact .inr <| merge_eq_right h

theorem prefix_merge (l p : List E) : p <+: merge l p := by
  by_cases h : p <+: l
  case pos => rwa [merge_eq_left h]
  case neg => rw [merge_eq_right h]

-- Accepting a prefix of `L` loses nothing that the stored log has in common with `L`.
theorem prefix_merge_take (hl : q <+: l) (hL : q <+: L) (m : ℕ) : q <+: merge l (L.take m) := by
  by_cases h : L.take m <+: l
  case pos => rwa [merge_eq_left h]
  case neg =>
    rw [merge_eq_right h]
    cases List.prefix_or_prefix_of_prefix hL (List.take_prefix m L)
    case inl hq => exact hq
    case inr hq => exact absurd (hq.trans hl) h

namespace Protocol

def lastTerm (P : Protocol N E) (l : List E) : ℕ :=
  (l.getLast?.map P.term).getD 0

-- The order in which voters compare logs.
def UpToDate (P : Protocol N E) (l₁ l₂ : List E) : Prop :=
  P.lastTerm l₂ < P.lastTerm l₁ ∨ (P.lastTerm l₁ = P.lastTerm l₂ ∧ l₂.length ≤ l₁.length)

end Protocol

-- What a node `n` can do.
inductive Step (P : Protocol N E) (n : N) (s : State N E) : State N E → Prop
  | observe (T : ℕ) :
    s.cur n ≤ T → Step P n s { s with cur := update s.cur n T }
  | stand :
    Step P n s { s with
      cur := update s.cur n (s.cur n + 1)
      vote := setAt s.vote n (s.cur n + 1) (some n)
      stand := setAt s.stand n (s.cur n + 1) (some (s.log n)) }
  | grant (c : N) (l : List E) :
    s.stand c (s.cur n) = some l → (s.vote n (s.cur n) = none ∨ s.vote n (s.cur n) = some c) →
    P.UpToDate l (s.log n) → Step P n s { s with vote := setAt s.vote n (s.cur n) (some c) }
  | elect (Q : Finset N) :
    s.leader (s.cur n) = none → s.stand n (s.cur n) = some (s.log n) → P.quorum Q →
    (∀ v ∈ Q, s.vote v (s.cur n) = some n) →
    Step P n s { s with
      leader := update s.leader (s.cur n) (some n)
      base := update s.base (s.cur n) (s.log n)
      llog := update s.llog (s.cur n) (s.log n) }
  | append (es : List E) :
    s.leader (s.cur n) = some n → s.log n = s.llog (s.cur n) → (∀ e ∈ es, P.term e = s.cur n) →
    Step P n s { s with
      log := update s.log n (s.log n ++ es)
      llog := update s.llog (s.cur n) (s.log n ++ es)
      acked := setAt s.acked n (s.cur n) (s.log n ++ es).length }
  | accept (m : ℕ) :
    s.leader (s.cur n) ≠ none → m ≤ (s.llog (s.cur n)).length →
    Step P n s { s with
      log := update s.log n (merge (s.log n) ((s.llog (s.cur n)).take m))
      acked := setAt s.acked n (s.cur n) (max (s.acked n (s.cur n)) m) }

-- Decisions are never taken back.
structure Extends (s₁ s₂ : State N E) : Prop where
  cur : ∀ n, s₁.cur n ≤ s₂.cur n
  vote : ∀ {n T c}, s₁.vote n T = some c → s₂.vote n T = some c
  stand : ∀ {n T l}, s₁.stand n T = some l → s₂.stand n T = some l
  leader : ∀ {T c}, s₁.leader T = some c → s₂.leader T = some c
  base : ∀ {T}, s₁.leader T ≠ none → s₂.base T = s₁.base T
  llog : ∀ T, s₁.llog T <+: s₂.llog T
  acked : ∀ n T, s₁.acked n T ≤ s₂.acked n T
  -- What a node has stored of a leader's log is settled once its term has moved on.
  frozen : ∀ {n T}, T < s₁.cur n → s₂.acked n T = s₁.acked n T

namespace Extends

theorem refl (s : State N E) : Extends s s where
  cur _ := le_rfl
  vote := id
  stand := id
  leader := id
  base _ := rfl
  llog _ := List.prefix_rfl
  acked _ _ := le_rfl
  frozen _ := rfl

theorem trans (h₁ : Extends s₁ s₂) (h₂ : Extends s₂ s₃) : Extends s₁ s₃ where
  cur n := (h₁.cur n).trans (h₂.cur n)
  vote h := h₂.vote (h₁.vote h)
  stand h := h₂.stand (h₁.stand h)
  leader h := h₂.leader (h₁.leader h)
  base h := by
    have ⟨c, hc⟩ := Option.ne_none_iff_exists'.mp h
    rw [h₂.base (by simp [h₁.leader hc]), h₁.base h]
  llog T := (h₁.llog T).trans (h₂.llog T)
  acked n T := (h₁.acked n T).trans (h₂.acked n T)
  frozen h := by rw [h₂.frozen (lt_of_lt_of_le h (h₁.cur _)), h₁.frozen h]

theorem leader_ne (h : Extends s₁ s₂) (hl : s₁.leader T ≠ none) : s₂.leader T ≠ none := by
  have ⟨c, hc⟩ := Option.ne_none_iff_exists'.mp hl
  simp [h.leader hc]

end Extends

-- Nothing is done in another node's name.
structure Frame (n : N) (s₁ s₂ : State N E) : Prop where
  cur : ∀ {m}, m ≠ n → s₂.cur m = s₁.cur m
  log : ∀ {m}, m ≠ n → s₂.log m = s₁.log m
  vote : ∀ {m}, m ≠ n → s₂.vote m = s₁.vote m
  leader : ∀ {m T}, m ≠ n → s₂.leader T = some m → s₁.leader T = some m
  llog : ∀ {m T}, m ≠ n → s₁.leader T = some m → s₂.llog T = s₁.llog T
  acked : ∀ {m}, m ≠ n → s₂.acked m = s₁.acked m

namespace Frame

theorem refl (n : N) (s : State N E) : Frame n s s where
  cur _ := rfl
  log _ := rfl
  vote _ := rfl
  leader _ h := h
  llog _ _ := rfl
  acked _ := rfl

theorem trans (h₁ : Frame n s₁ s₂) (h₂ : Frame n s₂ s₃) (he : Extends s₁ s₂) : Frame n s₁ s₃ where
  cur hm := (h₂.cur hm).trans (h₁.cur hm)
  log hm := (h₂.log hm).trans (h₁.log hm)
  vote hm := (h₂.vote hm).trans (h₁.vote hm)
  leader hm h := h₁.leader hm (h₂.leader hm h)
  llog hm h := (h₂.llog hm (he.leader h)).trans (h₁.llog hm h)
  acked hm := (h₂.acked hm).trans (h₁.acked hm)

end Frame

-- Every prefix of `l` is a prefix of the log of the leader whose term its last entry carries. Two
-- logs with this property that have entries of one term at one place agree up to there.
def Anchored (P : Protocol N E) (s : State N E) (l : List E) : Prop :=
  ∀ i e, l[i]? = some e → l.take (i + 1) <+: s.llog (P.term e)

namespace Anchored

theorem nil : Anchored P s [] := by
  simp [Anchored]

theorem mono (h : Anchored P s l) (he : ∀ T, s.llog T <+: s₂.llog T) : Anchored P s₂ l :=
  fun i e hi => (h i e hi).trans (he _)

theorem of_isPrefix (h : Anchored P s l₂) (hp : l₁ <+: l₂) : Anchored P s l₁ := by
  intro i e hi
  have hlt := List.getElem?_eq_some_iff.mp hi |>.1
  exact hp.take_eq_take hlt ▸ h i e (hp.getElem?_some hi)

theorem take_eq_take (h₁ : Anchored P s l₁) (h₂ : Anchored P s l₂) (he : l₁[k]? = some e)
    (hf : l₂[k]? = some f) (ht : P.term e = P.term f) : l₁.take (k + 1) = l₂.take (k + 1) := by
  have hl₁ := List.getElem?_eq_some_iff.mp he |>.1
  have hl₂ := List.getElem?_eq_some_iff.mp hf |>.1
  have hp := List.prefix_of_prefix_length_le (h₁ k e he) (ht ▸ h₂ k f hf) (by simp; omega)
  exact hp.eq_of_length (by simp; omega)

-- A whole log is a prefix of the log of the leader of its last entry.
theorem prefix_of_getLast? (h : Anchored P s l) (he : l.getLast? = some e) :
    l <+: s.llog (P.term e) := by
  have hn : l ≠ [] := by rintro rfl; simp at he
  have hl := List.length_pos_iff.mpr hn
  rw [List.getLast?_eq_getElem?] at he
  have := h _ e he
  rwa [Nat.sub_add_cancel hl, List.take_length] at this

end Anchored

-- The entry at place `k` of a leader's log was created by that leader.
def Own (P : Protocol N E) (s : State N E) (T k : ℕ) : Prop :=
  ∃ e, (s.llog T)[k]? = some e ∧ P.term e = T

-- The leader's log up to and including place `k`.
def State.upTo (s : State N E) (T k : ℕ) : List E :=
  (s.llog T).take (k + 1)

-- Some leader after term `T` and before term `U` was elected without the entries up to `k` of the
-- leader of term `T`.
def Lost (s : State N E) (T k U : ℕ) : Prop :=
  ∃ T', T < T' ∧ T' < U ∧ s.leader T' ≠ none ∧ ¬s.upTo T k <+: s.base T'

theorem Own.lt (h : Own P s T k) : k < (s.llog T).length := by
  have ⟨_, h, _⟩ := h
  exact List.getElem?_eq_some_iff.mp h |>.1

theorem Own.extends (h : Own P s₁ T k) (he : Extends s₁ s₂) : Own P s₂ T k :=
  have ⟨e, h, ht⟩ := h
  ⟨e, (he.llog T).getElem?_some h, ht⟩

theorem State.upTo_prefix (s : State N E) (T k : ℕ) : s.upTo T k <+: s.llog T :=
  List.take_prefix _ _

theorem Extends.upTo_eq (he : Extends s₁ s₂) (h : k < (s₁.llog T).length) :
    s₂.upTo T k = s₁.upTo T k :=
  (he.llog T).take_eq_take h

theorem Lost.extends (h : Lost s₁ T k U) (he : Extends s₁ s₂) (hk : k < (s₁.llog T).length) :
    Lost s₂ T k U := by
  have ⟨T', h₁, h₂, hl, hb⟩ := h
  refine ⟨T', h₁, h₂, he.leader_ne hl, ?_⟩
  rwa [he.upTo_eq hk, he.base hl]

theorem Lost.weaken (h : Lost s T k U) (hu : U ≤ V) : Lost s T k V :=
  have ⟨T', h₁, h₂, h⟩ := h
  ⟨T', h₁, lt_of_lt_of_le h₂ hu, h⟩

end

end ReplicatedLog
