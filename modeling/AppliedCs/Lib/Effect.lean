import Mathlib.Data.Option.Basic

-- What computations with a state do to the states with some property. A computation may have no
-- result at all.
namespace Effect

variable {σ α β : Type} {P : σ → Prop} {failed : β → Prop} {k : α → StateT σ Option β}

-- The state is left alone.
def Reads (P : σ → Prop) (m : StateT σ Option α) : Prop :=
  ∀ s, P s → ∀ p ∈ m.run s, p.2 = s

-- The two computations return the same and leave the same state behind, which keeps the property.
def Agrees (P : σ → Prop) (m m' : StateT σ Option α) : Prop :=
  ∀ s, P s → m.run s = m'.run s ∧ ∀ p ∈ m.run s, P p.2

-- No result is a failure.
def Succeeds (failed : β → Prop) (r : StateT σ Option β) : Prop :=
  ∀ s, ∀ p ∈ r.run s, ¬ failed p.1

-- A failure leaves the state alone.
def Atomic (P : σ → Prop) (failed : β → Prop) (r : StateT σ Option β) : Prop :=
  ∀ s, P s → ∀ p ∈ r.run s, failed p.1 → p.2 = s

theorem mem_bind (h : p ∈ (m >>= k).run s) : ∃ a ∈ m.run s, p ∈ (k a.1).run a.2 :=
  Option.bind_eq_some_iff.mp h

theorem Reads.pure (a : α) : Reads P (pure a : StateT σ Option α) := by
  rintro s - _ ⟨⟩
  rfl

theorem Reads.lift (a : Option α) : Reads P (liftM a : StateT σ Option α) := by
  intro s _ p hp
  cases a <;> cases hp
  rfl

theorem Reads.bind (h : Reads P m) (hk : ∀ a, Reads P (k a)) : Reads P (m >>= k) := by
  intro s hs p hp
  obtain ⟨a, ha, hp⟩ := mem_bind hp
  rw [h s hs a ha] at hp
  exact hk a.1 s hs p hp

theorem Reads.mapM {f : α → StateT σ Option β} (h : ∀ a, Reads P (f a)) (as : List α) :
    Reads P (as.mapM f) := by
  induction as
  case nil => exact .pure []
  case cons a as hi =>
    rw [List.mapM_cons]
    exact (h a).bind fun b => hi.bind fun bs => .pure _

theorem Reads.atomic (h : Reads P r) : Atomic P failed r :=
  fun s hs p hp _ => h s hs p hp

theorem Agrees.pure (a : α) : Agrees P (pure a : StateT σ Option α) (pure a) := by
  refine fun s hs => ⟨rfl, ?_⟩
  rintro _ ⟨⟩
  exact hs

theorem Agrees.bind (h : Agrees P m m') (hk : ∀ a, Agrees P (k a) (k' a)) :
    Agrees P (m >>= k) (m' >>= k') := by
  intro s hs
  obtain ⟨heq, hp⟩ := h s hs
  constructor
  · change (m.run s).bind (fun p => (k p.1).run p.2) = (m'.run s).bind fun p => (k' p.1).run p.2
    rw [← heq]
    exact Option.bind_congr fun p hm => (hk p.1 p.2 (hp p hm)).1
  · intro q hq
    obtain ⟨p, hm, hq⟩ := mem_bind hq
    exact (hk p.1 p.2 (hp p hm)).2 q hq

theorem Agrees.mapM {f' : α → StateT σ Option β} (h : ∀ a, Agrees P (f a) (f' a)) (as : List α) :
    Agrees P (as.mapM f) (as.mapM f') := by
  induction as
  case nil => exact .pure []
  case cons a as hi =>
    rw [List.mapM_cons, List.mapM_cons]
    exact (h a).bind fun b => hi.bind fun bs => .pure _

theorem Agrees.forM (h : ∀ a, Agrees P (f a) (f' a)) (as : List α) :
    Agrees P (as.forM f) (as.forM f') := by
  induction as
  case nil => exact .pure _
  case cons a as hi => exact (h a).bind fun _ => hi

theorem Succeeds.pure (h : ¬ failed b) : Succeeds failed (pure b : StateT σ Option β) := by
  rintro s _ ⟨⟩
  exact h

theorem Succeeds.bind (hk : ∀ a, Succeeds failed (k a)) : Succeeds failed (m >>= k) := by
  intro s p hp
  obtain ⟨a, -, hp⟩ := mem_bind hp
  exact hk a.1 a.2 p hp

theorem Succeeds.atomic (h : Succeeds failed r) : Atomic P failed r :=
  fun s _ p hp hf => absurd hf (h s p hp)

-- What only reads may come first.
theorem Atomic.bind (h : Reads P m) (hk : ∀ a, Atomic P failed (k a)) :
    Atomic P failed (m >>= k) := by
  intro s hs p hp hf
  obtain ⟨a, ha, hp⟩ := mem_bind hp
  rw [h s hs a ha] at hp
  exact hk a.1 s hs p hp hf

theorem Atomic.map (h : Atomic P failed' m) {f : α → β} (hf : ∀ a, failed (f a) → failed' a) :
    Atomic P failed (do return f (← m)) := by
  intro s hs p hp hfail
  obtain ⟨a, ha, hp⟩ := mem_bind hp
  cases hp
  exact h s hs a ha (hf a.1 hfail)

end Effect
