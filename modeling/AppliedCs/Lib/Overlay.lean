import Mathlib.Data.List.Pairwise

-- Partial maps that are laid over each other. A key is looked up in the first of them that has it.
namespace Overlay

variable {α β : Type*} {layers : List (α → Option β)}

def overlay (layers : List (α → Option β)) (a : α) : Option β :=
  layers.findSome? (· a)

-- There is no key with two values.
def Agree (f g : α → Option β) : Prop :=
  ∀ a b c, f a = some b → g a = some c → b = c

theorem Agree.refl (f : α → Option β) : Agree f f :=
  fun _ _ _ hb hc => Option.some.inj <| hb.symm.trans hc

instance : Std.Symm (@Agree α β) where
  symm _ _ h a b c hg hf := (h a c b hf hg).symm

@[simp]
theorem overlay_nil : overlay ([] : List (α → Option β)) a = none :=
  rfl

@[simp]
theorem overlay_cons : overlay (f :: layers) a = (f a).or (overlay layers a) := by
  rw [overlay, List.findSome?_cons]
  cases f a <;> rfl

@[simp]
theorem overlay_append :
    overlay (layers ++ layers') a = (overlay layers a).or (overlay layers' a) := by
  induction layers
  case nil => rfl
  case cons f layers hi => rw [List.cons_append, overlay_cons, overlay_cons, hi, Option.or_assoc]

theorem exists_of_overlay (h : overlay layers a = some b) : ∃ f ∈ layers, f a = some b :=
  List.exists_of_findSome?_eq_some h

theorem overlay_eq_none : overlay layers a = none ↔ ∀ f ∈ layers, f a = none :=
  List.findSome?_eq_none_iff

-- It does not matter in which order maps that agree are looked at.
theorem overlay_eq_some (h : layers.Pairwise Agree) (hf : f ∈ layers) (ha : f a = some b) :
    overlay layers a = some b := by
  cases hb : overlay layers a
  case none => rw [overlay_eq_none.mp hb f hf] at ha; cases ha
  case some c =>
    obtain ⟨g, hg, hc⟩ := exists_of_overlay hb
    exact congrArg some <| h.forall_of_forall (fun f _ => Agree.refl f) hg hf a c b hc ha

theorem overlay_perm (h : layers.Pairwise Agree) (hp : layers.Perm layers') :
    overlay layers = overlay layers' := by
  funext a
  cases ha : overlay layers' a
  case none =>
    rw [overlay_eq_none] at ha ⊢
    exact fun f hf => ha f <| hp.mem_iff.mp hf
  case some b =>
    obtain ⟨f, hf, hb⟩ := exists_of_overlay ha
    exact overlay_eq_some h (hp.mem_iff.mpr hf) hb

end Overlay
