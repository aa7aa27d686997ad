import AppliedCs.Lib.Transition
import Mathlib.Data.List.Basic
import Mathlib.Order.Lattice
import Mathlib.Logic.Function.Basic

-- Replicas that exchange their full states. Each replica is updated locally and counts, for every
-- replica, how many of its updates have gone into the state.
namespace Gossip

variable {ι σ ε : Type*}

structure Node (ι σ : Type*) where
  state : σ
  known : ι → ℕ

structure Network (ι σ ε : Type*) where
  nodes : ι → Node ι σ
  histories : ι → List ε
  messages : List (Node ι σ)

-- A message can be received at any time after it was sent, and more than once.
inductive Event (ι ε : Type*)
  | update (i : ι) (e : ε)
  | send (i : ι)
  | receive (i : ι) (message : ℕ)

namespace Node

def merge (merge : σ → σ → σ) (n m : Node ι σ) : Node ι σ where
  state := merge n.state m.state
  known j := max (n.known j) (m.known j)

def update [DecidableEq ι] (f : σ → σ) (i : ι) (n : Node ι σ) : Node ι σ where
  state := f n.state
  known := Function.update n.known i (n.known i + 1)

-- The updates that have gone into the state.
def included (n : Node ι σ) (histories : ι → List ε) (j : ι) : List ε :=
  (histories j).take (n.known j)

end Node

namespace Network

variable [DecidableEq ι] (apply : ε → σ → σ) (merge : σ → σ → σ)

def init (s : σ) : Network ι σ ε where
  nodes _ := ⟨s, fun _ => 0⟩
  histories _ := []
  messages := []

def step (n : Network ι σ ε) : Event ι ε → Option (Network ι σ ε)
  | .update i e => some { n with
      nodes := Function.update n.nodes i ((n.nodes i).update (apply e) i)
      histories := Function.update n.histories i (n.histories i ++ [e]) }
  | .send i => some { n with messages := n.messages ++ [n.nodes i] }
  | .receive i message =>
    (n.messages[message]?).map fun m =>
      { n with nodes := Function.update n.nodes i ((n.nodes i).merge merge m) }

end Network

-- Which state a replica is in once the given updates have gone into it, in terms of one update and
-- one merge of states that include prefixes of the same histories.
structure View (apply : ε → σ → σ) (merge : σ → σ → σ) (s : σ) (ok : ι → ε → Prop)
    (view : (ι → List ε) → σ → Prop) [DecidableEq ι] : Prop where
  init : view (fun _ => []) s
  update : ∀ {g s i e}, ok i e → view g s → view (Function.update g i (g i ++ [e])) (apply e s)
  merge : ∀ {h : ι → List ε} {k k' : ι → ℕ} {s s'},
             view (fun j => (h j).take (k j)) s → view (fun j => (h j).take (k' j)) s' →
             view (fun j => (h j).take (max (k j) (k' j))) (merge s s')

section Run

variable [DecidableEq ι] {apply : ε → σ → σ} {merge : σ → σ → σ} {s : σ} {ok : ι → ε → Prop}
  {view : (ι → List ε) → σ → Prop}

structure Fits (view : (ι → List ε) → σ → Prop) (histories : ι → List ε) (m : Node ι σ) : Prop where
  known : ∀ j, m.known j ≤ (histories j).length
  view : view (m.included histories) m.state

-- A longer history does not change what a state includes.
theorem Fits.append (f : Fits view h m) (i : ι) (e : ε) :
    Fits view (Function.update h i (h i ++ [e])) m := by
  have hj (j) : m.known j ≤ (Function.update h i (h i ++ [e]) j).length ∧
      m.included (Function.update h i (h i ++ [e])) j = m.included h j := by
    by_cases hij : j = i
    case pos =>
      subst hij
      have hk : m.known j ≤ (h j).length := f.known j
      simp [Node.included, List.take_append_of_le_length hk, le_trans hk (Nat.le_succ _)]
    case neg => simp [Node.included, hij, f.known j]
  exact ⟨fun j => (hj j).1, (funext fun j => (hj j).2) ▸ f.view⟩

structure Sound (view : (ι → List ε) → σ → Prop) (n : Network ι σ ε) : Prop where
  own : ∀ i, (n.nodes i).known i = (n.histories i).length
  nodes : ∀ i, Fits view n.histories (n.nodes i)
  messages : ∀ m ∈ n.messages, Fits view n.histories m

def Allowed (ok : ι → ε → Prop) (_ : Network ι σ ε) : Event ι ε → Prop
  | .update i e => ok i e
  | _ => True

instance (ok : ι → ε → Prop) [∀ i e, Decidable (ok i e)] (n : Network ι σ ε) :
    ∀ e, Decidable (Allowed ok n e)
  | .update i e => inferInstanceAs <| Decidable (ok i e)
  | .send _ | .receive _ _ => .isTrue trivial

variable (v : View apply merge s ok view)

include v

theorem Fits.update (f : Fits view h m) (hi : m.known i = (h i).length) (ho : ok i e) :
    Fits view (Function.update h i (h i ++ [e])) (m.update (apply e) i) := by
  have hinc : (m.update (apply e) i).included (Function.update h i (h i ++ [e])) =
      Function.update (m.included h) i (m.included h i ++ [e]) := by
    funext j
    by_cases hij : j = i
    case pos => subst hij; simp [Node.included, Node.update, hi, List.take_of_length_le]
    case neg => simp [Node.included, Node.update, hij]
  refine ⟨fun j => ?_, hinc ▸ v.update ho f.view⟩
  by_cases hij : j = i
  case pos => subst hij; simp [Node.update, hi]
  case neg => simp [Node.update, hij, f.known j]

theorem Fits.merged (f : Fits view h m) (f' : Fits view h m') : Fits view h (m.merge merge m') where
  known j := max_le (f.known j) (f'.known j)
  view := v.merge f.view f'.view

theorem Sound.step (i : Sound view n) (ho : Allowed ok n e) (h : n.step apply merge e = some n') :
    Sound view n' := by
  cases e <;> simp only [Network.step, Option.map_eq_some_iff, Option.some.injEq] at h
  case update k e =>
    subst h
    refine ⟨fun j => ?own, fun j => ?nodes, fun m hm => (i.messages m hm).append k e⟩
    case own =>
      by_cases hj : j = k
      case pos => subst hj; simp [Node.update, i.own]
      case neg => simp [hj, i.own]
    case nodes =>
      by_cases hj : j = k
      case pos => subst hj; simpa using (i.nodes j).update v (i.own j) ho
      case neg => simpa [hj] using (i.nodes j).append k e
  case send k =>
    subst h
    refine ⟨i.own, i.nodes, fun m hm => ?_⟩
    obtain hm | hm := List.mem_append.mp hm
    case inl => exact i.messages m hm
    case inr => exact List.mem_singleton.mp hm ▸ i.nodes k
  case receive k message =>
    obtain ⟨m, hm, rfl⟩ := h
    have fm := i.messages m (List.mem_of_getElem? hm)
    refine ⟨fun j => ?own, fun j => ?nodes, i.messages⟩
    case own =>
      by_cases hj : j = k
      case pos => subst hj; simp [Node.merge, i.own, fm.known j]
      case neg => simp [hj, i.own]
    case nodes =>
      by_cases hj : j = k
      case pos => subst hj; simpa using (i.nodes j).merged v fm
      case neg => simpa [hj] using i.nodes j

theorem View.sound
    (h : Transition.Reaches (Network.step apply merge) (Allowed ok) (Network.init s) n) :
    Sound view n :=
  h.invariant ⟨fun _ => rfl, fun _ => ⟨fun _ => le_rfl, v.init⟩,
    fun _ hm => absurd hm List.not_mem_nil⟩
    fun i ho => i.step v ho

end Run

end Gossip
