import AppliedCs.Crdt.Counter
import Mathlib.Algebra.BigOperators.Group.Finset.Piecewise
import Mathlib.Algebra.BigOperators.Group.Finset.Sigma
import Mathlib.Algebra.Order.BigOperators.Group.Finset

namespace Crdt

open Transition CounterNetwork List Function

namespace GCounter

variable {g : GCounter}

theorem get_increment : (g.increment c amount).get c' =
    if c' = c then (g.get c + amount) % UInt64.size else g.get c' := by
  split
  case isTrue heq => rw [heq]; simp [get, increment]
  case isFalse hne => simp [get, increment, AList.lookup_insert_ne hne]

theorem get_merge : (g.merge h).get c = max (g.get c) (h.get c) := by
  have hfold : ∀ (l : List (Sigma fun _ : ClientId => ℕ)) (m : AList fun _ : ClientId => ℕ),
      l.NodupKeys →
      ((l.foldl (fun m p => m.insert p.1 (max ((m.lookup p.1).getD 0) p.2)) m).lookup c).getD 0 =
        max ((m.lookup c).getD 0) ((l.dlookup c).getD 0) := by
    intro l
    induction l
    case nil => simp
    case cons p l hi =>
      intro m hl
      rw [nodupKeys_cons] at hl
      rw [foldl_cons, hi _ hl.2]
      by_cases hc : c = p.1
      case pos =>
        have hn : l.dlookup p.1 = none := dlookup_eq_none.mpr hl.1
        subst hc
        obtain ⟨k, v⟩ := p
        simp [hn]
      case neg =>
        obtain ⟨k, v⟩ := p
        rw [AList.lookup_insert_ne hc, dlookup_cons_ne l ⟨k, v⟩ hc]
  exact hfold h.counts.entries g.counts h.counts.nodupKeys

theorem value_eq : g.value = (∑ c ∈ g.counts.keys.toFinset, g.get c) % UInt64.size := by
  rw [sum_toFinset _ g.counts.keys_nodup, value, AList.keys, keys, map_map]
  congr 2
  refine map_congr_left fun s hs => ?_
  have hs : g.counts.lookup s.1 = some s.2 := AList.mem_lookup_iff.mpr hs
  simp [get, hs]

theorem get_of_not_mem (hc : c ∉ g.counts.keys.toFinset) : g.get c = 0 := by
  rw [mem_toFinset] at hc
  rw [get, AList.lookup_eq_none.mpr hc]
  rfl

end GCounter

open GCounter

-- What a client has contributed to a list of updates.
def share (amount : CounterUpdate → ℕ) (c : ClientId) (us : List CounterUpdate) : ℕ :=
  ((us.filter (·.clientId = c)).map amount).sum

section Share

variable {us : List CounterUpdate} {g : Fin n → List CounterUpdate}

theorem share_append : share amount c (us ++ us') = share amount c us + share amount c us' := by
  simp [share]

theorem share_singleton : share amount c [u] = if u.clientId = c then amount u else 0 := by
  by_cases h : u.clientId = c <;> simp [share, h]

theorem share_take_le (h : k ≤ k') : share amount c (us.take k) ≤ share amount c (us.take k') := by
  obtain ⟨t, ht⟩ := take_prefix_take_left (l := us) h
  rw [← ht, share_append]
  exact Nat.le_add_right ..

theorem share_take_max : share amount c (us.take (max k k')) =
    max (share amount c (us.take k)) (share amount c (us.take k')) := by
  obtain h | h := le_total k k'
  case inl => rw [max_eq_right h, max_eq_right (share_take_le h)]
  case inr => rw [max_eq_left h, max_eq_left (share_take_le h)]

theorem sum_share (h : ∀ u ∈ us, u.clientId ∈ T) :
    ∑ c ∈ T, share amount c us = (us.map amount).sum := by
  induction us
  case nil => simp [share]
  case cons u us hi =>
    have hu : ∀ c, share amount c (u :: us) =
        (if u.clientId = c then amount u else 0) + share amount c us := by
      intro c
      rw [← singleton_append, share_append, share_singleton]
    simp only [hu, Finset.sum_add_distrib, Finset.sum_ite_eq, h u mem_cons_self, if_true,
      hi fun v hv => h v (mem_cons_of_mem u hv), map_cons, sum_cons]

-- The updates of a client are made at its own replica.
def Owned (home : ClientId → Fin n) (g : Fin n → List CounterUpdate) : Prop :=
  ∀ i, ∀ u ∈ g i, home u.clientId = i

theorem Owned.share_eq_zero (h : Owned home g) (hi : home c ≠ i) : share amount c (g i) = 0 := by
  have hf : (g i).filter (·.clientId = c) = [] := by
    refine filter_eq_nil_iff.mpr fun u hu hc => hi ?_
    exact (of_decide_eq_true hc) ▸ h i u hu
  rw [share, hf]
  rfl

theorem share_le_total (i : Fin n) : share amount c (g i) ≤ total amount g := by
  have h₁ : share amount c (g i) ≤ ((g i).map amount).sum :=
    Sublist.sum_le_sum (filter_sublist.map amount) fun _ _ => Nat.zero_le _
  exact h₁.trans <| Finset.single_le_sum (f := fun i => ((g i).map amount).sum)
    (fun _ _ => Nat.zero_le _) (Finset.mem_univ i)

-- The counter holds what each client has contributed.
def Counts (amount : CounterUpdate → ℕ) (home : ClientId → Fin n) (g : Fin n → List CounterUpdate)
    (s : GCounter) : Prop :=
  ∀ c, s.get c = share amount c (g (home c))

theorem Counts.sum_eq (h : Counts amount home g s) (ho : Owned home g) :
    ∑ c ∈ s.counts.keys.toFinset, s.get c = total amount g := by
  let clients := s.counts.keys.toFinset ∪ Finset.univ.biUnion fun i =>
    ((g i).map (·.clientId)).toFinset
  have hclients : ∀ i, ∀ u ∈ g i, u.clientId ∈ clients := by
    intro i u hu
    refine Finset.mem_union_right _ <| Finset.mem_biUnion.mpr ⟨i, Finset.mem_univ i, ?_⟩
    exact mem_toFinset.mpr (mem_map_of_mem hu)
  calc ∑ c ∈ s.counts.keys.toFinset, s.get c
    _ = ∑ c ∈ clients, s.get c :=
      Finset.sum_subset Finset.subset_union_left fun c _ hc => get_of_not_mem hc
    _ = ∑ c ∈ clients, ∑ i, share amount c (g i) := by
      refine Finset.sum_congr rfl fun c _ => (h c).trans ?_
      exact (Finset.sum_eq_single (home c) (fun i _ hi => ho.share_eq_zero hi.symm) (by simp)).symm
    _ = ∑ i, ∑ c ∈ clients, share amount c (g i) := Finset.sum_comm
    _ = total amount g := Finset.sum_congr rfl fun i _ => sum_share (hclients i)

theorem total_mono (h : ∀ i, g i <+: g' i) : total amount g ≤ total amount g' := by
  refine Finset.sum_le_sum fun i _ => ?_
  obtain ⟨t, ht⟩ := h i
  rw [← ht, map_append, sum_append]
  exact Nat.le_add_right ..

theorem prefix_update : ∀ j, g j <+: update g i (g i ++ [u]) j := by
  intro j
  by_cases hj : j = i
  case pos => subst hj; simp
  case neg => simp [hj]

theorem Counts.append (h : Counts amount home g s) (hu : home u.clientId = i)
    (hs : ∀ c, s'.get c = s.get c + if u.clientId = c then amount u else 0) :
    Counts amount home (update g i (g i ++ [u])) s' := by
  intro c
  rw [hs, h]
  by_cases hc : home c = i
  case pos => rw [hc, update_self, share_append, share_singleton]
  case neg =>
    have hne : u.clientId ≠ c := fun he => hc (he ▸ hu)
    rw [update_of_ne hc, if_neg hne, Nat.add_zero]

-- As long as all amounts together fit, no count overflows.
theorem Counts.increment (h : Counts amount home g s) (hu : home u.clientId = i)
    (ht : total amount (update g i (g i ++ [u])) < i64Bound) :
    Counts amount home (update g i (g i ++ [u])) (s.increment u.clientId (amount u)) := by
  have hfit : s.get u.clientId + amount u < UInt64.size := by
    have hle : share amount u.clientId (update g i (g i ++ [u]) i) ≤ _ := share_le_total i
    rw [update_self, share_append, share_singleton, if_pos rfl, ← hu, ← h] at hle
    exact (hle.trans_lt (hu ▸ ht)).trans (by decide)
  refine h.append hu fun c => ?_
  rw [get_increment]
  by_cases hc : c = u.clientId
  case pos => rw [if_pos hc, if_pos hc.symm, hc, Nat.mod_eq_of_lt hfit]
  case neg => rw [if_neg hc, if_neg (Ne.symm hc), Nat.add_zero]

theorem Counts.merge {h : Fin n → List CounterUpdate} {k k' : Fin n → ℕ}
    (hs : Counts amount home (fun j => (h j).take (k j)) s)
    (hs' : Counts amount home (fun j => (h j).take (k' j)) s') :
    Counts amount home (fun j => (h j).take (max (k j) (k' j))) (s.merge s') := by
  intro c
  rw [get_merge, hs c, hs' c, ← share_take_max]

theorem Counts.value_eq (h : Counts amount home g s) (ho : Owned home g)
    (ht : total amount g < i64Bound) : s.value = total amount g := by
  rw [GCounter.value_eq, h.sum_eq ho]
  exact Nat.mod_eq_of_lt (ht.trans (by decide))

end Share

-- The state of a replica that includes the updates `g`.
structure CounterView {n : ℕ} (home : ClientId → Fin n) (g : Fin n → List CounterUpdate)
    (p : PNCounter) : Prop where
  owned : Owned home g
  positive : total (·.added) g < i64Bound → Counts (·.added) home g p.positive
  negative : total (·.removed) g < i64Bound → Counts (·.removed) home g p.negative

theorem counterView {home : ClientId → Fin n} :
    Gossip.View CounterUpdate.apply PNCounter.merge {} (fun i u => home u.clientId = i)
      (CounterView home) where
  init := ⟨by simp [Owned], fun _ _ => rfl, fun _ _ => rfl⟩
  update {g p i u} hu v := by
    refine ⟨fun j w hw => ?_, fun ht => ?_, fun ht => ?_⟩
    · by_cases hj : j = i
      case neg => exact v.owned j w (by simpa [hj] using hw)
      subst hj
      rw [update_self] at hw
      obtain hw | hw := mem_append.mp hw
      case inl => exact v.owned j w hw
      case inr => exact mem_singleton.mp hw ▸ hu
    all_goals have hv := (total_mono (g := g) prefix_update).trans_lt ht
    case refine_2 =>
      cases u
      case increment => exact (v.positive hv).increment hu ht
      case decrement => exact (v.positive hv).append hu fun c => (ite_self 0).symm ▸ rfl
    case refine_3 =>
      cases u
      case decrement => exact (v.negative hv).increment hu ht
      case increment => exact (v.negative hv).append hu fun c => (ite_self 0).symm ▸ rfl
  merge {h k k' p p'} v v' := by
    have hk : ∀ i, (h i).take (k i) <+: (h i).take (max (k i) (k' i)) :=
      fun i => take_prefix_take_left (le_max_left ..)
    have hk' : ∀ i, (h i).take (k' i) <+: (h i).take (max (k i) (k' i)) :=
      fun i => take_prefix_take_left (le_max_right ..)
    refine ⟨fun i u hu => ?_, fun ht => ?_, fun ht => ?_⟩
    · obtain hmax | hmax := max_choice (k i) (k' i) <;> rw [hmax] at hu
      case inl => exact v.owned i u hu
      case inr => exact v'.owned i u hu
    · exact (v.positive <| (total_mono hk).trans_lt ht).merge
        (v'.positive <| (total_mono hk').trans_lt ht)
    · exact (v.negative <| (total_mono hk).trans_lt ht).merge
        (v'.negative <| (total_mono hk').trans_lt ht)

theorem bmod_size (h₁ : -(i64Bound : ℤ) ≤ z) (h₂ : z < i64Bound) : Int.bmod z UInt64.size = z := by
  have hs : UInt64.size = 2 * i64Bound := by decide
  exact Int.bmod_eq_of_le (by omega) (by omega)

theorem bmod_sub_bmod (ha : a < i64Bound) (hb : b < i64Bound) :
    Int.bmod (Int.bmod a UInt64.size - Int.bmod b UInt64.size) UInt64.size = a - b := by
  rw [bmod_size (z := a) (by omega) (by omega), bmod_size (z := b) (by omega) (by omega),
    bmod_size (by omega) (by omega)]

theorem CounterView.value_eq {g : Fin n → List CounterUpdate} (v : CounterView home g p)
    (hp : total (·.added) g < i64Bound) (hn : total (·.removed) g < i64Bound) :
    p.value = total (·.added) g - total (·.removed) g := by
  have h₁ := (v.positive hp).value_eq v.owned hp
  have h₂ := (v.negative hn).value_eq v.owned hn
  have h₃ := bmod_sub_bmod hp hn
  rw [← h₁, ← h₂] at h₃ ⊢
  exact h₃

-- At any time, the value of a replica counts each of the updates that it knows of once, and those
-- are all updates if it has merged, directly or through others, the latest states of all replicas.
theorem counter_gossip {n : ℕ} {home : ClientId → Fin n} {c : CounterNetwork n}
    (h : Reaches step (Local home) (init n) c)
    (hp : total (·.added) c.histories < i64Bound) (hn : total (·.removed) c.histories < i64Bound) :
    (∀ i, (∀ j, (c.nodes i).known j ≤ (c.histories j).length) ∧
      (c.nodes i).state.value = total (·.added) ((c.nodes i).included c.histories) -
        total (·.removed) ((c.nodes i).included c.histories)) ∧
    (∀ i, (∀ j, (c.nodes i).known j = (c.histories j).length) →
      (c.nodes i).state.value = total (·.added) c.histories - total (·.removed) c.histories) ∧
    (∀ a b : GCounter, ∀ client, (a.merge b).get client = (b.merge a).get client) ∧
    (∀ a b c : GCounter, ∀ client,
      ((a.merge b).merge c).get client = (a.merge (b.merge c)).get client) ∧
    ∀ a : GCounter, ∀ client, (a.merge a).get client = a.get client := by
  have s : Gossip.Sound (CounterView home) c := counterView.sound h
  have hle : ∀ (amount : CounterUpdate → ℕ) i,
      total amount ((c.nodes i).included c.histories) ≤ total amount c.histories :=
    fun amount i => total_mono fun j => take_prefix ..
  have hv : ∀ i, (c.nodes i).state.value = total (·.added) ((c.nodes i).included c.histories) -
      total (·.removed) ((c.nodes i).included c.histories) :=
    fun i => (s.nodes i).view.value_eq ((hle _ i).trans_lt hp) ((hle _ i).trans_lt hn)
  refine ⟨fun i => ⟨(s.nodes i).known, hv i⟩, fun i hi => ?_, ?_, ?_, ?_⟩
  · have hall : (c.nodes i).included c.histories = c.histories :=
      funext fun j => take_of_length_le (hi j).ge
    rw [hv i, hall]
  · exact fun a b client => by rw [get_merge, get_merge, max_comm]
  · exact fun a b c client => by simp only [get_merge, max_assoc]
  · exact fun a client => by rw [get_merge, max_self]

-- Two replicas gossip; a message arrives late and twice.
theorem counter_gossip_two : ∃ c, Reaches step (Local fun k => if k = 1 then 0 else 1)
        (init 2) c ∧
      (c.nodes 0).state.value = 4 ∧ (c.nodes 1).state.value = 4 := by
  have ⟨c, r, hp, hn, h₀, h₁, ht⟩ : ∃ c, Reaches step
      (Local fun k => if k = 1 then 0 else 1) (init 2) c ∧
      total (·.added) c.histories < i64Bound ∧ total (·.removed) c.histories < i64Bound ∧
      (∀ j, (c.nodes 0).known j = (c.histories j).length) ∧
      (∀ j, (c.nodes 1).known j = (c.histories j).length) ∧
      (total (·.added) c.histories : ℤ) - total (·.removed) c.histories = 4 :=
    Reaches.exists_of_run [
      .update 0 (.increment 1 5), .send 0, .update 0 (.increment 1 2), .update 1 (.decrement 2 3),
      .send 0, .receive 1 1, .receive 1 0, .receive 1 0, .send 1, .receive 0 2] (by decide +kernel)
  have h := (counter_gossip r hp hn).2.1
  exact ⟨c, r, (h 0 h₀).trans ht, (h 1 h₁).trans ht⟩

end Crdt
