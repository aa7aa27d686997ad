import AppliedCs.Crdt.Replicas
import AppliedCs.Crdt.Theorems.Document

namespace Crdt

open Sequence Document Network List Operation

theorem Operation.stamp_of_inserted {id : PositionId} (op : Operation)
    (h : op.inserted = some id) : op.stamp = some id := by
  cases op <;> simp_all [inserted, stamp]

-- The items of a document to which operations were delivered.
def items (ops : List Operation) : Items :=
  (ops.filterMap (·.edit)).foldl act [⟨.root, nul, false⟩]

variable {ops ops₁ ops₂ before : List Operation} {op : Operation} {id : PositionId} {l : Items}

theorem items_append_singleton :
    items (ops ++ [op]) = op.edit.elim (items ops) (act (items ops)) := by
  cases h : op.edit <;> simp [h, items]

theorem Document.Represents.deliver : (Document.deliver documentId ops).Represents (items ops) := by
  induction ops using reverseRecOn
  case nil => exact .new
  case append_singleton hi =>
    rw [Document.deliver, foldl_append, items_append_singleton]
    exact hi.apply _

theorem inserted_of_mem_items (h : id ∈ ids (items ops)) :
    id = .root ∨ ∃ op ∈ ops, op.inserted = some id := by
  induction ops using reverseRecOn
  case nil => exact .inl <| mem_singleton.mp h
  case append_singleton ops op hi =>
    have hi (h : id ∈ ids (items ops)) :
        id = .root ∨ ∃ p ∈ ops ++ [op], p.inserted = some id :=
      (hi h).imp_right fun ⟨p, hp, hpi⟩ => ⟨p, mem_append_left [op] hp, hpi⟩
    rw [items_append_singleton] at h
    cases op
    case format => exact hi h
    case delete =>
      rw [edit, Option.elim, act, ids_map_delete] at h
      exact hi h
    case insert id' after value attributes =>
      obtain rfl | h := mem_ids_of_act_insert h
      case inl =>
        refine .inr ⟨.insert id after value attributes, ?_, rfl⟩
        exact mem_append_right ops mem_cons_self
      case inr => exact hi h

-- What causality asks for is there: the elements of all operations that were delivered before.
theorem CausalAfter.enabled (h : CausalAfter before ops) (hr : .root ∈ ids l)
    (hb : ∀ op ∈ before, ∀ id, op.inserted = some id → id ∈ ids l) :
    Delivery.Enabled act Ready l (ops.filterMap (·.edit)) := by
  induction ops generalizing before l
  case nil => trivial
  case cons op ops hi =>
    obtain ⟨hop, h⟩ := h
    have hid : ∀ id, op.reference = some id → id ∈ ids l := by
      intro id hid
      obtain rfl | ⟨p, hp, hpi⟩ := hop id hid
      case inl => exact hr
      case inr => exact hb p hp id hpi
    -- The elements of the operations stay, and the one of `op` is added.
    have hb' {l' : Items} (hl : ∀ id ∈ ids l, id ∈ ids l')
        (ho : ∀ id, op.inserted = some id → id ∈ ids l') :
        ∀ p ∈ before ++ [op], ∀ id, p.inserted = some id → id ∈ ids l' := by
      intro p hp id hpi
      obtain hp | hp := mem_append.mp hp
      case inl => exact hl id <| hb p hp id hpi
      case inr => exact ho id <| mem_singleton.mp hp ▸ hpi
    cases op
    case format => exact hi h hr <| hb' (fun _ => id) (by simp [inserted])
    case delete id deletedBy =>
      have hready : Ready l (.delete id) := hid id rfl
      refine ⟨hready, hi h (ids_subset_act hr) <| hb' (fun _ => ids_subset_act) ?_⟩
      simp [inserted]
    case insert id after value attributes =>
      have hready : Ready l (.insert id after value) := hid after rfl
      refine ⟨hready, hi h (ids_subset_act hr) <| hb' (fun _ => ids_subset_act) ?_⟩
      rintro _ ⟨⟩
      exact hready.done

theorem items_eq (hd : Distinct {e | ∃ op ∈ ops₁, op.edit = some e})
    (hm : ∀ op, op ∈ ops₁ ↔ op ∈ ops₂) (h₁ : Causal ops₁) (h₂ : Causal ops₂) :
    items ops₁ = items ops₂ := by
  have hroot : PositionId.root ∈ ids [(⟨.root, nul, false⟩ : Item PositionId Char)] :=
    mem_singleton_self _
  refine (commuting hd).foldl_eq ?_ ?_ (h₁.enabled hroot (by simp)) (h₂.enabled hroot (by simp))
  · exact fun _ => mem_filterMap.mp
  · simp [hm]

namespace Network

variable {home : ClientId → ReplicaId} {n n' : Network}

structure Inv (home : ClientId → ReplicaId) (n : Network) : Prop where
  clock : ∀ op ∈ n.operations, ∀ stamp, op.stamp = some stamp →
                 stamp.lamport ≤ (n.replicas (home stamp.clientId)).vectorClock.get stamp.clientId
  distinct : ∀ p ∈ n.operations, ∀ q ∈ n.operations, ∀ stamp,
                 p.stamp = some stamp → q.stamp = some stamp → p = q
  stamped : ∀ op ∈ n.operations, ∃ stamp, op.stamp = some stamp ∧ 0 < stamp.lamport
  bound : ∀ replica c, (n.replicas replica).vectorClock.get c ≤ n.operations.length
  history : ∀ replica, ∀ op ∈ n.histories replica, op ∈ n.operations
  represents : ∀ replica, (n.replicas replica).Represents (items (n.histories replica))

variable {replica : ReplicaId} {d : Document} {c : ClientId}

theorem clock_le_record (op : Operation)
    (h : ∀ c, (n.replicas replica).vectorClock.get c ≤ d.vectorClock.get c) (r : ReplicaId) :
    (n.replicas r).vectorClock.get c ≤
      ((n.record replica d op).replicas r).vectorClock.get c := by
  by_cases hr : r = replica
  case pos => simpa [record, hr] using h c
  case neg => simp [record, hr]

theorem record_clock_le {N : ℕ} (op : Operation) (h : ∀ r, (n.replicas r).vectorClock.get c ≤ N)
    (hd : d.vectorClock.get c ≤ N) (r : ReplicaId) :
    ((n.record replica d op).replicas r).vectorClock.get c ≤ N := by
  by_cases hr : r = replica
  case pos => simpa [record, hr] using hd
  case neg => simpa [record, hr] using h r

theorem mem_history_record (d : Document) (h : p ∈ (n.record replica d op).histories r) :
    p ∈ n.histories r ∨ p = op := by
  by_cases hr : r = replica
  case pos => simpa [record, hr] using h
  case neg => simpa [record, hr] using Or.inl h

theorem Inv.represents_record (i : n.Inv home)
    (h : d.Represents (op.edit.elim (items (n.histories replica))
      (act (items (n.histories replica)))))
    (r : ReplicaId) : ((n.record replica d op).replicas r).Represents
      (items ((n.record replica d op).histories r)) := by
  by_cases hr : r = replica
  case pos => simpa [record, hr, items_append_singleton] using h
  case neg => simpa [record, hr] using i.represents r

theorem Inv.init {id : DocumentId} : (init id).Inv home where
  clock _ h := absurd h not_mem_nil
  distinct _ h := absurd h not_mem_nil
  stamped _ h := absurd h not_mem_nil
  bound _ _ := le_rfl
  history _ _ h := absurd h not_mem_nil
  represents _ := .new

variable (i : n.Inv home)

include i

-- A client's time never exceeds the number of operations.
theorem Inv.stamp_le {stamp : PositionId} (h : op ∈ n.operations)
    (hs : op.stamp = some stamp) : stamp.lamport ≤ n.operations.length :=
  (i.clock op h stamp hs).trans (i.bound ..)

theorem Inv.deliver (h : op ∈ n.operations) :
    (n.record replica ((n.replicas replica).apply op) op).Inv home where
  clock p hp stamp hs :=
    (i.clock p hp stamp hs).trans <| clock_le_record op (fun _ => (get_apply ..).1) _
  distinct := i.distinct
  stamped := i.stamped
  bound r c := by
    refine record_clock_le op (i.bound · c) ?_ r
    obtain hc | ⟨stamp, hs, hc⟩ := (get_apply (n.replicas replica) op c).2
    case inl => exact hc ▸ i.bound replica c
    case inr => exact hc ▸ i.stamp_le h hs
  history _ p hp := (mem_history_record _ hp).elim (i.history _ p) (· ▸ h)
  represents := i.represents_record <| (i.represents replica).apply op

theorem Inv.generate (g : (n.replicas (home c)).Generates c d op) :
    (n.generate (home c) d op).Inv home := by
  obtain ⟨stamp, hs, rfl, hl⟩ := g.stamp
  have hfresh : ∀ p ∈ n.operations, p.stamp ≠ some stamp := by
    intro p hp hps
    exact Nat.not_succ_le_self _ <| hl ▸ i.clock p hp stamp hps
  -- The new position is not in use on the replica itself.
  have hnew : ∀ s, op.stamp = some s → s ∉ (n.replicas (home stamp.clientId)).elements := by
    intro s hs' hmem
    cases hs.symm.trans hs'
    have hmem := ((i.represents _).elements.keys stamp).mp hmem
    obtain rfl | ⟨p, hp, hpi⟩ := inserted_of_mem_items hmem
    case inl => exact absurd hl (Nat.succ_ne_zero _).symm
    case inr => exact hfresh p (i.history _ p hp) (p.stamp_of_inserted hpi)
  refine ⟨?clock, ?distinct, ?stamped, ?bound, ?history,
    i.represents_record (g.represents (i.represents _) hnew)⟩
  case clock =>
    intro p hp s hps
    obtain hp | hp := mem_append.mp hp
    case inl => exact (i.clock p hp s hps).trans (clock_le_record op (fun c => (g.clock c).1) _)
    case inr =>
      cases mem_singleton.mp hp
      cases hs.symm.trans hps
      simp [generate, record, g.own, hl]
  case distinct =>
    intro p hp q hq s hps hqs
    obtain hp | hp := mem_append.mp hp <;> obtain hq | hq := mem_append.mp hq
    case inl.inl => exact i.distinct p hp q hq s hps hqs
    case inl.inr =>
      cases mem_singleton.mp hq
      exact absurd (hps.trans <| hqs.symm.trans hs) (hfresh p hp)
    case inr.inl =>
      cases mem_singleton.mp hp
      exact absurd (hqs.trans <| hps.symm.trans hs) (hfresh q hq)
    case inr.inr => exact (mem_singleton.mp hp).trans (mem_singleton.mp hq).symm
  case stamped =>
    intro p hp
    obtain hp | hp := mem_append.mp hp
    case inl => exact i.stamped p hp
    case inr => exact ⟨stamp, mem_singleton.mp hp ▸ hs, hl ▸ Nat.succ_pos _⟩
  case bound =>
    intro r c
    have hlen : (n.generate (home stamp.clientId) d op).operations.length =
        n.operations.length + 1 :=
      length_append
    rw [hlen]
    exact record_clock_le op (fun r => (i.bound r c).trans (Nat.le_succ _))
      ((g.clock c).2.trans <| Nat.succ_le_succ <| i.bound _ c) r
  case history =>
    intro r p hp
    obtain hp | rfl := mem_history_record d hp
    case inl => exact mem_append_left _ (i.history r p hp)
    case inr => exact mem_append_right _ mem_cons_self

theorem Inv.step (h : n.step home e = some n') : n'.Inv home := by
  cases e <;> simp only [Network.step] at h
  case insert clientId after value attributes =>
    split at h
    case isFalse => cases h
    case isTrue hn =>
      cases h
      exact i.generate (generates_insert hn)
  case delete clientId id =>
    split at h
    case isFalse => cases h
    case isTrue hn =>
      split at h
      case h_2 => cases h
      case h_1 hd =>
        cases h
        exact i.generate (generates_delete hn hd)
  case deliver replica op =>
    split at h
    case isTrue hop =>
      cases h
      exact i.deliver hop
    case isFalse => cases h

theorem Inv.distinct_edits (h : ∀ op ∈ ops, op ∈ n.operations) :
    Distinct {e | ∃ op ∈ ops, op.edit = some e} := by
  rintro id after value after' value' ⟨p, hp, hpe⟩ ⟨q, hq, hqe⟩
  have hstamp : ∀ {op : Operation} {after value}, op.edit = some (.insert id after value) →
      op.stamp = some id := by
    intro op _ _ hop
    cases op <;> simp_all [edit, stamp]
  cases i.distinct p (h p hp) q (h q hq) id (hstamp hpe) (hstamp hqe)
  cases hpe.symm.trans hqe
  exact ⟨rfl, rfl⟩

end Network

open Transition

-- Documents to which the same operations were delivered agree, whatever the two orders are and
-- however often an operation came, as long as each order is causal. A replica of the network agrees
-- with them too, although it has applied the operations of its own clients by generating them.
theorem delivery_converges {home : ClientId → ReplicaId} {documentId : DocumentId} {n : Network}
    (h : Reaches (step home) anyEvent (init documentId) n)
    (hg : ∀ op ∈ ops₁, op ∈ n.operations) (hm : ∀ op, op ∈ ops₁ ↔ op ∈ ops₂)
    (h₁ : Causal ops₁) (h₂ : Causal ops₂) :
    (deliver documentId ops₁).text = (deliver documentId ops₂).text ∧
    (deliver documentId ops₁).order = (deliver documentId ops₂).order ∧
    (∀ id, id ∈ (deliver documentId ops₁).order ↔ id ∈ (deliver documentId ops₁).elements) ∧
    ∀ replica, (∀ op, op ∈ ops₁ ↔ op ∈ n.histories replica) → Causal (n.histories replica) →
      (n.replicas replica).text = (deliver documentId ops₁).text ∧
      (n.replicas replica).order = (deliver documentId ops₁).order := by
  have i : n.Inv home := h.invariant Inv.init fun i _ => i.step
  have hd := i.distinct_edits hg
  have r₁ : (deliver documentId ops₁).Represents (items ops₁) := .deliver
  have r₂ : (deliver documentId ops₂).Represents (items ops₁) :=
    items_eq hd hm h₁ h₂ ▸ .deliver
  refine ⟨r₁.text_eq.trans r₂.text_eq.symm, r₁.order_eq.trans r₂.order_eq.symm, ?_, ?_⟩
  · exact fun id => r₁.order_eq ▸ (r₁.elements.keys id).symm
  · intro replica hr hc
    have r : (n.replicas replica).Represents (items ops₁) :=
      items_eq hd hr h₁ hc ▸ i.represents replica
    exact ⟨r.text_eq.trans r₁.text_eq.symm, r.order_eq.trans r₁.order_eq.symm⟩

-- Two clients add a character behind the same one, which one of them then deletes.
def sharedEdits : List Operation := [
  .insert ⟨1, 1, 1⟩ .root 'a' ∅,
  .insert ⟨1, 2, 1⟩ ⟨1, 1, 1⟩ 'b' ∅,
  .insert ⟨2, 1, 2⟩ ⟨1, 1, 1⟩ 'c' ∅,
  .delete ⟨1, 1, 1⟩ ⟨2, 2, 2⟩]

def reordered : List Operation := [
  .insert ⟨1, 1, 1⟩ .root 'a' ∅,
  .delete ⟨1, 1, 1⟩ ⟨2, 2, 2⟩,
  .insert ⟨2, 1, 2⟩ ⟨1, 1, 1⟩ 'c' ∅,
  .insert ⟨1, 1, 1⟩ .root 'a' ∅,
  .insert ⟨1, 2, 1⟩ ⟨1, 1, 1⟩ 'b' ∅,
  .insert ⟨2, 1, 2⟩ ⟨1, 1, 1⟩ 'c' ∅]

theorem concurrent_edits_converge : (∃ n, Reaches (step fun c => c) anyEvent (init 0) n ∧
      ∀ op ∈ sharedEdits, op ∈ n.operations) ∧
    (deliver 0 sharedEdits).text = (deliver 0 reordered).text ∧ (deliver 0 sharedEdits).order =
      [.root, ⟨1, 1, 1⟩, ⟨1, 2, 1⟩, ⟨2, 1, 2⟩] := by
  have ⟨n, r, hg⟩ : ∃ n, Reaches (step fun c => c) anyEvent (init 0) n ∧
      ∀ op ∈ sharedEdits, op ∈ n.operations :=
    Reaches.exists_of_run [
      .insert 1 .root 'a' ∅,
      .deliver 2 (.insert ⟨1, 1, 1⟩ .root 'a' ∅),
      .insert 2 ⟨1, 1, 1⟩ 'b' ∅,
      .insert 1 ⟨1, 1, 1⟩ 'c' ∅,
      .delete 2 ⟨1, 1, 1⟩] (by decide +kernel)
  have hm : ∀ op, op ∈ sharedEdits ↔ op ∈ reordered := by
    simp only [sharedEdits, reordered, mem_cons, not_mem_nil]
    tauto
  have h := delivery_converges r hg hm (by decide +kernel) (by decide +kernel)
  exact ⟨⟨n, r, hg⟩, h.1, by decide +kernel⟩

end Crdt
