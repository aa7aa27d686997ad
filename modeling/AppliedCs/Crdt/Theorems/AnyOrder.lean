import AppliedCs.Crdt.Theorems.Convergence

namespace Crdt

open Sequence Delivery Transition Document Operation Network List

variable {ops ops₁ ops₂ : List Operation} {op p : Operation} {known : List PositionId}
  {id : PositionId} {l : Items} {e : Edit PositionId Char} {home : ClientId → ReplicaId}
  {n : Network}

-- The deliveries that come after the element they refer to, which in turn counts as introduced only
-- by such a delivery. This is a property of the order alone.
def inTime (known : List PositionId) : List Operation → List Operation
  | [] => []
  | op :: ops =>
    if ∀ id ∈ op.reference, id ∈ known then op :: inTime (op.inserted.toList ++ known) ops
    else inTime known ops

-- The elements that the operations can bring into a document in some order.
inductive Attached (ops : List Operation) : PositionId → Prop
  | root : Attached ops .root
  | insert {id after value attributes} : .insert id after value attributes ∈ ops →
      Attached ops after → Attached ops id

-- Every operation whose element can be there comes in time at least once. A deletion may be
-- replaced by another one of the same element.
def Timely (ops : List Operation) : Prop :=
  ∀ op ∈ ops, (∀ id ∈ op.reference, Attached ops id) → ∃ p ∈ inTime [.root] ops, p.edit = op.edit

-- The document shows the effect of the operation.
def Document.Shows (d : Document) : Operation → Prop
  | .insert id _ _ _ => id ∈ d.elements
  | .delete id _ => ∃ e, d.elements.lookup id = some e ∧ e.deleted
  | .format .. => True

-- No operation is lost whose element can be there.
def KeepsAll (documentId : DocumentId) (ops : List Operation) : Prop :=
  ∀ op ∈ ops, (∀ id ∈ op.reference, Attached ops id) → (deliver documentId ops).Shows op

theorem inTime_subset (h : op ∈ inTime known ops) : op ∈ ops := by
  induction ops generalizing known
  case nil => exact h
  case cons op' ops hi =>
    rw [inTime] at h
    split at h
    case isFalse => exact mem_cons_of_mem _ (hi h)
    case isTrue =>
      obtain rfl | h := mem_cons.mp h
      case inl => exact mem_cons_self
      case inr => exact mem_cons_of_mem _ (hi h)

theorem attached_of_inTime (hs : ∀ op ∈ ops, op ∈ ops₁) (hk : ∀ id ∈ known, Attached ops₁ id)
    (h : op ∈ inTime known ops) : ∀ id ∈ op.reference, Attached ops₁ id := by
  induction ops generalizing known
  case nil => exact absurd h not_mem_nil
  case cons op' ops hi =>
    have hs' : ∀ op ∈ ops, op ∈ ops₁ := fun op h => hs op (mem_cons_of_mem _ h)
    rw [inTime] at h
    split at h
    case isFalse => exact hi hs' hk h
    case isTrue hr =>
      obtain rfl | h := mem_cons.mp h
      case inl => exact fun id hid => hk id (hr id hid)
      case inr =>
        refine hi hs' (fun id hid => ?_) h
        obtain hid | hid := mem_append.mp hid
        case inr => exact hk id hid
        case inl =>
          cases op' <;> simp only [inserted, Option.toList, mem_cons, not_mem_nil, or_false] at hid
          subst hid
          exact .insert (hs _ mem_cons_self) (hk _ <| hr _ rfl)

section

variable (h : ∀ id, id ∈ known ↔ id ∈ ids l)

include h

theorem Operation.ready_iff
    (he : op.edit = some e) : (∀ id ∈ op.reference, id ∈ known) ↔ Ready l e := by
  cases op <;> cases he <;> simp [reference, Ready, h]

theorem Operation.known_iff (he : op.edit = some e) (hr : Ready l e) (id : PositionId) :
    id ∈ op.inserted.toList ++ known ↔ id ∈ ids (act l e) := by
  cases op <;> cases he
  case delete id' _ => simp [inserted, act, h]
  case insert id' after value _ =>
    rw [inserted, Option.toList, singleton_append, mem_cons, h]
    refine ⟨fun hk => hk.elim (fun hk => ?_) ids_subset_act, mem_ids_of_act_insert⟩
    exact hk ▸ hr.done

-- On the items, the deliveries in time are the ones that are taken.
theorem filterMap_inTime :
    (inTime known ops).filterMap (·.edit) = taken act Ready l (ops.filterMap (·.edit)) := by
  induction ops generalizing known l
  case nil => rfl
  case cons op ops hi =>
    rw [inTime]
    cases he : op.edit
    case none =>
      have hop : op.reference = none ∧ op.inserted = none := by
        cases op <;> simp_all [edit, reference, inserted]
      simpa [hop, he] using hi h
    case some e =>
      simp only [ready_iff h he, filterMap_cons_some he, taken]
      split
      case isFalse => exact hi h
      case isTrue hr =>
        rw [filterMap_cons_some he, hi (known_iff h he hr)]

end

def editsInTime (ops : List Operation) : List (Edit PositionId Char) :=
  (inTime [.root] ops).filterMap (·.edit)

theorem editsInTime_eq :
    editsInTime ops = taken act Ready [⟨.root, nul, false⟩] (ops.filterMap (·.edit)) :=
  filterMap_inTime fun _ => Iff.rfl

theorem foldl_editsInTime (ops : List Operation) :
    (editsInTime ops).foldl act [⟨.root, nul, false⟩] = items ops := by
  rw [editsInTime_eq]
  exact foldl_taken fun _ _ => act_of_not_ready

theorem enabled_editsInTime : Enabled act Ready [⟨.root, nul, false⟩] (editsInTime ops) := by
  rw [editsInTime_eq]
  exact enabled_taken

theorem Attached.mono (hs : ∀ op ∈ ops₁, op ∈ ops₂) (h : Attached ops₁ id) : Attached ops₂ id := by
  induction h
  case root => exact .root
  case insert h _ hi => exact .insert (hs _ h) hi

theorem Timely.mem_editsInTime (hs : ∀ op ∈ ops₁, op ∈ ops₂)
    (h : Timely ops₂) (he : e ∈ editsInTime ops₁) : e ∈ editsInTime ops₂ := by
  obtain ⟨op, hop, he⟩ := mem_filterMap.mp he
  have ha := attached_of_inTime (fun _ => id) (by simp [Attached.root]) hop
  obtain ⟨p, hp, hpe⟩ := h op (hs op <| inTime_subset hop) fun k hk => (ha k hk).mono hs
  exact mem_filterMap.mpr ⟨p, hp, hpe.trans he⟩

theorem Document.Represents.shows_iff {d : Document}
    (r : d.Represents l) (he : op.edit = some e) : d.Shows op ↔ Done l e := by
  cases op <;> cases he
  case insert => exact r.elements.keys _
  case delete id _ =>
    refine ⟨fun ⟨e, he, hd⟩ => ⟨?_, fun x hx hid => ?_⟩, fun ⟨hid, hd⟩ => ?_⟩
    · exact (r.elements.keys id).mp <| AList.lookup_isSome.mp <| he ▸ rfl
    · obtain ⟨e', he', rfl⟩ := r.elements.lookup hx
      cases he.symm.trans (hid ▸ he')
      exact hd
    · obtain ⟨x, hx, rfl⟩ := mem_map.mp hid
      obtain ⟨e, he, rfl⟩ := r.elements.lookup hx
      exact ⟨e, he, hd _ hx rfl⟩

-- An edit shows in the end exactly if it was delivered in time.
theorem Network.Inv.done_iff
    (i : n.Inv home) (hg : ∀ op ∈ ops, op ∈ n.operations) (hop : op ∈ ops) (he : op.edit = some e) :
    Done (items ops) e ↔ e ∈ editsInTime ops := by
  have hd := i.distinct_edits hg
  rw [editsInTime_eq]
  refine ⟨fun h => ?_, (commuting hd).done_of_mem_taken fun _ _ => act_of_not_ready⟩
  refine (mem_taken_of_done (fun _ _ => act_of_not_ready)
    (fun _ p hp hr => Done.of_act hd hp ⟨op, hop, he⟩ hr)
    (fun _ => mem_filterMap.mp) h).resolve_left ?_
  -- In the beginning there is the root only, which is not deleted and not inserted.
  intro h₀
  cases op <;> cases he
  case insert id after value attributes =>
    have hid : id = .root := mem_singleton.mp h₀
    obtain ⟨_, ⟨⟩, hpos⟩ := i.stamped _ (hg _ hop)
    exact absurd hpos (hid ▸ Nat.lt_irrefl 0)
  case delete id deletedBy =>
    have hid : id = .root := mem_singleton.mp h₀.1
    exact Bool.false_ne_true <| h₀.2 _ mem_cons_self hid.symm

theorem Network.Inv.keepsAll_iff (i : n.Inv home) (hg : ∀ op ∈ ops, op ∈ n.operations) :
    KeepsAll documentId ops ↔ Timely ops := by
  refine forall₂_congr fun op hop => forall_congr' fun ha => ?_
  cases he : op.edit
  case none =>
    obtain ⟨_, hs, -⟩ := i.stamped op (hg op hop)
    cases op <;> cases he
    cases hs
  case some e =>
    rw [Represents.deliver.shows_iff he, i.done_iff hg hop he]
    exact mem_filterMap

-- Deliveries of the same operations in two orders give the same text and lose no operation exactly
-- if, in both orders, every operation whose element can be there comes after it.
theorem any_order_iff {home : ClientId → ReplicaId} {documentId : DocumentId} {n : Network}
    (h : Reaches (step home) anyEvent (init documentId) n)
    (hg : ∀ op ∈ ops₁, op ∈ n.operations) (hm : ∀ op, op ∈ ops₁ ↔ op ∈ ops₂) :
    ((deliver documentId ops₁).text = (deliver documentId ops₂).text ∧
      KeepsAll documentId ops₁ ∧ KeepsAll documentId ops₂) ↔ Timely ops₁ ∧ Timely ops₂ := by
  have i : n.Inv home := h.invariant Inv.init fun i _ => i.step
  have hg₂ : ∀ op ∈ ops₂, op ∈ n.operations := fun op hop => hg op ((hm op).mpr hop)
  rw [i.keepsAll_iff hg, i.keepsAll_iff hg₂]
  refine and_iff_right_of_imp fun ⟨h₁, h₂⟩ => ?_
  have hitems : items ops₁ = items ops₂ := by
    rw [← foldl_editsInTime ops₁, ← foldl_editsInTime ops₂]
    refine (commuting (i.distinct_edits hg)).foldl_eq (fun e he => ?_) (fun e => ?_)
      enabled_editsInTime enabled_editsInTime
    · obtain ⟨op, hop, he⟩ := mem_filterMap.mp he
      exact ⟨op, inTime_subset hop, he⟩
    · exact ⟨h₂.mem_editsInTime fun op => (hm op).mp, h₁.mem_editsInTime fun op => (hm op).mpr⟩
  have r₁ : (deliver documentId ops₁).Represents (items ops₁) := .deliver
  have r₂ : (deliver documentId ops₂).Represents (items ops₁) := hitems ▸ .deliver
  exact r₁.text_eq.trans r₂.text_eq.symm

-- A character, one behind it, and the deletion of the first.
def typedEdits : List Operation := [
  .insert ⟨1, 1, 1⟩ .root 'a' ∅,
  .insert ⟨2, 1, 2⟩ ⟨1, 1, 1⟩ 'b' ∅,
  .delete ⟨1, 1, 1⟩ ⟨3, 1, 3⟩]

theorem typedEdits_generated : ∃ n, Reaches (step fun c => c) anyEvent (init 0) n ∧
      ∀ op ∈ typedEdits, op ∈ n.operations :=
  Reaches.exists_of_run [
    .insert 1 .root 'a' ∅, .insert 1 ⟨1, 1, 1⟩ 'b' ∅, .delete 1 ⟨1, 1, 1⟩] (by decide +kernel)

-- Delivered backwards, the second character and the deletion are lost.
theorem reversed_edits_diverge : (∃ n, Reaches (step fun c => c) anyEvent (init 0) n ∧
      ∀ op ∈ typedEdits, op ∈ n.operations) ∧ (∀ op, op ∈ typedEdits ↔ op ∈ typedEdits.reverse) ∧
    (deliver 0 typedEdits).text = "b" ∧ (deliver 0 typedEdits.reverse).text = "a" := by
  refine ⟨typedEdits_generated, fun _ => mem_reverse.symm, ?_, ?_⟩ <;> decide +kernel

-- A deletion that comes too early and is repeated later.
theorem repeated_edits_converge : (∃ n, Reaches (step fun c => c) anyEvent (init 0) n ∧
      ∀ op ∈ typedEdits, op ∈ n.operations) ∧ (deliver 0 typedEdits).text =
      (deliver 0 (.delete ⟨1, 1, 1⟩ ⟨3, 1, 3⟩ :: typedEdits)).text := by
  obtain ⟨n, r, hg⟩ := typedEdits_generated
  have hm : ∀ op, op ∈ typedEdits ↔ op ∈ .delete ⟨1, 1, 1⟩ ⟨3, 1, 3⟩ :: typedEdits := by
    simp only [typedEdits, mem_cons, not_mem_nil]
    tauto
  have ht : ∀ {ops}, (∀ op ∈ ops, op ∈ inTime [.root] ops) → Timely ops :=
    fun h op hop _ => ⟨op, h op hop, rfl⟩
  refine ⟨⟨n, r, hg⟩, (any_order_iff r hg hm |>.mpr ⟨ht ?_, ht ?_⟩).1⟩ <;> decide +kernel

end Crdt
