import AppliedCs.Crdt.Document
import AppliedCs.Lib.LinkedList
import AppliedCs.Lib.Sequence

namespace Crdt

open Sequence LinkedList VectorClock AList List

abbrev Items := List (Item PositionId Char)

def Element.item (e : Element) : Item PositionId Char :=
  ⟨e.id, e.value, e.deleted⟩

def Element.cell (e : Element) : Cell PositionId (Item PositionId Char) :=
  ⟨e.item, e.left, e.right⟩

namespace Elements

variable {els : Elements} {id : PositionId} {l : Items} {left : Option PositionId}

def heap (els : Elements) : Heap PositionId (Item PositionId Char) :=
  fun id => (els.lookup id).map (·.cell)

theorem right_eq_heap : els.right id = (els.heap id).bind (·.right) := by
  rw [right, heap]
  cases els.lookup id <;> rfl

theorem lookup_update_self : (els.update id f).lookup id = (els.lookup id).map f := by
  rw [update]
  split
  case h_1 h => rw [lookup_insert, h]; rfl
  case h_2 h => rw [h]; rfl

theorem lookup_update_of_ne (h : id' ≠ id) : (els.update id f).lookup id' = els.lookup id' := by
  rw [update]
  split
  · exact lookup_insert_ne h
  · rfl

theorem heap_update_self (h : ∀ e, (f e).cell = g e.cell) :
    (els.update id f).heap id = (els.heap id).map g := by
  rw [heap, heap, lookup_update_self, Option.map_map, Option.map_map]
  exact congrArg (Option.map · _) (funext h)

theorem heap_update_of_ne (h : id' ≠ id) : (els.update id f).heap id' = els.heap id' := by
  rw [heap, heap, lookup_update_of_ne h]

theorem heap_insert_self : heap (els.insert id e) id = some e.cell := by
  rw [heap, lookup_insert]
  rfl

theorem heap_insert_of_ne (h : id' ≠ id) : heap (els.insert id e) id' = els.heap id' := by
  rw [heap, heap, lookup_insert_ne h]

@[simp]
theorem mem_update : id' ∈ els.update id f ↔ id' ∈ els := by
  rw [← lookup_isSome, ← lookup_isSome]
  by_cases h : id' = id
  case pos => rw [h, lookup_update_self, Option.isSome_map]
  case neg => rw [lookup_update_of_ne h]

-- The elements form a list with the items `l`.
structure Represents (els : Elements) (l : Items) : Prop where
  nodup : (ids l).Nodup
  keys : ∀ id, id ∈ els ↔ id ∈ ids l
  linked : Linked els.heap (·.id) none l

theorem Represents.length_keys (r : Represents els l) : els.keys.length = l.length := by
  have hp : els.keys.Perm (ids l) := by
    refine (perm_ext_iff_of_nodup els.keys_nodup r.nodup).mpr fun id => ?_
    rw [← r.keys, AList.mem_keys]
  rw [hp.length_eq, ids, length_map]

theorem Represents.lookup (r : Represents els l) (hx : x ∈ l) :
    ∃ e, els.lookup x.id = some e ∧ e.item = x := by
  obtain ⟨l₁, l₂, rfl⟩ := append_of_mem hx
  obtain ⟨e, he, hc⟩ := Option.map_eq_some_iff.mp r.linked.heap_eq
  exact ⟨e, he, congrArg Cell.value hc⟩

theorem Represents.of_lookup (r : Represents els l) (h : els.lookup id = some e) :
    e.id = id ∧ e.item ∈ l := by
  have hid := (r.keys id).mp <| lookup_isSome.mp <| h ▸ rfl
  obtain ⟨x, hx, rfl⟩ := mem_map.mp hid
  obtain ⟨_, he, rfl⟩ := r.lookup hx
  cases h.symm.trans he
  exact ⟨rfl, hx⟩

theorem represents_new : Represents (new .root) [⟨.root, nul, false⟩] where
  nodup := nodup_singleton _
  keys _ := by rw [new, mem_insert]; simp [ids]
  linked := ⟨heap_insert_self, trivial⟩

section Insert

-- Behind the item of `current`, the loop finds the place where an item is inserted.
theorem insertionPoint_spec (h : Linked els.heap (·.id) left (y :: l)) (hn : l.length ≤ n) :
    ∃ l₁ z l₂, y :: l = l₁ ++ z :: l₂ ∧ y :: insertBelow x l = l₁ ++ z :: x :: l₂ ∧
      els.insertionPoint x.id n y.id = z.id := by
  induction l generalizing left n y
  case nil =>
    refine ⟨[], y, [], rfl, rfl, ?_⟩
    cases n
    case zero => rfl
    case succ => rw [insertionPoint, right_eq_heap, h.1]; rfl
  case cons z l hi =>
    cases n
    case zero => exact absurd hn (Nat.not_succ_le_zero _)
    case succ n =>
      have hr : els.right y.id = some z.id := by rw [right_eq_heap, h.1]; rfl
      rw [insertBelow, insertionPoint, hr]
      simp only [PositionId.cmp_eq_gt_iff]
      split
      case isTrue => exact ⟨[], y, z :: l, rfl, rfl, rfl⟩
      case isFalse =>
        obtain ⟨l₁, w, l₂, h₁, h₂, h₃⟩ := hi h.2 (Nat.le_of_succ_le_succ hn)
        exact ⟨y :: l₁, w, l₂, congrArg _ h₁, congrArg _ h₂, h₃⟩

theorem insertionPoint_insertAfter (h : Linked els.heap (·.id) left l) (hi : id ∈ ids l)
    (hn : l.length ≤ n) : ∃ l₁ z l₂, l = l₁ ++ z :: l₂ ∧ insertAfter id x l = l₁ ++ z :: x :: l₂ ∧
      els.insertionPoint x.id n id = z.id := by
  induction l generalizing left
  case nil => exact absurd hi not_mem_nil
  case cons y l hi' =>
    have hn : l.length ≤ n := Nat.le_of_succ_le hn
    rw [insertAfter]
    split
    case isTrue hy => exact hy ▸ insertionPoint_spec h hn
    case isFalse hy =>
      obtain ⟨l₁, z, l₂, h₁, h₂, h₃⟩ := hi' h.2 ((mem_cons.mp hi).resolve_left (Ne.symm hy)) hn
      exact ⟨y :: l₁, z, l₂, congrArg _ h₁, congrArg _ h₂, h₃⟩

variable {l₂ : Items}

theorem heap_splice_self : (els.splice e id).heap e.id = some ⟨e.item, some id, els.right id⟩ :=
  heap_insert_self

theorem heap_splice_of_ne (h : id' ≠ e.id) (hr : els.right id ≠ some id') :
    (els.splice e id).heap id' = (els.update id ({ · with right := some e.id })).heap id' := by
  refine (heap_insert_of_ne h).trans ?_
  split
  case h_1 right hr' => exact heap_update_of_ne fun h => hr (h ▸ hr')
  case h_2 => rfl

theorem heap_splice_right (h : id' ≠ e.id) (h' : id' ≠ id) (hr : els.right id = some id') :
    (els.splice e id).heap id' = (els.heap id').map fun c => { c with left := some e.id } := by
  refine (heap_insert_of_ne h).trans ?_
  simp only [hr]
  rw [heap_update_self (g := ({ · with left := some e.id })) fun _ => rfl, heap_update_of_ne h']

theorem mem_splice : id' ∈ els.splice e id ↔ id' = e.id ∨ id' ∈ els := by
  refine (mem_insert _).trans <| or_congr_right ?_
  split <;> simp only [mem_update]

theorem Represents.splice (r : Represents els (l₁ ++ z :: l₂)) (he : e.id ∉ els) :
    Represents (els.splice e z.id) (l₁ ++ z :: e.item :: l₂) := by
  have hid : e.id ∉ ids (l₁ ++ z :: l₂) := (r.keys e.id).not.mp he
  have hz : z.id ∈ ids (l₁ ++ z :: l₂) := mem_map_of_mem (by simp)
  have hp : (l₁ ++ z :: e.item :: l₂).Perm (e.item :: (l₁ ++ z :: l₂)) := by
    rw [append_cons, append_cons l₁ z l₂]
    exact perm_middle
  have hp := hp.map (·.id)
  have hr : els.right z.id = first (·.id) l₂ := by rw [right_eq_heap, r.linked.heap_eq]; rfl
  -- The right neighbour of `z` is neither `z` nor the new element.
  have hne : ∀ k, first (·.id) l₂ = some k → k ≠ z.id ∧ k ≠ e.id := by
    intro k hk
    obtain ⟨w, hw, rfl⟩ := Option.map_eq_some_iff.mp hk
    have hw := mem_of_head? hw
    have hn := r.nodup
    simp only [ids, map_append, map_cons, nodup_append, nodup_cons] at hn
    exact ⟨ne_of_mem_of_not_mem (mem_map_of_mem hw) hn.2.1.1,
      ne_of_mem_of_not_mem (mem_map_of_mem (by simp [hw])) hid⟩
  refine ⟨?nodup, ?keys, r.linked.splice ⟨?left, ?new, ?right, ?frame⟩ r.nodup hid⟩
  case nodup => exact hp.nodup_iff.mpr <| nodup_cons.mpr ⟨hid, r.nodup⟩
  case keys =>
    intro k
    rw [mem_splice, r.keys]
    exact mem_cons.symm.trans hp.mem_iff.symm
  case new => exact heap_splice_self.trans <| by rw [hr]
  case left =>
    rw [heap_splice_of_ne (ne_of_mem_of_not_mem hz hid) (fun h => (hne _ (hr ▸ h)).1 rfl)]
    exact heap_update_self fun _ => rfl
  case right =>
    intro k hk
    exact heap_splice_right (hne k hk).2 (hne k hk).1 (hr.trans hk)
  case frame =>
    intro k h₁ h₂ h₃
    rw [heap_splice_of_ne h₂ (hr ▸ h₃), heap_update_of_ne h₁]

theorem Represents.insertElement (r : Represents els l) (he : e.id ∉ els) (hl : e.left = some id) :
    Represents (els.insertElement e) (insertAfter id e.item l) := by
  simp only [Elements.insertElement, hl]
  split
  case isTrue h =>
    have hn := r.length_keys.ge
    have ⟨l₁, z, l₂, h₁, h₂, h₃⟩ :=
      insertionPoint_insertAfter (x := e.item) r.linked ((r.keys id).mp h) hn
    rw [h₂, show els.insertionPoint e.id _ id = z.id from h₃]
    exact (h₁ ▸ r).splice he
  case isFalse h => rwa [insertAfter_of_not_mem <| (r.keys id).not.mp h]

end Insert

theorem Represents.update (r : Represents els l) (hg : ∀ x, (g x).id = x.id)
    (hid : ∀ x, x.id ≠ id → g x = x)
    (hf : ∀ e, e.id = id → (f e).cell = { e.cell with value := g e.item }) :
    Represents (els.update id f) (l.map g) where
  nodup := by simpa [ids, Function.comp_def, hg] using r.nodup
  keys k := by simpa [ids, Function.comp_def, hg] using r.keys k
  linked := by
    refine r.linked.map g hg fun x _ left right hc => ?_
    by_cases h : x.id = id
    case pos =>
      obtain ⟨e, he, hc⟩ := Option.map_eq_some_iff.mp hc
      have hx : e.item = x := congrArg Cell.value hc
      have hi : e.id = id := (congrArg Item.id hx).trans h
      rw [h] at he ⊢
      rw [heap, lookup_update_self, he]
      exact congrArg some <| (hf e hi).trans <| by rw [hc, hx]
    case neg => rw [heap_update_of_ne h, hc, hid x h]

theorem Represents.delete (r : Represents els l) :
    Represents (els.update id ({ · with deleted := true })) (l.map (Item.delete id)) := by
  refine r.update (fun _ => Item.delete_id) (fun _ => Item.delete_of_ne) fun e he => ?_
  rw [Item.delete, if_pos (show e.item.id = id from he)]
  rfl

theorem Represents.foldl_update (r : Represents els l) (hf : ∀ e, (f e).cell = e.cell)
    {ks : List PositionId} : Represents (ks.foldl (fun els id => els.update id f) els) l := by
  induction ks generalizing els
  case nil => exact r
  case cons k ks hi =>
    have hu : Represents (els.update k f) (l.map fun x => x) :=
      r.update (fun _ => rfl) (fun _ _ => rfl) fun e _ => hf e
    exact hi (map_id l ▸ hu)

variable (h : Linked els.heap (·.id) left (x :: l))

include h

theorem walk_eq (hn : l.length < n) : (els.walk n x.id).map (·.item) = x :: l := by
  induction l generalizing left n x <;> cases n
  case nil.zero | cons.zero => exact absurd hn (Nat.not_lt_zero _)
  all_goals
    obtain ⟨e, he, hc⟩ := Option.map_eq_some_iff.mp h.1
    have hx : e.item = x := congrArg Cell.value hc
    have hr := congrArg Cell.right hc
    rw [walk, he]
  case nil.succ n =>
    have hr : e.right = none := hr
    simp [hr, hx]
  case cons.succ y l hi n =>
    have hr : e.right = some y.id := hr
    simpa [hr, hx] using hi h.2 (Nat.lt_of_succ_lt_succ hn)

-- More rounds than there are elements make no difference to the two loops.
theorem walk_congr (hn : l.length < n) (hm : l.length < m) : els.walk n x.id = els.walk m x.id := by
  induction l generalizing left n m x <;> cases n <;> cases m
  case nil.succ.succ =>
    obtain ⟨e, he, hc⟩ := Option.map_eq_some_iff.mp h.1
    have hr : e.right = none := congrArg Cell.right hc
    simp [walk, he, hr]
  case cons.succ.succ y l hi n m =>
    obtain ⟨e, he, hc⟩ := Option.map_eq_some_iff.mp h.1
    have hr : e.right = some y.id := congrArg Cell.right hc
    have hi := hi h.2 (Nat.lt_of_succ_lt_succ hn) (Nat.lt_of_succ_lt_succ hm)
    simp [walk, he, hr, hi]
  all_goals omega

theorem insertionPoint_congr (hn : l.length ≤ n) (hm : l.length ≤ m) :
    els.insertionPoint id n x.id = els.insertionPoint id m x.id := by
  have hr : els.right x.id = first (·.id) l := by rw [right_eq_heap, h.1]; rfl
  induction l generalizing left n m x <;> cases n <;> cases m
  case cons.succ.succ y l hi n m =>
    have hi := hi h.2 (Nat.le_of_succ_le_succ hn) (Nat.le_of_succ_le_succ hm)
      (by rw [right_eq_heap, h.2.1]; rfl)
    simp [insertionPoint, hr, first, hi]
  case cons.zero.zero => rfl
  case cons.zero.succ => exact absurd hn (Nat.not_succ_le_zero _)
  case cons.succ.zero => exact absurd hm (Nat.not_succ_le_zero _)
  all_goals simp [insertionPoint, hr, first]

end Elements

namespace VectorClock

variable {vc : VectorClock}

@[simp]
theorem get_set_self : (vc.set c t).get c = t := by
  simp [get, VectorClock.set]

@[simp]
theorem get_set_of_ne (h : c' ≠ c) : (vc.set c t).get c' = vc.get c' := by
  simp [get, VectorClock.set, lookup_insert_ne h]

theorem merge_set_empty : vc.merge (VectorClock.set {} c t) = vc.set c (max (vc.get c) t) :=
  rfl

end VectorClock

def Items.text (l : Items) : String :=
  .ofList <| l.filter (fun x => !x.deleted && x.value != nul) |>.map (·.value)

def Operation.edit : Operation → Option (Edit PositionId Char)
  | .insert id after value _ => some (.insert id after value)
  | .delete id _ => some (.delete id)
  | .format .. => none

-- The position that was generated for an operation.
def Operation.stamp : Operation → Option PositionId
  | .insert id _ _ _ => some id
  | .delete _ deletedBy => some deletedBy
  | .format .. => none

namespace Document

variable {d : Document} {id after : PositionId}

structure Represents (d : Document) (l : Items) : Prop where
  elements : d.elements.Represents l
  root : (ids l).head? = some d.root

namespace Represents

theorem new {id : DocumentId} : (Document.new id).Represents [⟨.root, nul, false⟩] where
  elements := Elements.represents_new
  root := rfl

theorem walk_eq (r : d.Represents l) : d.walk.map (·.item) = l := by
  cases l
  case nil => exact absurd r.root (by simp [ids])
  case cons x l =>
    have hx : x.id = d.root := Option.some.inj r.root
    rw [Document.walk, ← hx, r.elements.length_keys]
    exact Elements.walk_eq r.elements.linked (Nat.lt_succ_self _)

theorem text_eq (r : d.Represents l) : d.text = Items.text l := by
  rw [Items.text, ← r.walk_eq, filter_map, map_map]
  rfl

theorem order_eq (r : d.Represents l) : d.order = ids l := by
  rw [ids, ← r.walk_eq, map_map]
  rfl

end Represents

theorem observe_elements : (d.observe stamp).elements = d.elements := by
  unfold observe
  split <;> rfl

theorem observe_root : (d.observe stamp).root = d.root := by
  unfold observe
  split <;> rfl

theorem apply_root : (d.apply op).root = d.root := by
  cases op <;> simp only [apply]
  case insert =>
    split
    case isTrue => rfl
    case isFalse => exact observe_root
  case delete => exact observe_root

theorem formatElement_cell (e : Element) : (formatElement start stop name v e).cell = e.cell := by
  simp only [formatElement]
  split <;> rfl

namespace Represents

-- An operation acts on the elements as its edit does on the items.
theorem apply (r : d.Represents l) (op : Operation) :
    (d.apply op).Represents (op.edit.elim l (act l)) := by
  refine ⟨?_, ?_⟩
  case refine_2 =>
    rw [apply_root, ← r.root]
    cases op
    case format => rfl
    case insert id after value _ => exact head_ids_act (p := .insert id after value)
    case delete id _ => exact head_ids_act (p := .delete id)
  cases op <;> simp only [Document.apply, Operation.edit, Option.elim, act]
  case insert id after value attributes =>
    split
    case isTrue h => rw [if_pos <| (r.elements.keys id).mp h]; exact r.elements
    case isFalse h =>
      rw [if_neg <| (r.elements.keys id).not.mp h, observe_elements]
      let element : Element :=
        { id, value, left := some after, attributes := attributes.stamped id.lamport }
      exact r.elements.insertElement (e := element) h rfl
  case delete => rw [observe_elements]; exact r.elements.delete
  case format start stop name value =>
    exact r.elements.foldl_update formatElement_cell

end Represents

section Clock

variable {attributes : Attributes}

theorem get_observe : (d.observe stamp).vectorClock.get c =
    if c = stamp.clientId then max (d.vectorClock.get c) stamp.lamport
    else d.vectorClock.get c := by
  unfold observe
  split
  case isTrue =>
    rw [merge_set_empty]
    split
    case isTrue h => rw [h, get_set_self]
    case isFalse h => rw [get_set_of_ne h]
  case isFalse h =>
    split
    case isTrue hc => rw [hc, max_eq_left (Nat.le_of_not_gt h)]
    case isFalse => rfl

-- A clock only moves forward, and not beyond the time of the operation.
theorem get_apply (d : Document) (op : Operation) (c : ClientId) :
    d.vectorClock.get c ≤ (d.apply op).vectorClock.get c ∧
    ((d.apply op).vectorClock.get c = d.vectorClock.get c ∨
      ∃ stamp, op.stamp = some stamp ∧ (d.apply op).vectorClock.get c = stamp.lamport) := by
  have ho {vc : VectorClock} {d : Document} {stamp} (hd : d.vectorClock = vc) :
      vc.get c ≤ (d.observe stamp).vectorClock.get c ∧
      ((d.observe stamp).vectorClock.get c = vc.get c ∨
        ∃ s, some stamp = some s ∧ (d.observe stamp).vectorClock.get c = s.lamport) := by
    rw [get_observe, hd]
    split
    case isTrue => exact ⟨le_max_left .., (max_choice ..).imp_right fun h => ⟨stamp, rfl, h⟩⟩
    case isFalse => exact ⟨le_rfl, .inl rfl⟩
  cases op
  case insert =>
    rw [apply]
    split
    case isTrue => exact ⟨le_rfl, .inl rfl⟩
    case isFalse => exact ho rfl
  case delete => exact ho rfl
  case format => exact ⟨le_rfl, .inl rfl⟩

-- A local edit: the client's clock is advanced, and the operation, which is marked with the new
-- time, has been applied to the document.
structure Generates (d : Document) (clientId : ClientId) (d' : Document) (op : Operation) :
    Prop where
  stamp : ∃ stamp, op.stamp = some stamp ∧ stamp.clientId = clientId ∧
                 stamp.lamport = d.vectorClock.get clientId + 1
  clock : ∀ c, d.vectorClock.get c ≤ d'.vectorClock.get c ∧
                 d'.vectorClock.get c ≤ d.vectorClock.get c + 1
  own : d'.vectorClock.get clientId = d.vectorClock.get clientId + 1
  represents : ∀ {l}, d.Represents l → (∀ stamp, op.stamp = some stamp → stamp ∉ d.elements) →
                 d'.Represents (op.edit.elim l (act l))

theorem get_generatePosition (h : d.vectorClock.HasNext clientId) :
    d.vectorClock.get c ≤ (d.generatePosition clientId).1.vectorClock.get c ∧
    (d.generatePosition clientId).1.vectorClock.get c ≤ d.vectorClock.get c + 1 := by
  show _ ≤ (VectorClock.set _ clientId _).get c ∧ (VectorClock.set _ clientId _).get c ≤ _
  by_cases hc : c = clientId
  case pos => rw [hc, get_set_self, Nat.mod_eq_of_lt h]; exact ⟨Nat.le_succ _, le_rfl⟩
  case neg => rw [get_set_of_ne hc]; exact ⟨le_rfl, Nat.le_succ _⟩

theorem get_generatePosition_self (h : d.vectorClock.HasNext clientId) :
    (d.generatePosition clientId).1.vectorClock.get clientId = d.vectorClock.get clientId + 1 :=
  get_set_self.trans (Nat.mod_eq_of_lt h)

theorem generates_insert (hn : d.vectorClock.HasNext clientId) : d.Generates clientId
    (d.insert clientId after value attributes).1 (d.insert clientId after value attributes).2 where
  stamp := ⟨_, rfl, rfl, Nat.mod_eq_of_lt hn⟩
  clock _ := get_generatePosition hn
  own := get_generatePosition_self hn
  represents {l} r h := by
    let id := (d.generatePosition clientId).2
    let element : Element :=
      { id, value, left := some after, attributes := attributes.stamped id.lamport }
    have hid : id ∉ d.elements := h id rfl
    have ha : act l (.insert id after value) = insertAfter after element.item l :=
      if_neg <| (r.elements.keys id).not.mp hid
    refine ⟨?_, (head_ids_act (p := .insert id after value)).trans r.root⟩
    have hr := r.elements.insertElement (e := element) hid rfl
    rwa [← ha] at hr

theorem Represents.delete (r : d.Represents l) (h : d.delete clientId id = .ok (d', op)) :
    d'.Represents (l.map (Item.delete id)) := by
  unfold Document.delete at h
  split at h
  case isFalse => cases h
  case isTrue =>
    cases h
    exact ⟨r.elements.delete, (head_ids_act (p := .delete id)).trans r.root⟩

theorem generates_delete (hn : d.vectorClock.HasNext clientId)
    (h : d.delete clientId id = .ok (d', op)) : d.Generates clientId d' op := by
  have hr {l} (r : d.Represents l) := r.delete h
  unfold delete at h
  split at h
  case isFalse => cases h
  cases h
  exact {
    stamp := ⟨_, rfl, rfl, Nat.mod_eq_of_lt hn⟩
    clock _ := get_generatePosition hn
    own := get_generatePosition_self hn
    represents r _ := hr r }

end Clock

end Document

end Crdt
