import AppliedCs.Crdt.Replicas
import AppliedCs.Crdt.Session
import AppliedCs.Crdt.Theorems.Document

namespace Crdt

open Sequence Transition Document Elements List

namespace Document

variable {d d' : Document} {op : Operation} {id : PositionId}

-- What every call keeps. No element has a time that its client has not reached, so a position that
-- a client generates is a new one.
structure Sound (d : Document) (l : Items) : Prop where
  represents : d.Represents l
  head : ∃ deleted, l.head? = some ⟨.root, nul, deleted⟩
  clock : ∀ id ∈ ids l, id.lamport ≤ d.vectorClock.get id.clientId

theorem Sound.new {id : DocumentId} : (new id).Sound [⟨.root, nul, false⟩] where
  represents := .new
  head := ⟨false, rfl⟩
  clock _ h := mem_singleton.mp h ▸ Nat.zero_le _

section

variable (s : d.Sound l)

include s

theorem Sound.root_eq : d.root = .root := by
  obtain ⟨_, hh⟩ := s.head
  have hr := s.represents.root
  rw [ids, head?_map, hh] at hr
  exact (Option.some.inj hr).symm

theorem Sound.act (r : d'.Represents (op.edit.elim l (act l)))
    (hm : ∀ c, d.vectorClock.get c ≤ d'.vectorClock.get c)
    (hn : ∀ id, op.inserted = some id → id ∉ ids l → id.lamport ≤ d'.vectorClock.get id.clientId) :
    d'.Sound (op.edit.elim l (act l)) := by
  have hold : ∀ id ∈ ids l, id.lamport ≤ d'.vectorClock.get id.clientId :=
    fun id hid => (s.clock id hid).trans (hm _)
  obtain ⟨deleted, hh⟩ := s.head
  cases op
  case format => exact ⟨r, s.head, hold⟩
  case insert id after value _ =>
    refine ⟨r, ⟨deleted, ?_⟩, fun k hk => ?_⟩
    · rw [Operation.edit, Option.elim, Sequence.act]
      split
      case isTrue => exact hh
      case isFalse => exact head_insertAfter.trans hh
    · by_cases hk' : k ∈ ids l
      case pos => exact hold k hk'
      case neg => exact hn k (congrArg some ((mem_ids_of_act_insert hk).resolve_right hk').symm) hk'
  case delete id _ =>
    refine ⟨r, ⟨((⟨.root, nul, deleted⟩ : Item _ _).delete id).deleted, ?_⟩, fun k hk => ?_⟩
    · rw [Operation.edit, Option.elim, Sequence.act, head?_map, hh, Option.map_some, Item.delete]
      split <;> rfl
    · rw [Operation.edit, Option.elim, Sequence.act, ids_map_delete] at hk
      exact hold k hk

theorem Sound.apply (op : Operation) : (d.apply op).Sound (op.edit.elim l (Sequence.act l)) := by
  refine s.act (s.represents.apply op) (fun c => (get_apply d op c).1) fun id hid hn => ?_
  cases op <;> cases hid
  rw [Document.apply, if_neg <| (s.represents.elements.keys id).not.mpr hn, get_observe, if_pos rfl]
  exact le_max_right ..

theorem Sound.fresh (h : id.lamport = d.vectorClock.get id.clientId + 1) : id ∉ d.elements := by
  intro hid
  exact Nat.not_succ_le_self _ <| h ▸ s.clock id <| (s.represents.elements.keys id).mp hid

theorem Sound.generate (g : d.Generates clientId d' op) :
    d'.Sound (op.edit.elim l (Sequence.act l)) := by
  obtain ⟨stamp, hs, rfl, hl⟩ := g.stamp
  have hnew : ∀ k, op.stamp = some k → k ∉ d.elements := by
    intro k hk
    cases hs.symm.trans hk
    exact s.fresh hl
  refine s.act (g.represents s.represents hnew) (fun c => (g.clock c).1) fun id hid _ => ?_
  have hid : op.stamp = some id := by cases op <;> simp_all [Operation.inserted, Operation.stamp]
  cases hs.symm.trans hid
  exact (g.own.trans hl.symm).ge

theorem Sound.call (h : d.InTime c) : ∃ l', (d.call c).Sound l' := by
  cases c
  case insert => exact ⟨_, s.generate (generates_insert h)⟩
  case apply => exact ⟨_, s.apply _⟩
  case gcTombstones => exact ⟨l, ⟨s.represents.elements, s.represents.root⟩, s.head, s.clock⟩
  case restore =>
    refine ⟨l, ⟨s.represents.elements, ?_⟩, s.head, s.clock⟩
    exact s.represents.root.trans <| congrArg some s.root_eq
  case delete clientId id =>
    rw [Document.call]
    split
    case h_2 => exact ⟨l, s⟩
    case h_1 d' op hd =>
      have hid : id ∈ d.elements := by
        by_contra hid
        rw [Document.delete, if_neg hid] at hd
        cases hd
      exact ⟨_, s.generate (generates_delete (h hid) hd)⟩

end

theorem exists_sound (h : Reaches step InTime (new documentId) d) : ∃ l, d.Sound l := by
  refine h.invariant (P := fun d => ∃ l, d.Sound l) ⟨_, .new⟩ ?_
  rintro s _ e ⟨l, hl⟩ ho ⟨⟩
  exact hl.call ho

-- The elements form one list from the root on, which all readers of the document see.
structure WellLinked (d : Document) : Prop where
  nodup : d.order.Nodup
  complete : ∀ id, id ∈ d.order ↔ id ∈ d.elements
  walkStops : ∀ n ≥ d.elements.keys.length, d.elements.walk n d.root = d.walk
  scanStops : ∀ n ≥ d.elements.keys.length, ∀ id after, d.elements.insertionPoint id n after =
                d.elements.insertionPoint id d.elements.keys.length after
  inverse : ∀ a b, d.elements.right a = some b ↔ d.elements.left b = some a
  len : d.len = d.text.length
  charAt : ∀ i, d.charAt i = d.text.toList[i]?

theorem charAtFrom_eq {count : ℕ} (h : count ≤ index) :
    charAtFrom index count es = ((es.filter (·.visible)).map (·.value))[index - count]? := by
  induction es generalizing count
  case nil => rfl
  case cons e es hi =>
    rw [charAtFrom]
    split
    case isFalse hv => rw [hi h, filter_cons_of_neg hv]
    case isTrue hv =>
      rw [filter_cons_of_pos hv, map_cons]
      split
      case isTrue heq => rw [heq, Nat.sub_self]; rfl
      case isFalse hne =>
        have hlt : count < index := lt_of_le_of_ne h hne
        rw [hi hlt, show index - count = index - (count + 1) + 1 by omega, getElem?_cons_succ]

theorem toList_text : d.text.toList = (d.walk.filter (·.visible)).map (·.value) :=
  String.toList_ofList

theorem Represents.perm_entries (r : d.Represents l) :
    (d.elements.entries.map (·.2.item)).Perm l := by
  have hk : ∀ s ∈ d.elements.entries, d.elements.lookup s.1 = some s.2 :=
    fun s hs => AList.mem_lookup_iff.mpr hs
  have hids : (d.elements.entries.map (·.2.item)).map (·.id) = d.elements.keys := by
    rw [map_map]
    exact map_congr_left fun s hs => (r.elements.of_lookup (hk s hs)).1
  have hnd : (d.elements.entries.map (·.2.item)).Nodup :=
    Nodup.of_map (·.id) (hids ▸ d.elements.keys_nodup)
  refine (perm_ext_iff_of_nodup hnd (Nodup.of_map _ r.elements.nodup)).mpr fun x => ?_
  constructor <;> intro hx
  case mp =>
    obtain ⟨s, hs, rfl⟩ := mem_map.mp hx
    exact (r.elements.of_lookup (hk s hs)).2
  case mpr =>
    obtain ⟨e, he, rfl⟩ := r.elements.lookup hx
    exact mem_map.mpr ⟨⟨e.id, e⟩, AList.mem_lookup_iff.mp he, rfl⟩

theorem Represents.len_eq (r : d.Represents l) : d.len = d.text.length := by
  have hv : ∀ es : List Element, es.countP (·.visible) =
      (es.map (·.item)).countP fun x => !x.deleted && x.value != nul := by
    intro es
    rw [countP_map]
    rfl
  rw [← String.length_toList, toList_text, length_map, ← countP_eq_length_filter, hv,
    r.walk_eq, len, hv, map_map]
  exact r.perm_entries.countP_eq _

theorem Represents.wellLinked (r : d.Represents l) : d.WellLinked where
  nodup := r.order_eq ▸ r.elements.nodup
  complete id := r.order_eq ▸ (r.elements.keys id).symm
  len := r.len_eq
  charAt i := (charAtFrom_eq (Nat.zero_le i)).trans <| toList_text ▸ rfl
  inverse a b := by
    have hi := r.elements.linked.right_iff_left (a := a) (b := b) fun k hk =>
      (r.elements.keys k).mp <| AList.lookup_isSome.mp <| by rwa [heap, Option.isSome_map] at hk
    rw [right_eq_heap, hi, left, heap, Option.bind_map]
    rfl
  walkStops n hn := by
    cases l
    case nil => exact absurd r.root (by simp [ids])
    case cons x l =>
      have hx : x.id = d.root := Option.some.inj r.root
      have hk := r.elements.length_keys
      rw [walk, ← hx]
      exact walk_congr r.elements.linked (Nat.lt_of_lt_of_le (hk ▸ Nat.lt_succ_self _) hn)
        (hk ▸ Nat.lt_succ_self _)
  scanStops n hn id after := by
    by_cases ha : after ∈ ids l
    case pos =>
      obtain ⟨x, hx, rfl⟩ := mem_map.mp ha
      obtain ⟨l₁, l₂, rfl⟩ := append_of_mem hx
      have hk : l₂.length ≤ d.elements.keys.length := by
        rw [r.elements.length_keys, length_append, length_cons]
        omega
      exact insertionPoint_congr r.elements.linked.append_right (hk.trans hn) hk
    case neg =>
      have hr : d.elements.right after = none := by
        rw [right, AList.lookup_eq_none.mpr <| (r.elements.keys after).not.mpr ha]
        rfl
      cases n <;> cases d.elements.keys.length <;> simp [insertionPoint, hr]

end Document

-- Whatever a document goes through, its elements stay one list, as long as no client's time
-- overflows.
theorem document_wellLinked {documentId : DocumentId} {d : Document}
    (h : Reaches step InTime (.new documentId) d) : d.WellLinked :=
  have ⟨_, s⟩ := exists_sound h
  s.represents.wellLinked

-- Client 1 comes back to a position that is in use, as it has applied an operation with the last
-- time that there is.
def overflow : List Call := [
  .apply (.insert ⟨0, 1, 1⟩ .root 'a' ∅),
  .apply (.insert ⟨UInt64.size - 1, 1, 1⟩ .root 'b' ∅),
  .insert 1 .root 'c' ∅]

theorem overflow_breaks_links : ∃ d, Reaches step anyEvent (.new 0) d ∧
      d.elements.left ⟨0, 1, 1⟩ = some ⟨0, 1, 1⟩ ∧ d.elements.right ⟨0, 1, 1⟩ ≠ some ⟨0, 1, 1⟩ :=
  Reaches.exists_of_run overflow (by decide +kernel)

theorem document_wellLinked_after_restore :
    ∃ d, Reaches step InTime (.new 0) d ∧ d.text = "ac" ∧ d.WellLinked := by
  have ⟨d, r, ht⟩ : ∃ d, Reaches step InTime (.new 0) d ∧ d.text = "ac" :=
    Reaches.exists_of_run [
      .insert 1 .root 'a' ∅,
      .apply (.insert ⟨5, 2, 1⟩ ⟨1, 1, 1⟩ 'b' ∅),
      .delete 1 ⟨5, 2, 1⟩,
      .insert 1 ⟨5, 2, 1⟩ 'c' ∅] (by decide +kernel)
  exact ⟨d, r, ht, document_wellLinked r⟩

end Crdt
