import AppliedCs.Crdt.Theorems.Document
import AppliedCs.Lib.Transition

namespace Crdt

open Transition List Elements

namespace Elements

variable {els : Elements} {id : PositionId}

theorem mem_of_mem_insertElement (h : id ∈ els.insertElement element) :
    id = element.id ∨ id ∈ els := by
  unfold insertElement at h
  split at h
  case h_1 left _ =>
    split at h
    case isTrue => exact mem_splice.mp h
    case isFalse => exact .inr h
  case h_2 => exact AList.mem_insert _ |>.mp h

theorem mem_foldl_update {ids : List PositionId} :
    id ∈ ids.foldl (fun els id => els.update id f) els ↔ id ∈ els := by
  induction ids generalizing els
  case nil => rfl
  case cons x ids hi => rw [foldl_cons, hi, mem_update]

end Elements

-- The positions that an operation names for itself or for the element it is about.
def Operation.positions : Operation → List PositionId
  | .insert id _ _ _ => [id]
  | .delete id deletedBy => [id, deletedBy]
  | .format .. => []

namespace Document

-- A document with all positions of the operations that it has generated or applied.
structure Editing where
  document : Document
  seen : List PositionId := []

namespace Editing

inductive Event
  | insert (clientId : ClientId) (after : PositionId) (value : Char) (attributes : Attributes)
  | delete (clientId : ClientId) (id : PositionId)
  | apply (op : Operation)
  | gcTombstones (minVectorClock : VectorClock)
  -- The document is replaced by one that is restored from its snapshot.
  | restore

def step (s : Editing) : Event → Option Editing
  | .insert clientId after value attributes =>
    let r := s.document.insert clientId after value attributes
    some { document := r.1, seen := r.2.positions ++ s.seen }
  | .delete clientId id =>
    match s.document.delete clientId id with
    | .ok (document, op) => some { document, seen := op.positions ++ s.seen }
    | .error _ => some s
  | .apply op =>
    some { document := s.document.apply op, seen := op.positions ++ s.seen }
  | .gcTombstones minVectorClock =>
    some { s with document := s.document.gcTombstones minVectorClock }
  | .restore =>
    some { s with document := .fromSnapshot s.document.snapshot }

-- The clock has taken the position into account.
def Covers (vc : VectorClock) (p : PositionId) : Prop :=
  p.lamport ≤ vc.get p.clientId

instance (vc : VectorClock) (p : PositionId) : Decidable (Covers vc p) :=
  inferInstanceAs <| Decidable (_ ≤ _)

-- No clock overflows, and a deletion that is applied is one of a position that the clock covers.
def Known (s : Editing) : Event → Prop
  | .insert clientId _ _ _ => s.document.vectorClock.HasNext clientId
  | .delete clientId _ => s.document.vectorClock.HasNext clientId
  | .apply (.delete id _) => Covers s.document.vectorClock id
  | .apply _ => True
  | .gcTombstones _ | .restore => True

structure Inv (s : Editing) : Prop where
  elements : ∀ p ∈ s.document.elements, Covers s.document.vectorClock p
  seen : ∀ p ∈ s.seen, Covers s.document.vectorClock p

variable {s : Editing}

theorem Covers.mono (h : Covers vc p) (hle : ∀ c, vc.get c ≤ vc'.get c) : Covers vc' p :=
  h.trans (hle _)

theorem covers_observe (d : Document) (p : PositionId) : Covers (d.observe p).vectorClock p := by
  rw [Covers, get_observe, if_pos rfl]
  exact le_max_right ..

theorem Inv.mono {document : Document} (h : Inv s)
    (hle : ∀ c, s.document.vectorClock.get c ≤ document.vectorClock.get c)
    (he : ∀ p ∈ document.elements, p ∈ s.document.elements ∨ Covers document.vectorClock p)
    (hp : ∀ p ∈ ps, Covers document.vectorClock p) : Inv { document, seen := ps ++ s.seen } where
  elements p hm := (he p hm).elim (fun hm => (h.elements p hm).mono hle) fun hc => hc
  seen p hm := (mem_append.mp hm).elim (hp p) fun hm => (h.seen p hm).mono hle

theorem covers_generatePosition (d : Document) (clientId : ClientId) :
    Covers (d.generatePosition clientId).1.vectorClock (d.generatePosition clientId).2 :=
  VectorClock.get_set_self.ge

theorem Inv.insert {clientId : ClientId} {after : PositionId} {value : Char}
    {attributes : Attributes}
    (h : Inv s) (hn : s.document.vectorClock.HasNext clientId) :
    Inv { document := (s.document.insert clientId after value attributes).1
          seen := (s.document.insert clientId after value attributes).2.positions ++ s.seen } := by
  have hid := covers_generatePosition s.document clientId
  refine h.mono (fun c => (get_generatePosition hn).1) (fun p hp => ?_)
    (forall_mem_singleton.mpr hid)
  rcases mem_of_mem_insertElement hp with rfl | hp
  · exact .inr hid
  · exact .inl hp

theorem Inv.delete {id : PositionId} {document : Document} (h : Inv s)
    (hn : s.document.vectorClock.HasNext clientId)
    (hd : s.document.delete clientId id = .ok (document, op)) :
    Inv { document, seen := op.positions ++ s.seen } := by
  unfold Document.delete at hd
  split at hd
  case isFalse => cases hd
  case isTrue hid =>
    cases hd
    have hle (c) := (get_generatePosition (c := c) hn).1
    refine h.mono hle (fun p hp => .inl (mem_update.mp hp)) ?_
    exact forall_mem_cons.mpr ⟨(h.elements id hid).mono hle,
      forall_mem_singleton.mpr (covers_generatePosition s.document clientId)⟩

theorem Inv.apply (h : Inv s) (hk : Known s (.apply op)) :
    Inv { document := s.document.apply op, seen := op.positions ++ s.seen } := by
  have hle (c) := (get_apply s.document op c).1
  cases op
  case insert id after value attributes =>
    by_cases hid : id ∈ s.document.elements
    case pos =>
      have heq : s.document.apply (.insert id after value attributes) = s.document := if_pos hid
      rw [heq]
      exact h.mono (fun _ => le_rfl) (fun p hp => .inl hp)
        (forall_mem_singleton.mpr (h.elements id hid))
    have hc : Covers (s.document.apply (.insert id after value attributes)).vectorClock id := by
      rw [Document.apply, if_neg hid]
      exact covers_observe _ id
    refine h.mono hle (fun p hp => ?_) (forall_mem_singleton.mpr hc)
    rw [Document.apply, if_neg hid, observe_elements] at hp
    rcases mem_of_mem_insertElement hp with rfl | hp
    · exact .inr hc
    · exact .inl hp
  case delete id deletedBy =>
    refine h.mono hle (fun p hp => .inl ?_) ?_
    · rw [Document.apply, observe_elements] at hp
      exact mem_update.mp hp
    · exact forall_mem_cons.mpr ⟨hk.mono hle, forall_mem_singleton.mpr (covers_observe _ deletedBy)⟩
  case format start stop name value =>
    exact h.mono hle (fun p hp => .inl (mem_foldl_update.mp hp)) (forall_mem_nil _)

theorem Inv.step (h : Inv s) (hk : Known s e) (hs : step s e = some s') : Inv s' := by
  cases e
  case insert => cases hs; exact h.insert hk
  case apply => cases hs; exact h.apply hk
  case gcTombstones | restore => cases hs; exact ⟨h.elements, h.seen⟩
  case delete clientId id =>
    rw [Editing.step] at hs
    split at hs
    case h_1 document op hd => cases hs; exact h.delete hk hd
    case h_2 => cases hs; exact h

theorem not_covers_generatePosition (hn : s.document.vectorClock.HasNext clientId) :
    ¬ Covers s.document.vectorClock (s.document.generatePosition clientId).2 := by
  have hl : (s.document.generatePosition clientId).2.lamport =
      s.document.vectorClock.get clientId + 1 := Nat.mod_eq_of_lt hn
  rw [Covers, hl]
  exact Nat.not_succ_le_self _

end Editing

end Document

open Document

theorem fresh_position {docId : DocumentId} {s : Editing} {clientId : ClientId}
    (r : Reaches Editing.step Editing.Known { document := .new docId } s)
    (hn : s.document.vectorClock.HasNext clientId) :
    (s.document.generatePosition clientId).2 ∉ s.document.elements ∧
      (s.document.generatePosition clientId).2 ∉ s.seen := by
  have h : Editing.Inv s := by
    refine r.invariant ⟨fun p hp => ?_, forall_mem_nil _⟩ Editing.Inv.step
    rcases (AList.mem_insert _).mp hp with rfl | hp
    · exact Nat.zero_le _
    · exact (AList.notMem_empty p hp).elim
  have hnew := Editing.not_covers_generatePosition hn
  exact ⟨fun hm => hnew (h.elements _ hm), fun hm => hnew (h.seen _ hm)⟩

section Sample

instance (s : Editing) (e : Editing.Event) : Decidable (Editing.Known s e) :=
  match e with
  | .insert clientId _ _ _ | .delete clientId _ =>
    inferInstanceAs <| Decidable (s.document.vectorClock.HasNext clientId)
  | .apply (.delete p _) => inferInstanceAs <| Decidable (Editing.Covers s.document.vectorClock p)
  | .apply (.insert ..) | .apply (.format ..) | .gcTombstones _ | .restore => .isTrue trivial

theorem fresh_position_restored : ∃ s : Editing,
    Reaches Editing.step Editing.Known { document := .new 0 } s ∧
    (s.document.generatePosition 7).2 = ⟨3, 7, 1⟩ ∧ ⟨3, 7, 1⟩ ∉ s.seen := by
  obtain ⟨s, r, hp, hn⟩ : ∃ s : Editing,
      Reaches Editing.step Editing.Known { document := .new 0 } s ∧
      (s.document.generatePosition 7).2 = ⟨3, 7, 1⟩ ∧ s.document.vectorClock.HasNext 7 :=
    Reaches.exists_of_run [.insert 7 .root 'a' ∅, .apply (.insert ⟨2, 8, 1⟩ .root 'b' ∅),
      .apply (.delete ⟨1, 7, 1⟩ ⟨3, 8, 2⟩), .delete 7 ⟨2, 8, 1⟩, .restore] (by decide +kernel)
  exact ⟨s, r, hp, hp ▸ (fresh_position r hn).2⟩

-- A deletion comes before the insertion, whose position is then generated here. And a clock at its
-- end starts again, and with it the sequence numbers after a restart.
theorem stale_position : (∃ s : Editing, Reaches Editing.step anyEvent { document := .new 0 } s ∧
      (s.document.generatePosition 7).2 ∈ s.seen) ∧
    ∃ s : Editing, Reaches Editing.step anyEvent { document := .new 0 } s ∧
      (s.document.generatePosition 7).2 ∈ s.document.elements :=
  ⟨Reaches.exists_of_run [.apply (.delete ⟨1, 7, 1⟩ ⟨1, 8, 1⟩)] (by decide +kernel),
    Reaches.exists_of_run [.apply (.insert ⟨1, 7, 1⟩ .root 'a' ∅),
      .apply (.insert ⟨18446744073709551615, 7, 2⟩ .root 'b' ∅), .insert 7 .root 'c' ∅, .restore]
      (by decide +kernel)⟩

end Sample

end Crdt
