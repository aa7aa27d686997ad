import AppliedCs.Crdt.Theorems.Links

namespace Crdt

open Sequence Transition Items List

def Items.chars (l : Items) : List Char :=
  l.filter (fun x => !x.deleted && x.value != nul) |>.map (·.value)

section Chars

variable {l : Items} {e : Element}

theorem Items.chars_append : chars (l₁ ++ l₂) = chars l₁ ++ chars l₂ := by
  simp [chars]

theorem Items.chars_cons : chars (x :: l) = chars [x] ++ chars l :=
  @chars_append [x] l

theorem Items.mem_chars : c ∈ chars l ↔ ∃ x ∈ l, (!x.deleted && x.value != nul) ∧ x.value = c := by
  simp [chars, and_assoc]

theorem Element.chars_of_visible (h : e.visible) : chars [e.item] = [e.value] := by
  rw [chars, filter_cons, if_pos (show (!e.item.deleted && e.item.value != nul) from h)]
  rfl

theorem Element.chars_of_not_visible (h : ¬ e.visible) : chars [e.item] = [] := by
  rw [chars, filter_cons, if_neg (show ¬ (!e.item.deleted && e.item.value != nul) from h)]
  rfl

theorem Document.Represents.toList_text {d : Document} (r : d.Represents l) :
    d.text.toList = chars l := by
  rw [r.text_eq]
  exact String.toList_ofList

end Chars

-- A character can be moved over others exactly if they are the same.
theorem cons_append_eq_iff {α : Type*} {c : α} {l l' : List α} :
    l ++ c :: l' = c :: (l ++ l') ↔ ∀ x ∈ l, x = c := by
  induction l
  case nil => simp
  case cons x l hi =>
    rw [forall_mem_cons, ← hi, cons_append, cons_append, cons.injEq]
    refine and_congr_right fun hx => ?_
    rw [hx]

theorem insertIdx_append_length {α : Type*} {c : α} {l l' : List α} :
    (l ++ l').insertIdx l.length c = l ++ c :: l' := by
  induction l
  case nil => rfl
  case cons hi => simp [hi]

namespace Document

variable {d : Document}

-- The elements between the one after which an element is inserted and the place that it gets.
def passed (d : Document) (after id : PositionId) : List Element :=
  (d.walk.dropWhile (·.id ≠ after)).tail.takeWhile (·.id ≤ id)

-- Counting the visible elements leads to one up to which there are `index` characters.
theorem positionAtFrom_eq {count : ℕ} (current : PositionId) (h : count < index)
    (hi : index ≤ count + (chars (es.map (·.item))).length) :
    ∃ w₁ e w₂, es = w₁ ++ e :: w₂ ∧ e.visible ∧
      count + (chars (w₁.map (·.item))).length + 1 = index ∧
      positionAtFrom index count current es = some e.id := by
  induction es generalizing count current
  case nil => exact absurd hi (Nat.not_le_of_gt h)
  case cons e es hi' =>
    rw [map_cons, chars_cons, length_append] at hi
    rw [positionAtFrom]
    split
    case isTrue hv =>
      rw [e.chars_of_visible hv, length_singleton] at hi
      split
      case isTrue heq => exact ⟨[], e, es, rfl, hv, heq, rfl⟩
      case isFalse hne =>
        obtain ⟨w₁, e', w₂, rfl, hv', hc, hp⟩ := hi' (e.right.getD e.id)
          (show count + 1 < index by omega) (by omega)
        refine ⟨e :: w₁, e', w₂, rfl, hv', ?_, hp⟩
        rw [map_cons, chars_cons, e.chars_of_visible hv, length_append, length_singleton]
        omega
    case isFalse hv =>
      rw [e.chars_of_not_visible hv, length_nil, Nat.zero_add] at hi
      obtain ⟨w₁, e', w₂, rfl, hv', hc, hp⟩ := hi' (e.right.getD e.id) h hi
      refine ⟨e :: w₁, e', w₂, rfl, hv', ?_, hp⟩
      rwa [map_cons, chars_cons, e.chars_of_not_visible hv, nil_append]

theorem Sound.positionAt_zero (s : d.Sound l) :
    ∃ e w, d.walk = e :: w ∧ ¬ e.visible ∧ d.positionAt 0 = some e.id := by
  obtain ⟨deleted, hh⟩ := s.head
  rw [← s.represents.walk_eq, head?_map] at hh
  obtain ⟨e, he, hi⟩ := Option.map_eq_some_iff.mp hh
  obtain ⟨w, hw⟩ := head?_eq_some_iff.mp he
  have hv : e.value = nul := congrArg Item.value hi
  have hid : e.id = .root := congrArg Item.id hi
  exact ⟨e, w, hw, by simp [Element.visible, hv], congrArg some (s.root_eq.trans hid.symm)⟩

theorem Represents.positionAt_succ (r : d.Represents l) (h : i < d.len) :
    ∃ w₁ e w₂, d.walk = w₁ ++ e :: w₂ ∧ e.visible ∧
      (chars (w₁.map (·.item))).length = i ∧ d.positionAt (i + 1) = some e.id := by
  have hl : i + 1 ≤ 0 + (chars (d.walk.map (·.item))).length := by
    rw [r.walk_eq, ← r.toList_text, String.length_toList, ← r.len_eq]
    omega
  obtain ⟨w₁, e, w₂, hw, hv, hc, hp⟩ := positionAtFrom_eq d.root (Nat.succ_pos i) hl
  exact ⟨w₁, e, w₂, hw, hv, by omega, hp⟩

theorem Sound.positionAt (s : d.Sound l) (h : i ≤ d.len) :
    ∃ w₁ e w₂, d.walk = w₁ ++ e :: w₂ ∧
      (chars ((w₁ ++ [e]).map (·.item))).length = i ∧ d.positionAt i = some e.id := by
  cases i
  case zero =>
    obtain ⟨e, w, hw, hv, hp⟩ := s.positionAt_zero
    exact ⟨[], e, w, hw, congrArg length (e.chars_of_not_visible hv), hp⟩
  case succ i =>
    obtain ⟨w₁, e, w₂, hw, hv, hc, hp⟩ := s.represents.positionAt_succ h
    refine ⟨w₁, e, w₂, hw, ?_, hp⟩
    rw [map_append, chars_append, length_append, hc]
    exact congrArg (i + ·.length) (e.chars_of_visible hv)

section Insert

variable {id : PositionId}

section

variable (r : d.Represents l) (hw : d.walk = w₁ ++ e :: w₂)

include r hw

theorem Represents.not_mem_of_walk : e.item.id ∉ ids (w₁.map (·.item)) := by
  have hn := r.elements.nodup
  rw [← r.walk_eq, hw, map_append, ids, map_append, nodup_append] at hn
  exact fun hm => hn.2.2 _ hm _ mem_cons_self rfl

theorem Represents.passed_eq : d.passed e.id id = w₂.takeWhile (·.id ≤ id) := by
  have hne : ∀ a ∈ w₁, decide (a.id ≠ e.id) = true := by
    intro a ha
    refine decide_eq_true fun hid => r.not_mem_of_walk hw ?_
    exact mem_map.mpr ⟨a.item, mem_map_of_mem ha, hid⟩
  rw [passed, hw, dropWhile_append_of_pos hne, dropWhile_cons_of_neg (by simp)]
  rfl

theorem Represents.toList_text_passed (id : PositionId) :
    d.text.toList = chars ((w₁ ++ [e]).map (·.item)) ++
      (chars ((d.passed e.id id).map (·.item)) ++
        chars ((w₂.dropWhile (·.id ≤ id)).map (·.item))) := by
  rw [r.toList_text, ← r.walk_eq, r.passed_eq hw, ← chars_append, ← map_append,
    takeWhile_append_dropWhile, ← chars_append, ← map_append, hw, append_cons]

end

-- The text after an insertion: the character comes behind everything that is passed.
theorem Sound.toList_text_insert (s : d.Sound l) (hn : d.vectorClock.HasNext clientId)
    (hw : d.walk = w₁ ++ e :: w₂) (hc : c ≠ nul) :
    (d.insert clientId e.id c attributes).1.text.toList =
      chars ((w₁ ++ [e]).map (·.item)) ++
        (chars ((d.passed e.id (d.generatePosition clientId).2).map (·.item)) ++
          c :: chars ((w₂.dropWhile (·.id ≤ (d.generatePosition clientId).2)).map (·.item))) := by
  let id := (d.generatePosition clientId).2
  have hnew : id ∉ d.elements := s.fresh (Nat.mod_eq_of_lt hn)
  have hg : d.Generates clientId (d.insert clientId e.id c attributes).1 _ := generates_insert hn
  have hr := hg.represents s.represents fun k hk => by cases hk; exact hnew
  have hl : l = w₁.map (·.item) ++ e.item :: w₂.map (·.item) := by
    rw [← s.represents.walk_eq, hw, map_append, map_cons]
  have hact : Sequence.act l (.insert id e.id c) = (w₁ ++ [e]).map (·.item) ++
      ((d.passed e.id id).map (·.item) ++
        ⟨id, c, false⟩ :: (w₂.dropWhile (·.id ≤ id)).map (·.item)) := by
    rw [Sequence.act, if_neg <| (s.represents.elements.keys id).not.mp hnew, hl]
    refine (insertAfter_append (s.represents.not_mem_of_walk hw)).trans ?_
    rw [insertBelow_eq, takeWhile_map, dropWhile_map, s.represents.passed_eq hw,
      append_cons, map_append]
    rfl
  have hcc : chars [(⟨id, c, false⟩ : Item PositionId Char)] = [c] := by
    simp [chars, hc]
  rw [hr.toList_text]
  refine (congrArg chars hact).trans ?_
  rw [chars_append, chars_append, chars_cons, hcc]
  rfl

theorem Represents.delete_char (r : d.Represents l) (h : i < d.len) :
    ∃ id d' op, d.positionAt (i + 1) = some id ∧ d.delete clientId id = .ok (d', op) ∧
      d'.text.toList = d.text.toList.eraseIdx i := by
  obtain ⟨w₁, e, w₂, hw, hv, hi, hp⟩ := r.positionAt_succ h
  have hl : l = w₁.map (·.item) ++ e.item :: w₂.map (·.item) := by
    rw [← r.walk_eq, hw, map_append, map_cons]
  have he : e.id ∈ d.elements := (r.elements.keys e.id).mpr <| hl ▸ by simp [ids, Element.item]
  refine ⟨e.id, _, _, hp, if_pos he, ?_⟩
  have hd : (e.item.delete e.id).deleted := Item.deleted_delete rfl
  -- The other elements have other positions.
  have hn := r.elements.nodup
  rw [hl, ids, map_append, map_cons, nodup_append, nodup_cons] at hn
  have hsame : ∀ es : List Element, e.item.id ∉ ids (es.map (·.item)) →
      (es.map (·.item)).map (Item.delete e.id) = es.map (·.item) := by
    intro es hes
    refine (map_congr_left fun x hx => Item.delete_of_ne fun hid => ?_).trans (map_id _)
    exact hes <| mem_map.mpr ⟨x, hx, hid⟩
  rw [(r.delete (if_pos he)).toList_text, r.toList_text, hl, map_append, map_cons,
    hsame w₁ (r.not_mem_of_walk hw), hsame w₂ hn.2.1.1, chars_append, chars_cons,
    chars_append, chars_cons (x := e.item), e.chars_of_visible hv,
    eraseIdx_append_of_length_le hi.le, hi, Nat.sub_self]
  simp [chars, hd]

end Insert

end Document

open Document

-- A character is inserted at the index of a position exactly if everything that is passed shows the
-- same character; a character is always deleted at its index.
theorem insert_at_index_iff {documentId : DocumentId} {d : Document} {clientId : ClientId} {i : ℕ}
    {c : Char} {attributes : Attributes} (h : Reaches step InTime (.new documentId) d)
    (hn : d.vectorClock.HasNext clientId) (hi : i ≤ d.len) (hc : c ≠ nul) :
    ∃ id, d.positionAt i = some id ∧
      (((d.insert clientId id c attributes).1.text.toList = d.text.toList.insertIdx i c ∧
        (i < d.len → ∃ id' d' op, d.positionAt (i + 1) = some id' ∧
          d.delete clientId id' = .ok (d', op) ∧ d'.text.toList = d.text.toList.eraseIdx i)) ↔
      ∀ e ∈ d.passed id (d.generatePosition clientId).2, e.visible → e.value = c) := by
  obtain ⟨l, s⟩ := exists_sound h
  obtain ⟨w₁, e, w₂, hw, hl, hp⟩ := s.positionAt hi
  refine ⟨e.id, hp, ?_⟩
  rw [and_iff_left (fun hlt => s.represents.delete_char hlt), s.toList_text_insert hn hw hc,
    s.represents.toList_text_passed hw (d.generatePosition clientId).2, ← hl,
    insertIdx_append_length, append_cancel_left_eq, cons_append_eq_iff]
  simp only [mem_chars, mem_map]
  refine ⟨fun h x hx hv => ?_, ?_⟩
  · exact h x.value ⟨x.item, ⟨x, hx, rfl⟩, hv, rfl⟩
  · rintro h _ ⟨_, ⟨x, hx, rfl⟩, hv, rfl⟩
    exact h x hx hv

-- Client 1 has typed two characters and inserts a third in front of them, which goes to the end.
theorem insert_at_front_misplaced :
    ∃ d, Reaches step anyEvent (.new 0) d ∧ d.text = "ab" ∧ d.positionAt 0 = some .root ∧
      (d.insert 1 .root 'c' ∅).1.text = "abc" :=
  Reaches.exists_of_run [.insert 1 .root 'a' ∅, .insert 1 ⟨1, 1, 1⟩ 'b' ∅] (by decide +kernel)

-- Client 2 inserts in front of a character with a later position.
theorem insert_at_front : ∃ d, Reaches step InTime (.new 0) d ∧ d.text = "ab" ∧
      (d.insert 2 .root 'c' ∅).1.text = "cab" := by
  have ⟨d, r, ht, hd⟩ : ∃ d, Reaches step InTime (.new 0) d ∧ d.text = "ab" ∧
      d.vectorClock.HasNext 2 ∧ 0 ≤ d.len ∧ d.positionAt 0 = some .root ∧
      ∀ e ∈ d.passed .root (d.generatePosition 2).2, e.visible → e.value = 'c' :=
    Reaches.exists_of_run [
      .apply (.insert ⟨3, 1, 1⟩ .root 'a' ∅), .insert 1 ⟨3, 1, 1⟩ 'b' ∅] (by decide +kernel)
  obtain ⟨id, hp, h⟩ := @insert_at_index_iff _ _ _ _ 'c' ∅ r hd.1 hd.2.1 (by decide)
  cases hd.2.2.1.symm.trans hp
  refine ⟨d, r, ht, String.toList_injective ?_⟩
  rw [(h.mpr hd.2.2.2).1, ht]
  rfl

end Crdt
