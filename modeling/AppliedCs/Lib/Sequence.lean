import AppliedCs.Lib.Delivery

-- A sequence whose items are added behind an item that they name and that are never removed, only
-- marked as deleted.
namespace Sequence

open List

variable {ι β : Type*} [LinearOrder ι]

structure Item (ι β : Type*) where
  id : ι
  value : β
  deleted : Bool
deriving DecidableEq

inductive Edit (ι β : Type*)
  | insert (id after : ι) (value : β)
  | delete (id : ι)
deriving DecidableEq

variable {x : Item ι β} {l : List (Item ι β)}

-- An item goes in front of the first one with a larger identifier.
def insertBelow (x : Item ι β) : List (Item ι β) → List (Item ι β)
  | [] => [x]
  | y :: l => if x.id < y.id then x :: y :: l else y :: insertBelow x l

def insertAfter (a : ι) (x : Item ι β) : List (Item ι β) → List (Item ι β)
  | [] => []
  | y :: l => if y.id = a then y :: insertBelow x l else y :: insertAfter a x l

def Item.delete (a : ι) (x : Item ι β) : Item ι β :=
  if x.id = a then { x with deleted := true } else x

def ids (l : List (Item ι β)) : List ι :=
  l.map (·.id)

def act (l : List (Item ι β)) : Edit ι β → List (Item ι β)
  | .insert id after value => if id ∈ ids l then l else insertAfter after ⟨id, value, false⟩ l
  | .delete id => l.map (Item.delete id)

-- The item that an edit refers to is there.
def Ready (l : List (Item ι β)) : Edit ι β → Prop
  | .insert _ after _ => after ∈ ids l
  | .delete id => id ∈ ids l

def Done (l : List (Item ι β)) : Edit ι β → Prop
  | .insert id _ _ => id ∈ ids l
  | .delete id => id ∈ ids l ∧ ∀ x ∈ l, x.id = id → x.deleted

@[simp]
theorem Item.delete_id : (x.delete a).id = x.id := by
  unfold Item.delete
  split <;> rfl

theorem Item.delete_of_ne (h : x.id ≠ a) : x.delete a = x :=
  if_neg h

theorem Item.delete_of_deleted (h : x.id = a → x.deleted) : x.delete a = x := by
  unfold Item.delete
  split
  case isTrue ha => rw [← h ha]
  case isFalse ha => rfl

theorem Item.deleted_delete (h : x.id = a) : (x.delete a).deleted := by
  rw [Item.delete, if_pos h]

theorem Item.deleted_delete_of_deleted (h : x.deleted) : (x.delete a).deleted := by
  unfold Item.delete
  split
  case isTrue => rfl
  case isFalse => exact h

theorem Item.delete_comm : (x.delete a).delete b = (x.delete b).delete a := by
  simp only [Item.delete]
  split <;> split <;> simp_all

omit [LinearOrder ι] in
@[simp]
theorem ids_cons : ids (x :: l) = x.id :: ids l := rfl

@[simp]
theorem ids_map_delete : ids (l.map (Item.delete a)) = ids l := by
  simp [ids, Function.comp_def]

theorem perm_insertBelow (x : Item ι β) (l : List (Item ι β)) :
    (insertBelow x l).Perm (x :: l) := by
  induction l
  case nil => exact .refl _
  case cons y l hi =>
    rw [insertBelow]
    split
    case isTrue => exact .refl _
    case isFalse => exact (hi.cons y).trans (.swap x y l)

theorem insertBelow_eq : insertBelow x l =
    l.takeWhile (fun y => y.id ≤ x.id) ++ x :: l.dropWhile (fun y => y.id ≤ x.id) := by
  induction l
  case nil => rfl
  case cons y l hi =>
    by_cases h : x.id < y.id
    case pos => simp [insertBelow, h]
    case neg => simp [insertBelow, h, not_lt.mp h, hi]

theorem insertAfter_append (h : y.id ∉ ids l₁) :
    insertAfter y.id x (l₁ ++ y :: l₂) = l₁ ++ y :: insertBelow x l₂ := by
  induction l₁
  case nil => simp [insertAfter]
  case cons z l₁ hi =>
    rw [ids_cons, mem_cons, not_or] at h
    rw [cons_append, insertAfter, if_neg (Ne.symm h.1), hi h.2, cons_append]

theorem insertAfter_of_not_mem (h : a ∉ ids l) : insertAfter a x l = l := by
  induction l
  case nil => rfl
  case cons y l hi =>
    rw [ids_cons, mem_cons, not_or] at h
    rw [insertAfter, if_neg (Ne.symm h.1), hi h.2]

theorem perm_insertAfter (x : Item ι β) (h : a ∈ ids l) : (insertAfter a x l).Perm (x :: l) := by
  induction l
  case nil => exact absurd h not_mem_nil
  case cons y l hi =>
    rw [insertAfter]
    split
    case isTrue => exact (perm_insertBelow x l |>.cons y).trans (.swap x y l)
    case isFalse hy =>
      have h := (mem_cons.mp h).resolve_left (Ne.symm hy)
      exact (hi h |>.cons y).trans (.swap x y l)

theorem mem_ids_insertAfter (h : a ∈ ids l) : b ∈ ids (insertAfter a x l) ↔ b = x.id ∨ b ∈ ids l :=
  (perm_insertAfter x h |>.map (·.id)).mem_iff.trans mem_cons

theorem ids_subset_insertAfter (h : b ∈ ids l) : b ∈ ids (insertAfter a x l) := by
  by_cases ha : a ∈ ids l
  case pos => exact mem_ids_insertAfter ha |>.mpr <| .inr h
  case neg => rwa [insertAfter_of_not_mem ha]

theorem mem_of_mem_insertAfter (h : z ∈ insertAfter a x l) : z = x ∨ z ∈ l := by
  by_cases ha : a ∈ ids l
  case pos => exact mem_cons.mp <| (perm_insertAfter x ha).mem_iff.mp h
  case neg => exact .inr <| insertAfter_of_not_mem ha ▸ h

-- Two new items end up in the order of their identifiers, whichever comes first.
theorem insertBelow_comm (h : x.id ≠ y.id) :
    insertBelow x (insertBelow y l) = insertBelow y (insertBelow x l) := by
  induction l
  case nil | cons z l hi => grind [insertBelow]

theorem insertBelow_insertAfter (h : x.id ≠ y.id) (hb : x.id ≠ b) :
    insertBelow x (insertAfter b y l) = insertAfter b y (insertBelow x l) := by
  induction l
  case nil => simp [insertBelow, insertAfter, hb]
  case cons z l hi =>
    have := insertBelow_comm (l := l) h
    grind [insertBelow, insertAfter]

theorem insertAfter_comm (h : x.id ≠ y.id) (hb : x.id ≠ b) (ha : y.id ≠ a) :
    insertAfter a x (insertAfter b y l) = insertAfter b y (insertAfter a x l) := by
  induction l
  case nil => rfl
  case cons z l hi =>
    have h₁ := insertBelow_insertAfter (l := l) h hb
    have h₂ := insertBelow_insertAfter (l := l) h.symm ha
    have h₃ := insertBelow_comm (l := l) h
    grind [insertBelow, insertAfter]

theorem map_delete_insertBelow (h : x.id ≠ a) :
    (insertBelow x l).map (Item.delete a) = insertBelow x (l.map (Item.delete a)) := by
  induction l
  case nil => simp [insertBelow, Item.delete_of_ne h]
  case cons y l hi =>
    simp only [insertBelow, map_cons, Item.delete_id]
    split
    case isTrue => rw [map_cons, map_cons, Item.delete_of_ne h]
    case isFalse => rw [map_cons, hi]

theorem map_delete_insertAfter (h : x.id ≠ a) :
    (insertAfter b x l).map (Item.delete a) = insertAfter b x (l.map (Item.delete a)) := by
  induction l
  case nil => rfl
  case cons y l hi =>
    simp only [insertAfter, map_cons, Item.delete_id]
    split
    case isTrue => rw [map_cons, map_delete_insertBelow h]
    case isFalse => rw [map_cons, hi]

theorem head_insertAfter : (insertAfter a x l).head? = l.head? := by
  cases l
  case nil => rfl
  case cons =>
    rw [insertAfter]
    split <;> rfl

theorem head_ids_insertAfter : (ids (insertAfter a x l)).head? = (ids l).head? := by
  simp [ids, head_insertAfter]

theorem head_ids_act : (ids (act l p)).head? = (ids l).head? := by
  cases p <;> simp only [act]
  case insert =>
    split
    case isTrue => rfl
    case isFalse => exact head_ids_insertAfter
  case delete => rw [ids_map_delete]

theorem ids_subset_act (h : a ∈ ids l) : a ∈ ids (act l p) := by
  cases p <;> simp only [act]
  case insert id after value =>
    split
    case isTrue => exact h
    case isFalse => exact ids_subset_insertAfter h
  case delete => rwa [ids_map_delete]

theorem mem_ids_of_act_insert (h : b ∈ ids (act l (.insert a a' value))) : b = a ∨ b ∈ ids l := by
  rw [act] at h
  split at h
  case isTrue => exact .inr h
  case isFalse =>
    by_cases ha : a' ∈ ids l
    case pos => exact (mem_ids_insertAfter ha).mp h
    case neg => exact .inr <| insertAfter_of_not_mem ha ▸ h

theorem Ready.act (h : Ready l q) : Ready (act l p) q := by
  cases q
  case insert | delete => exact ids_subset_act h

theorem Ready.done (h : Ready l p) : Done (Sequence.act l p) p := by
  cases p <;> simp only [Done, Sequence.act]
  case insert id after value =>
    split
    case isTrue hid => exact hid
    case isFalse => exact mem_ids_insertAfter h |>.mpr <| .inl rfl
  case delete id =>
    refine ⟨by rwa [ids_map_delete], fun x hx hid => ?_⟩
    obtain ⟨y, -, rfl⟩ := mem_map.mp hx
    rw [Item.delete_id] at hid
    exact Item.deleted_delete hid

theorem Done.act (h : Done l q) : Done (act l p) q := by
  cases q
  case insert => exact ids_subset_act h
  case delete id =>
    refine ⟨ids_subset_act h.1, fun x hx hid => ?_⟩
    cases p <;> simp only [Sequence.act] at hx
    case insert id' after value =>
      split at hx
      case isTrue => exact h.2 x hx hid
      case isFalse hid' =>
        apply (mem_of_mem_insertAfter hx).elim (fun hx => ?_) (h.2 x · hid)
        exact absurd h.1 <| hid ▸ hx ▸ hid'
    case delete id' =>
      obtain ⟨y, hy, rfl⟩ := mem_map.mp hx
      rw [Item.delete_id] at hid
      exact Item.deleted_delete_of_deleted <| h.2 y hy hid

theorem Done.act_eq (h : Done l p) : Sequence.act l p = l := by
  cases p
  case insert => exact if_pos h
  case delete =>
    exact (map_congr_left fun x hx => Item.delete_of_deleted (h.2 x hx)).trans (map_id l)

instance : ∀ l (p : Edit ι β), Decidable (Ready l p)
  | l, .insert _ after _ => inferInstanceAs <| Decidable (after ∈ ids l)
  | l, .delete id => inferInstanceAs <| Decidable (id ∈ ids l)

theorem act_of_not_ready (h : ¬ Ready l p) : act l p = l := by
  cases p
  case insert id after value =>
    rw [act, insertAfter_of_not_mem h, ite_self]
  case delete id =>
    refine (map_congr_left fun x hx => Item.delete_of_ne fun hid => ?_).trans (map_id l)
    exact h <| hid ▸ mem_map_of_mem hx

-- Two edits add no two items under one identifier.
def Distinct (S : Set (Edit ι β)) : Prop :=
  ∀ id after value after' value', .insert id after value ∈ S → .insert id after' value' ∈ S →
    after = after' ∧ value = value'

theorem Done.of_act (hS : Distinct S) (hp : p ∈ S) (hq : q ∈ S) (hr : Ready l p)
    (h : Done (Sequence.act l p) q) : Done l q ∨ p = q := by
  cases p <;> cases q
  case insert.insert a a' v b b' w =>
    obtain rfl | h := mem_ids_of_act_insert h
    case inr => exact .inl h
    case inl =>
      obtain ⟨rfl, rfl⟩ := hS _ _ _ _ _ hp hq
      exact .inr rfl
  case insert.delete a a' v b =>
    rw [Sequence.act] at h
    split at h
    case isTrue => exact .inl h
    case isFalse ha =>
      have hx : ⟨a, v, false⟩ ∈ insertAfter a' ⟨a, v, false⟩ l :=
        (perm_insertAfter _ hr).mem_iff.mpr mem_cons_self
      have hb : b ≠ a := fun hb => Bool.false_ne_true (h.2 _ hx hb.symm)
      refine .inl ⟨((mem_ids_insertAfter hr).mp h.1).resolve_left hb, fun x hxl hid => ?_⟩
      refine h.2 x ?_ hid
      exact (perm_insertAfter _ hr).mem_iff.mpr (mem_cons_of_mem _ hxl)
  case delete.insert a b b' w =>
    rw [Sequence.act, Done, ids_map_delete] at h
    exact .inl h
  case delete.delete a b =>
    by_cases hab : a = b
    case pos => exact .inr (hab ▸ rfl)
    case neg =>
      rw [Sequence.act, Done, ids_map_delete] at h
      refine .inl ⟨h.1, fun x hx hid => ?_⟩
      have := h.2 _ (mem_map_of_mem hx) (Item.delete_id.trans hid)
      rwa [Item.delete_of_ne fun hxa => hab (hxa.symm.trans hid)] at this

theorem act_insert_delete_comm (h : b ∈ ids l) :
    act (act l (.insert a a' value)) (.delete b) =
      act (act l (.delete b)) (.insert a a' value) := by
  simp only [act, ids_map_delete]
  split
  case isTrue => rfl
  case isFalse ha => exact map_delete_insertAfter (ne_of_mem_of_not_mem h ha).symm

theorem act_insert_comm (h : a ≠ b) (ha : a' ∈ ids l) (hb : b' ∈ ids l) :
    act (act l (.insert a a' v)) (.insert b b' w) =
    act (act l (.insert b b' w)) (.insert a a' v) := by
  simp only [act]
  by_cases h₁ : a ∈ ids l <;> by_cases h₂ : b ∈ ids l
  case pos => simp only [h₁, h₂, if_true]
  case neg => simp only [h₁, h₂, if_true, if_false, ids_subset_insertAfter h₁]
  case pos => simp only [h₁, h₂, if_true, if_false, ids_subset_insertAfter h₂]
  case neg =>
    simp only [h₁, h₂, if_false, mem_ids_insertAfter ha, mem_ids_insertAfter hb, h,
      h.symm, or_false]
    exact insertAfter_comm h.symm (ne_of_mem_of_not_mem ha h₂).symm
      (ne_of_mem_of_not_mem hb h₁).symm

theorem act_comm (hS : Distinct S) (hp : p ∈ S) (hq : q ∈ S) (hne : p ≠ q) (h₁ : Ready l p)
    (h₂ : Ready l q) : act (act l p) q = act (act l q) p := by
  cases p <;> cases q
  case insert.insert a a' v b b' w =>
    refine act_insert_comm (fun hab => ?_) h₁ h₂
    subst hab
    have ⟨ha, hv⟩ := hS _ _ _ _ _ hp hq
    exact hne <| ha ▸ hv ▸ rfl
  case insert.delete => exact act_insert_delete_comm h₂
  case delete.insert => exact (act_insert_delete_comm h₁).symm
  case delete.delete => simp [act, Item.delete_comm]

theorem commuting {S : Set (Edit ι β)} (hS : Distinct S) : Delivery.Commuting act Ready Done S where
  comm _ _ hp _ hq := act_comm hS hp hq
  ready_act _ _ _ := Ready.act
  done_act _ _ := Ready.done
  done_mono _ _ _ := Done.act
  act_done _ _ := Done.act_eq

end Sequence
