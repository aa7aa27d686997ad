import AppliedCs.Crdt.Replicas
import AppliedCs.Crdt.Theorems.Document

namespace Crdt

open Delivery Operation Elements List Option Function AList

variable {after : PositionId} {d : Document}

def Elements.attributes (els : Elements) (id : PositionId) :
    Option (AList fun _ : String => Timestamp × AttributeValue) :=
  (els.lookup id).map (·.attributes)

-- The attribute maps of all elements.
abbrev Table := PositionId → Option (String → Option (Timestamp × AttributeValue))

def Document.table (d : Document) : Table :=
  fun id => (d.elements.attributes id).map fun attributes name => attributes.lookup name

def InRange (start stop id : PositionId) : Prop :=
  id.cmp start ≠ .lt ∧ id.cmp stop ≠ .gt

instance {start stop id : PositionId} : Decidable (InRange start stop id) :=
  inferInstanceAs <| Decidable (_ ∧ _)

def formatTime (start stop : PositionId) : Timestamp :=
  max start.lamport stop.lamport

def overwrite (time : Timestamp) (value : AttributeValue) (entry : Timestamp × AttributeValue) :
    Timestamp × AttributeValue :=
  if time > entry.1 then (time, value) else entry

-- An attribute that is not there yet counts as null, written at time 0.
def write (time : Timestamp) (value : AttributeValue)
    (entry : Option (Timestamp × AttributeValue)) : Timestamp × AttributeValue :=
  overwrite time value <| entry.getD (0, .null)

namespace Table

def apply (t : Table) : Operation → Table
  | .insert id after _ attributes =>
    if (t id).isNone ∧ (t after).isSome then
      update t id <| some (attributes.stamped id.lamport).lookup
    else t
  | .delete _ _ => t
  | .format start stop name value => fun id =>
    (t id).map fun attributes =>
      if InRange start stop id then
        update attributes name <| some (write (formatTime start stop) value (attributes name))
      else attributes

end Table

open Table

theorem Attributes.lookup_foldl_insert {l : List (Σ _ : String, AttributeValue)}
    {m : AList fun _ : String => Timestamp × AttributeValue} (hl : l.NodupKeys) :
    (l.foldl (fun m p => m.insert p.1 (time, p.2)) m).lookup name =
      ((l.dlookup name).map (time, ·)).or (m.lookup name) := by
  induction l generalizing m
  case nil => rfl
  case cons p l hi =>
    have ⟨hp, hl⟩ := nodupKeys_cons.mp hl
    rw [foldl_cons, hi hl]
    by_cases h : name = p.1
    case pos =>
      subst h
      rw [dlookup_eq_none.mpr hp, dlookup_cons_eq, lookup_insert]
      rfl
    case neg => rw [dlookup_cons_ne _ _ h, lookup_insert_ne h]

theorem Attributes.lookup_stamped {attributes : Attributes} :
    (attributes.stamped time).lookup name = (attributes.lookup name).map (time, ·) := by
  rw [stamped, lookup_foldl_insert attributes.nodupKeys, lookup_empty, or_none]
  rfl

namespace Elements

variable {els : Elements} {id : PositionId} {ks : List PositionId}

theorem lookup_foldl_update (hn : ks.Nodup) :
    (ks.foldl (fun els id => els.update id f) els).lookup id =
      if id ∈ ks then (els.lookup id).map f else els.lookup id := by
  induction ks generalizing els
  case nil => rfl
  case cons k ks hi =>
    have ⟨hk, hn⟩ := nodup_cons.mp hn
    rw [foldl_cons, hi hn]
    by_cases h : id = k
    case pos =>
      subst h
      rw [if_neg hk, if_pos mem_cons_self, lookup_update_self]
    case neg =>
      rw [lookup_update_of_ne h]
      simp only [mem_cons, h, false_or]

theorem attributes_update (hf : ∀ e, (f e).attributes = e.attributes) :
    (els.update id f).attributes id' = els.attributes id' := by
  rw [attributes, attributes]
  by_cases h : id' = id
  case neg => rw [lookup_update_of_ne h]
  case pos =>
    rw [h, lookup_update_self, Option.map_map]
    exact congrArg (Option.map · _) (funext hf)

-- An insertion only changes the links of the elements that were there before.
theorem attributes_splice_of_ne (h : id' ≠ e.id) :
    (els.splice e id).attributes id' = els.attributes id' := by
  have hl : (els.update id ({ · with right := some e.id })).attributes id' = els.attributes id' :=
    attributes_update fun _ => rfl
  rw [splice, attributes, lookup_insert_ne h]
  split
  · rw [← hl]
    exact attributes_update (f := ({ · with left := some e.id })) fun _ => rfl
  · exact hl

theorem attributes_splice_self : (els.splice e id).attributes e.id = some e.attributes := by
  rw [attributes, splice, lookup_insert]
  rfl

end Elements

namespace Document

variable {id : PositionId}

theorem mem_iff_table : id ∈ d.elements ↔ (d.table id).isSome := by
  rw [← lookup_isSome, table, attributes, isSome_map, isSome_map]

theorem table_insert {value : Char} :
    (d.apply (.insert id after value as)).table = d.table.apply (.insert id after value as) := by
  have hc : ((d.table id).isNone ∧ (d.table after).isSome) ↔
      id ∉ d.elements ∧ after ∈ d.elements := by
    rw [mem_iff_table, mem_iff_table, isNone_iff_eq_none, not_isSome_iff_eq_none]
  rw [Document.apply, Table.apply]
  by_cases h : id ∈ d.elements
  case pos => rw [if_pos h, if_neg (hc.not.mpr fun hc => hc.1 h)]
  rw [if_neg h]
  funext id'
  rw [table, observe_elements, insertElement]
  dsimp only
  by_cases h' : after ∈ d.elements
  case neg => rw [if_neg h', if_neg (hc.not.mpr fun hc => h' hc.2), table]
  rw [if_pos h', if_pos (hc.mpr ⟨h, h'⟩)]
  by_cases hid : id' = id
  case pos =>
    subst hid
    rw [update_self]
    exact congrArg (Option.map _) attributes_splice_self
  case neg =>
    rw [update_of_ne hid]
    exact congrArg (Option.map _) (attributes_splice_of_ne hid)

theorem table_delete : (d.apply (.delete id deletedBy)).table = d.table := by
  funext id'
  rw [Document.apply, table, observe_elements]
  exact congrArg (Option.map _) (attributes_update fun _ => rfl)

theorem table_format (r : d.Represents l) : (d.apply (.format start stop name value)).table =
      d.table.apply (.format start stop name value) := by
  funext id
  simp only [Document.apply, Table.apply, table, attributes,
    lookup_foldl_update d.elements.keys_nodup]
  cases h : d.elements.lookup id
  case none => simp
  case some e =>
    have hk : id ∈ d.elements.keys := lookup_isSome.mp (h ▸ rfl)
    rw [if_pos hk]
    obtain ⟨rfl, -⟩ := r.elements.of_lookup h
    simp only [map_some, formatElement]
    split
    case isFalse hr => rw [if_neg (show ¬ InRange start stop e.id from hr)]
    case isTrue hr =>
      rw [if_pos (show InRange start stop e.id from hr)]
      congr 1
      funext name'
      by_cases hn : name' = name
      case pos => subst hn; rw [update_self, lookup_insert]; rfl
      case neg => rw [update_of_ne hn, lookup_insert_ne hn]

theorem table_apply (r : d.Represents l) (op : Operation) :
    (d.apply op).table = d.table.apply op := by
  cases op
  case insert => exact table_insert
  case delete => exact table_delete
  case format => exact table_format r

theorem table_foldl (r : d.Represents l) (ops : List Operation) :
    (ops.foldl Document.apply d).table = ops.foldl Table.apply d.table := by
  induction ops generalizing d l
  case nil => rfl
  case cons op ops hi => rw [foldl_cons, hi (r.apply op), table_apply r, foldl_cons]

end Document

namespace Operation

-- An insertion needs the element behind which it inserts.
def Anchors : Operation → Operation → Prop
  | .insert id _ _ _, .insert _ after _ _ => id = after
  | _, _ => False

instance : DecidableRel Anchors
  | .insert _ _ _ _, .insert _ _ _ _ => inferInstanceAs <| Decidable (_ = _)
  | .insert _ _ _ _, .delete _ _ | .insert _ _ _ _, .format _ _ _ _ | .delete _ _, _
  | .format _ _ _ _, _ => inferInstanceAs <| Decidable False

def Writes (id : PositionId) (name : String) (entry : Timestamp × AttributeValue) : Operation → Prop
  | .insert id' _ _ attributes =>
    id' = id ∧ (attributes.lookup name).map (id.lamport, ·) = some entry
  | .format start stop name' value =>
    InRange start stop id ∧ name' = name ∧ (formatTime start stop, value) = entry
  | .delete _ _ => False

-- The order of two operations matters. A format does not reach an element that is inserted later
-- (unless the element comes with a newer value), and of two formats with the same time the one that
-- comes first wins.
def Conflict (present : List PositionId) : Operation → Operation → Prop
  | .insert id _ _ attributes, .insert id' _ _ attributes' => id = id' ∧ attributes ≠ attributes'
  | .insert id _ _ attributes, .format start stop name _ =>
    InRange start stop id ∧ (name ∈ attributes → id.lamport < formatTime start stop)
  | .format start stop name value, .format start' stop' name' value' =>
    name = name' ∧ value ≠ value' ∧ formatTime start stop = formatTime start' stop' ∧
      0 < formatTime start stop ∧ ∃ id ∈ present, InRange start stop id ∧ InRange start' stop' id
  | _, _ => False

instance {present : List PositionId} : DecidableRel (Conflict present)
  | .insert _ _ _ _, .insert _ _ _ _ => inferInstanceAs <| Decidable (_ ∧ _)
  | .insert _ _ _ _, .format _ _ _ _ => inferInstanceAs <| Decidable (_ ∧ (_ → _))
  | .format _ _ _ _, .format _ _ _ _ => inferInstanceAs <| Decidable (_ ∧ _ ∧ _ ∧ _ ∧ _)
  | .insert _ _ _ _, .delete _ _ | .delete _ _, _ | .format _ _ _ _, .insert _ _ _ _
  | .format _ _ _ _, .delete _ _ => inferInstanceAs <| Decidable False

end Operation

theorem overwrite_overwrite (h : value ≠ value' → time = time' → time = 0) :
    overwrite time value (overwrite time' value' entry) =
      overwrite time' value' (overwrite time value entry) := by
  unfold overwrite
  by_cases ht : time = time'
  case neg => grind
  case pos =>
    subst ht
    by_cases hv : value = value'
    case pos => rw [hv]
    case neg => simp [h hv rfl]

theorem write_of_le (h : time ≤ entry.1) : write time value (some entry) = entry :=
  if_neg (Nat.not_lt.mpr h)

theorem write_eq_or (time : Timestamp) (value : AttributeValue)
    (entry : Option (Timestamp × AttributeValue)) :
    write time value entry = (time, value) ∨ write time value entry = entry.getD (0, .null) :=
  ite_eq_or_eq ..

theorem le_write (time : Timestamp) (value : AttributeValue)
    (entry : Option (Timestamp × AttributeValue)) :
    time ≤ (write time value entry).1 ∧ (entry.getD (0, .null)).1 ≤ (write time value entry).1 := by
  rw [write, overwrite]
  split
  case isTrue h => exact ⟨le_rfl, Nat.le_of_lt h⟩
  case isFalse h => exact ⟨Nat.not_lt.mp h, le_rfl⟩

namespace Table

variable {t : Table} {present : List PositionId}

theorem insert_eq {id : PositionId} {value : Char} : t.apply (.insert id after value as) =
      if (t id).isNone ∧ (t after).isSome then update t id <| some (as.stamped id.lamport).lookup
      else t :=
  rfl

theorem format_eq {id : PositionId} :
    t.apply (.format start stop name value) id = (t id).map fun attributes =>
      if InRange start stop id then update attributes name <|
          some (write (formatTime start stop) value (attributes name)) else attributes:=
  rfl

theorem insert_insert_comm {id : PositionId} {value value' : Char} (h : id ≠ after')
    (h' : id' ≠ after) (hc : id = id' → as = as') :
    (t.apply (.insert id after value as)).apply (.insert id' after' value' as') =
      (t.apply (.insert id' after' value' as')).apply (.insert id after value as) := by
  simp only [apply]
  by_cases hid : id = id'
  case pos =>
    cases hid
    cases hc rfl
    grind
  case neg =>
    grind [update_comm]

theorem insert_format_comm {id : PositionId} {value : Char}
    (h : InRange start stop id → name ∈ as ∧ formatTime start stop ≤ id.lamport) :
    (t.apply (.insert id after value as)).apply (.format start stop name v) =
      (t.apply (.format start stop name v)).apply (.insert id after value as) := by
  have hf (x : PositionId) : (t.apply (.format start stop name v) x).isNone = (t x).isNone :=
    isNone_map
  have hf' (x : PositionId) : (t.apply (.format start stop name v) x).isSome = (t x).isSome :=
    isSome_map
  rw [insert_eq, insert_eq, hf, hf']
  split
  case isFalse => rfl
  funext x
  by_cases hx : x = id
  case neg => rw [update_of_ne hx, format_eq, format_eq, update_of_ne hx]
  subst hx
  rw [update_self, format_eq, update_self, map_some]
  split
  case isFalse => rfl
  case isTrue hr =>
    -- The element is newer than the format.
    have ⟨hn, ht⟩ := h hr
    obtain ⟨v', hv⟩ := isSome_iff_exists.mp (lookup_isSome.mpr hn)
    have hs : (as.stamped x.lamport).lookup name = some (x.lamport, v') := by
      rw [Attributes.lookup_stamped, hv]
      rfl
    dsimp only
    rw [hs, write_of_le ht, ← hs]
    exact congrArg some (update_eq_self name _)

theorem format_format_comm
    (h : ∀ id, (t id).isSome → InRange start stop id → InRange start' stop' id →
      name = name' → value ≠ value' → formatTime start stop = formatTime start' stop' →
      formatTime start stop = 0) :
    (t.apply (.format start stop name value)).apply (.format start' stop' name' value') =
      (t.apply (.format start' stop' name' value')).apply (.format start stop name value) := by
  funext id
  simp only [apply]
  cases hid : t id
  case none => rfl
  case some as =>
    simp only [map_some, some.injEq]
    by_cases hr : InRange start stop id <;> by_cases hr' : InRange start' stop' id <;>
      simp only [hr, hr', if_true, if_false]
    by_cases hn : name = name'
    case neg =>
      rw [update_of_ne hn, update_of_ne (Ne.symm hn)]
      exact update_comm hn _ _ _
    case pos =>
      subst hn
      rw [update_self, update_self, update_idem, update_idem]
      simp only [write, getD_some, overwrite_overwrite (h id (hid ▸ rfl) hr hr' rfl)]

-- Operations without conflict commute, if none of them is the anchor of the other.
theorem apply_comm (hI : ∀ id, (t id).isSome → id ∈ present)
    (ha : ¬ p.Anchors q) (ha' : ¬ q.Anchors p)
    (hc : ¬ p.Conflict present q) (hc' : ¬ q.Conflict present p) :
    (t.apply p).apply q = (t.apply q).apply p := by
  have hf {start stop : PositionId} {name : String} {id : PositionId} {as : Attributes}
      (h : ¬ (InRange start stop id ∧ (name ∈ as → id.lamport < formatTime start stop)))
      (hr : InRange start stop id) : name ∈ as ∧ formatTime start stop ≤ id.lamport := by
    have h := Classical.not_imp.mp (not_and.mp h hr)
    exact ⟨h.1, Nat.not_lt.mp h.2⟩
  cases p <;> cases q
  case insert.insert => exact insert_insert_comm ha ha' fun h => of_not_not fun h' => hc ⟨h, h'⟩
  case insert.format => exact insert_format_comm (hf hc)
  case format.insert => exact (insert_format_comm (hf hc')).symm
  case format.format =>
    refine format_format_comm fun id ht hr hr' hn hv he => ?_
    exact Nat.eq_zero_of_not_pos fun h0 => hc ⟨hn, hv, he, h0, id, hI id ht, hr, hr'⟩
  all_goals rfl

def entry (t : Table) (id : PositionId) (name : String) : Option (Timestamp × AttributeValue) :=
  (t id).bind (· name)

variable {id : PositionId}

theorem entry_apply (t : Table) (p : Operation) (id : PositionId) (name : String) :
    (t.apply p).entry id name = t.entry id name ∨
    (t.entry id name = none ∧ ∃ e, p.Writes id name e ∧ (t.apply p).entry id name = some e) ∨
    ∃ time value, p.Writes id name (time, value) ∧
      (t.apply p).entry id name = some (write time value (t.entry id name)) := by
  cases p
  case delete => exact .inl rfl
  case insert id' after value as =>
    rw [insert_eq]
    split
    case isFalse => exact .inl rfl
    case isTrue hc =>
      by_cases hid : id = id'
      case neg => left; rw [entry, update_of_ne hid, entry]
      subst hid
      have hn : t.entry id name = none := by rw [entry, isNone_iff_eq_none.mp hc.1]; rfl
      have hs : entry (update t id (some (as.stamped id.lamport).lookup)) id name =
          (as.lookup name).map (id.lamport, ·) := by
        rw [entry, update_self]
        exact Attributes.lookup_stamped
      rw [hn, hs]
      cases he : as.lookup name
      case none => exact .inl rfl
      case some v => exact .inr <| .inl ⟨rfl, (id.lamport, v), ⟨rfl, he ▸ rfl⟩, rfl⟩
  case format start stop name' value =>
    rw [entry, format_eq, entry]
    cases t id
    case none => exact .inl rfl
    case some as =>
      rw [map_some, bind_some, bind_some]
      split
      case isFalse => exact .inl rfl
      case isTrue hr =>
        by_cases hn : name = name'
        case neg => left; rw [update_of_ne hn]
        case pos =>
          subst hn
          right; right
          exact ⟨_, value, ⟨hr, rfl, rfl⟩, update_self ..⟩

theorem entry_apply_mono (h : t.entry id name = some e) :
    ∃ e', (t.apply p).entry id name = some e' ∧ e.1 ≤ e'.1 := by
  obtain he | ⟨hn, -⟩ | ⟨time, value, -, he⟩ := t.entry_apply p id name
  case inl => exact ⟨e, he.trans h, le_rfl⟩
  case inr.inl => cases hn.symm.trans h
  case inr.inr => exact ⟨_, he, h ▸ (le_write time value (some e)).2⟩

theorem entry_foldl_mono {l : List Operation} (h : t.entry id name = some e) :
    ∃ e', (l.foldl apply t).entry id name = some e' ∧ e.1 ≤ e'.1 := by
  induction l generalizing t e
  case nil => exact ⟨e, h, le_rfl⟩
  case cons p l hi =>
    have ⟨e₁, h₁, hle₁⟩ := entry_apply_mono (p := p) h
    have ⟨e₂, h₂, hle₂⟩ := hi h₁
    exact ⟨e₂, h₂, hle₁.trans hle₂⟩

-- A format that reaches an element leaves a time that is at least its own.
theorem entry_format (name : String) (value : AttributeValue)
    (hid : (t id).isSome) (hr : InRange start stop id) :
    ∃ e, (t.apply (.format start stop name value)).entry id name = some e ∧
      formatTime start stop ≤ e.1 := by
  obtain ⟨as, has⟩ := isSome_iff_exists.mp hid
  refine ⟨write (formatTime start stop) value (as name), ?_, (le_write ..).1⟩
  rw [entry, format_eq, has, map_some, if_pos hr, bind_some, update_self]

-- Every attribute was written by an operation, or is the null that a format has put there.
def Written (ops : List Operation) (t : Table) : Prop :=
  ∀ id name e, t.entry id name = some e → e = (0, .null) ∨ ∃ p ∈ ops, p.Writes id name e

variable {l : List Operation}

theorem Written.apply (h : Written ops t) (hp : p ∈ ops) : Written ops (t.apply p) := by
  intro id name e he
  obtain h' | ⟨-, e', hw, h'⟩ | ⟨time, value, hw, h'⟩ := t.entry_apply p id name
    <;> rw [h'] at he
  case inl => exact h id name e he
  case inr.inl => cases he; exact .inr ⟨p, hp, hw⟩
  case inr.inr =>
    cases he
    obtain hw' | hw' := write_eq_or time value (t.entry id name)
    case inl => exact .inr ⟨p, hp, hw' ▸ hw⟩
    case inr =>
      rw [hw']
      cases ht : t.entry id name
      case none => exact .inl rfl
      case some e => exact h id name e ht

theorem Written.foldl (h : Written ops t) (hl : ∀ p ∈ l, p ∈ ops) :
    Written ops (l.foldl Table.apply t) := by
  induction l generalizing t
  case nil => exact h
  case cons p l hi =>
    exact hi (h.apply (hl p mem_cons_self)) fun q hq => hl q (mem_cons_of_mem p hq)

end Table

section Convergence

open Document (mem_iff_table table_foldl table_apply table_insert)

-- The elements that there can be.
def present (ops : List Operation) : List PositionId :=
  .root :: ops.filterMap (·.inserted)

def AnchorsFirst (before : Operation → Operation → Prop) (ops : List Operation) : Prop :=
  ∀ p ∈ ops, ∀ q ∈ ops, p ≠ q → p.Anchors q → before p q

-- Operations in conflict are never concurrent.
def Orderly (before : Operation → Operation → Prop) (ops : List Operation) : Prop :=
  ∀ p ∈ ops, ∀ q ∈ ops, p ≠ q → p.Conflict (present ops) q → before p q ∨ before q p

theorem Table.isSome_apply {t : Table} {id : PositionId} (h : (t.apply p id).isSome) :
    (t id).isSome ∨ p.inserted = some id := by
  cases p
  case delete => exact .inl h
  case format => rw [format_eq, isSome_map] at h; exact .inl h
  case insert id' _ _ _ =>
    rw [insert_eq] at h
    split at h
    case isFalse => exact .inl h
    case isTrue =>
      by_cases hid : id = id'
      case pos => exact .inr (congrArg some hid.symm)
      case neg => rw [update_of_ne hid] at h; exact .inl h

theorem independent (hc : AnchorsFirst before ops) (ho : Orderly before ops) :
    Independent apply before (fun t => ∀ id, (t id).isSome → id ∈ present ops)
      {p | p ∈ ops} where
  keep t ht p hp id hid := by
    obtain h | h := isSome_apply hid
    case inl => exact ht id h
    case inr => exact mem_cons_of_mem _ (mem_filterMap.mpr ⟨p, hp, h⟩)
  comm t ht p hp q hq hne hpq hqp := by
    refine apply_comm ht (fun h => hpq ?_) (fun h => hqp ?_) (fun h => ?_) fun h => ?_
    · exact hc p hp q hq hne h
    · exact hc q hq p hp hne.symm h
    · exact (ho p hp q hq hne h).elim hpq hqp
    · exact (ho q hq p hp hne.symm h).elim hqp hpq

def Document.attributeOf (d : Document) (id : PositionId) (name : String) :
    Option (Timestamp × AttributeValue) :=
  (d.elements.attributes id).bind (·.lookup name)

theorem attributeOf_eq {id : PositionId} : d.attributeOf id name = d.table.entry id name := by
  rw [Document.attributeOf, entry, Document.table]
  cases d.elements.attributes id <;> rfl

theorem mem_new {id : PositionId} : id ∈ (Document.new doc).elements ↔ id = .root := by
  rw [Document.new, new, mem_insert]
  exact or_iff_left (notMem_empty id)

theorem attributeOf_new {id : PositionId} : (Document.new doc).attributeOf id name = none := by
  rw [Document.attributeOf, attributes, Document.new, new]
  by_cases h : id = .root
  case pos => rw [h]; rfl
  case neg => rw [lookup_insert_ne h]; rfl

theorem written_new : Written ops (Document.new doc).table := by
  intro id name e he
  rw [← attributeOf_eq, attributeOf_new] at he
  cases he

-- If operations in conflict are never concurrent, all deliveries that respect the causal order lead
-- to the same attributes, and an attribute holds the newest value that has reached its element.
theorem formatting_converges {l₁ l₂ : List Operation} (hn : l₁.Nodup) (hp : l₁.Perm l₂)
    (h₁ : Respects before l₁) (h₂ : Respects before l₂) (hc : AnchorsFirst before l₁)
    (ho : Orderly before l₁) : (∀ id, id ∈ (l₁.foldl Document.apply (.new doc)).elements ↔
      id ∈ (l₂.foldl Document.apply (.new doc)).elements) ∧
    (∀ id name, (l₁.foldl Document.apply (.new doc)).attributeOf id name =
      (l₂.foldl Document.apply (.new doc)).attributeOf id name) ∧
    (∀ id name e, (l₁.foldl Document.apply (.new doc)).attributeOf id name = some e →
      e = (0, .null) ∨ ∃ p ∈ l₁, p.Writes id name e) ∧
    ∀ l l' start stop name value id, l₁ = l ++ .format start stop name value :: l' →
      id ∈ (l.foldl Document.apply (.new doc)).elements → InRange start stop id →
      ∃ e, (l₁.foldl Document.apply (.new doc)).attributeOf id name = some e ∧
        formatTime start stop ≤ e.1 := by
  have hr : (Document.new doc).Represents _ := .new
  have ht : (l₁.foldl Document.apply (.new doc)).table =
      (l₂.foldl Document.apply (.new doc)).table := by
    rw [table_foldl hr, table_foldl hr]
    refine (independent hc ho).foldl_eq (fun id hid => ?_) (fun _ => id) hp hn h₁ h₂
    exact mem_cons.mpr <| .inl <| mem_new.mp <| mem_iff_table.mpr hid
  refine ⟨fun id => ?_, fun id name => ?_, fun id name e he => ?_, ?_⟩
  · rw [mem_iff_table, mem_iff_table, ht]
  · rw [attributeOf_eq, attributeOf_eq, ht]
  · rw [attributeOf_eq, table_foldl hr] at he
    exact written_new.foldl (fun _ h => h) id name e he
  · intro l l' start stop name value id hl hid hin
    rw [mem_iff_table, table_foldl hr] at hid
    have ⟨e, he, hle⟩ := entry_format name value hid hin
    have ⟨e', he', hle'⟩ := entry_foldl_mono (l := l') he
    refine ⟨e', ?_, hle.trans hle'⟩
    rw [attributeOf_eq, table_foldl hr, hl, foldl_append, foldl_cons, he']

-- An insertion, and two formats of its element in both orders, the second one newer.
theorem formatting_converges_newer : let p := insert ⟨1, 1, 1⟩ .root 'a' ∅
    let q := insert ⟨2, 1, 2⟩ ⟨1, 1, 1⟩ 'b' ∅
    let f := format ⟨1, 1, 1⟩ ⟨1, 1, 1⟩ "bold" (.bool true)
    let g := format ⟨1, 1, 1⟩ ⟨2, 1, 2⟩ "bold" (.bool false)
    ∀ id name, ([p, q, f, g].foldl Document.apply (.new 0)).attributeOf id name =
      ([p, q, g, f].foldl Document.apply (.new 0)).attributeOf id name := by
  intro p q f g
  let before (x y : Operation) : Prop := x = p ∧ y ≠ p ∨ x = q ∧ y ≠ p ∧ y ≠ q
  have hp : [p, q, f, g].Perm [p, q, g, f] := by decide +kernel
  have h₁ : Respects before [p, q, f, g] := by unfold before; decide +kernel
  have h₂ : Respects before [p, q, g, f] := by unfold before; decide +kernel
  have hc : AnchorsFirst before [p, q, f, g] := by unfold before AnchorsFirst; decide +kernel
  have ho : Orderly before [p, q, f, g] := by unfold before Orderly; decide +kernel
  exact (formatting_converges (by decide +kernel) hp h₁ h₂ hc ho).2.1

theorem attributeOf_format {id : PositionId} (r : d.Represents l) (hid : id ∈ d.elements)
    (hr : InRange start stop id) : (d.apply (.format start stop name value)).attributeOf id name =
      some (write (formatTime start stop) value (d.attributeOf id name)) := by
  rw [attributeOf_eq, attributeOf_eq, table_apply r, entry, entry, format_eq]
  obtain ⟨as, has⟩ := isSome_iff_exists.mp (mem_iff_table.mp hid)
  rw [has, map_some, if_pos hr, bind_some, bind_some, update_self]

theorem mem_format {id : PositionId} (r : d.Represents l) :
    id ∈ (d.apply (.format start stop name value)).elements ↔ id ∈ d.elements := by
  rw [mem_iff_table, mem_iff_table, table_apply r, format_eq, isSome_map]

theorem attributeOf_insert {id : PositionId} {value : Char} (hid : id ∉ d.elements)
    (ha : after ∈ d.elements) : (d.apply (.insert id after value as)).attributeOf id name =
      (as.lookup name).map (id.lamport, ·) := by
  rw [mem_iff_table] at hid ha
  rw [attributeOf_eq, table_insert, entry, insert_eq,
    if_pos ⟨by simpa using hid, ha⟩, update_self]
  exact Attributes.lookup_stamped

-- A conflict matters, unless the element has a newer value already.
theorem insert_format_differ {id : PositionId} {value : Char} (r : d.Represents l)
    (hid : id ∉ d.elements) (ha : after ∈ d.elements) (hr : InRange start stop id)
    (hn : name ∈ as → id.lamport < formatTime start stop) :
    ((d.apply (.insert id after value as)).apply (.format start stop name v)).attributeOf id name ≠
      ((d.apply (.format start stop name v)).apply (.insert id after value as)).attributeOf id
        name := by
  have hm : id ∈ (d.apply (.insert id after value as)).elements := by
    rw [mem_iff_table] at hid ha ⊢
    rw [table_insert, insert_eq, if_pos ⟨by simpa using hid, ha⟩, update_self]
    rfl
  rw [attributeOf_format (r.apply _) hm hr, attributeOf_insert hid ha,
    attributeOf_insert ((mem_format r).not.mpr hid) ((mem_format r).mpr ha)]
  cases h : as.lookup name
  case none => exact some_ne_none _
  case some v' =>
    have hlt := hn <| lookup_isSome.mp <| h ▸ rfl
    intro he
    have hle := (le_write (formatTime start stop) v (some (id.lamport, v'))).1
    have he : write (formatTime start stop) v (some (id.lamport, v')) = (id.lamport, v') :=
      some.inj he
    rw [he] at hle
    exact Nat.not_lt.mpr hle hlt

theorem formats_differ {id : PositionId} (r : d.Represents l) (hid : id ∈ d.elements)
    (hr : InRange start stop id) (hr' : InRange start' stop' id) (hv : value ≠ value')
    (ht : formatTime start stop = formatTime start' stop')
    (hd : ((d.attributeOf id name).getD (0, .null)).1 < formatTime start stop) :
    ((d.apply (.format start stop name value)).apply
        (.format start' stop' name value')).attributeOf id name ≠
      ((d.apply (.format start' stop' name value')).apply
        (.format start stop name value)).attributeOf id name := by
  have hw {v v' : AttributeValue} : write (formatTime start stop) v'
      (some (write (formatTime start stop) v (d.attributeOf id name))) =
        (formatTime start stop, v) := by
    rw [write_of_le (le_write ..).1, write, overwrite, if_pos hd]
  rw [attributeOf_format (r.apply _) ((mem_format r).mpr hid) hr',
    attributeOf_format (r.apply _) ((mem_format r).mpr hid) hr,
    attributeOf_format r hid hr, attributeOf_format r hid hr', ← ht, hw, hw]
  intro h
  cases h
  exact hv rfl

-- The first of two concurrent formats with the same time wins, and a format does not reach what is
-- inserted concurrently into its range.
theorem formatting_diverges :
    (∃ (before : Operation → Operation → Prop) (l₁ l₂ : List Operation), l₁.Nodup ∧ l₁.Perm l₂ ∧
      Respects before l₁ ∧ Respects before l₂ ∧ AnchorsFirst before l₁ ∧
      (l₁.foldl Document.apply (.new 0)).attributeOf ⟨1, 1, 1⟩ "bold" = some (1, .bool true) ∧
      (l₂.foldl Document.apply (.new 0)).attributeOf ⟨1, 1, 1⟩ "bold" = some (1, .bool false)) ∧
    ∃ (before : Operation → Operation → Prop) (l₁ l₂ : List Operation), l₁.Nodup ∧ l₁.Perm l₂ ∧
      Respects before l₁ ∧ Respects before l₂ ∧ AnchorsFirst before l₁ ∧
      (l₁.foldl Document.apply (.new 0)).attributeOf ⟨2, 2, 1⟩ "bold" = some (3, .bool true) ∧
      (l₂.foldl Document.apply (.new 0)).attributeOf ⟨2, 2, 1⟩ "bold" = none := by
  let p := insert ⟨1, 1, 1⟩ .root 'a' ∅
  let f := format ⟨1, 1, 1⟩ ⟨1, 1, 1⟩ "bold" (.bool true)
  let g := format ⟨1, 1, 1⟩ ⟨1, 1, 1⟩ "bold" (.bool false)
  let q := insert ⟨3, 1, 2⟩ ⟨1, 1, 1⟩ 'c' ∅
  let q' := insert ⟨2, 2, 1⟩ ⟨1, 1, 1⟩ 'b' ∅
  let h := format ⟨1, 1, 1⟩ ⟨3, 1, 2⟩ "bold" (.bool true)
  refine ⟨⟨fun x y => x = p ∧ y ≠ p, [p, f, g], [p, g, f], ?_⟩,
    fun x y => x = p ∧ y ≠ p ∨ x = q ∧ y = h, [p, q, q', h], [p, q, h, q'], ?_⟩
  all_goals
    unfold AnchorsFirst
    decide +kernel

end Convergence

end Crdt
