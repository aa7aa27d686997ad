import Mathlib.Data.List.Destutter
import Mathlib.Data.List.Sort

-- Lists with strictly increasing keys as finite maps.
namespace SortedList

open List

variable {α β : Type*} [LinearOrder α] {key : β → α} {l l' : List β}

def Sorted (key : β → α) (l : List β) : Prop :=
  l.Pairwise (key · < key ·)

instance : Decidable (Sorted key l) :=
  inferInstanceAs <| Decidable <| l.Pairwise (key · < key ·)

def get (key : β → α) (l : List β) (k : α) : Option β :=
  l.find? (key · = k)

-- The new element takes the place of one with the same key.
def insert (key : β → α) (b : β) : List β → List β
  | [] => [b]
  | c :: l =>
    if key b < key c then b :: c :: l
    else if key b = key c then b :: l
    else c :: insert key b l

theorem get_cons : get key (c :: l) k = if key c = k then some c else get key l k := by
  by_cases h : key c = k <;> simp [get, h]

theorem get_map {γ : Type*} {key' : γ → α} {f : β → γ} (h : ∀ b, key' (f b) = key b) :
    get key' (l.map f) k = (get key l k).map f := by
  rw [get, find?_map]
  refine congrArg (Option.map f <| l.find? ·) <| funext fun b => ?_
  rw [Function.comp_apply, h]

theorem key_of_get (h : get key l k = some b) : key b = k := by
  simpa using find?_some h

theorem mem_of_get (h : get key l k = some b) : b ∈ l :=
  mem_of_find?_eq_some h

theorem get_insert : get key (insert key b l) k = if key b = k then some b else get key l k := by
  induction l
  case nil => simp [insert, get_cons]
  case cons c l hi =>
    rw [insert]
    split
    case isTrue => simp only [get_cons]
    split
    case isTrue heq => simp only [get_cons, ← heq]; split <;> rfl
    case isFalse hne =>
      simp only [get_cons, hi]
      grind

theorem mem_insert (h : c ∈ insert key b l) : c = b ∨ c ∈ l := by
  induction l
  case nil => simpa [insert] using h
  case cons c' l hi =>
    rw [insert] at h
    grind

theorem Sorted.insert (h : Sorted key l) : Sorted key (SortedList.insert key b l) := by
  induction l
  case nil => simp [SortedList.insert, Sorted]
  case cons c l hi =>
    obtain ⟨hc, hl⟩ := pairwise_cons.mp h
    rw [SortedList.insert]
    split
    case isTrue hlt => exact pairwise_cons.mpr ⟨by grind, h⟩
    case isFalse hnlt =>
      split
      case isTrue heq => exact pairwise_cons.mpr ⟨by grind, hl⟩
      case isFalse hne => exact pairwise_cons.mpr ⟨by grind [mem_insert], hi hl⟩

theorem insert_append (h : ∀ c ∈ l, key c < key b) :
    insert key b (l ++ l') = l ++ insert key b l' := by
  induction l
  case nil => rfl
  case cons c l hi =>
    have hc := h c mem_cons_self
    rw [cons_append, insert, if_neg hc.asymm, if_neg hc.ne',
      hi fun d hd => h d (mem_cons_of_mem c hd)]
    rfl

theorem insert_eq_append (h : ∀ c ∈ l, key c < key b) : insert key b l = l ++ [b] := by
  have hi := @insert_append _ _ _ key l [] b h
  rwa [append_nil] at hi

theorem Sorted.get_of_mem (h : Sorted key l) (hb : b ∈ l) : get key l (key b) = some b := by
  induction l
  case nil => cases hb
  case cons c l hi =>
    obtain ⟨hc, hl⟩ := pairwise_cons.mp h
    rw [get_cons]
    cases hb
    case head => exact if_pos rfl
    case tail hb => rw [if_neg (hc b hb).ne, hi hl hb]

theorem Sorted.mem_iff (h : Sorted key l) : b ∈ l ↔ get key l (key b) = some b :=
  ⟨h.get_of_mem, mem_of_get⟩

theorem Sorted.ext (h : Sorted key l) (h' : Sorted key l')
    (hg : ∀ k, get key l k = get key l' k) : l = l' := by
  have hp : l.Perm l' := by
    refine (perm_ext_iff_of_nodup (h.imp ?_) (h'.imp ?_)).mpr fun b => ?_
    · rintro a b hlt rfl; exact hlt.false
    · rintro a b hlt rfl; exact hlt.false
    · rw [h.mem_iff, h'.mem_iff, hg]
  exact hp.eq_of_pairwise (fun a b _ _ h₁ h₂ => (h₁.asymm h₂).elim) h h'

-- The later of two elements with the same key stays.
theorem Sorted.get_foldl_insert (h : Sorted key l') :
    get key (l'.foldl (fun l b => SortedList.insert key b l) l) k =
      (get key l' k).or (get key l k) := by
  induction l' generalizing l
  case nil => rfl
  case cons c l' hi =>
    obtain ⟨hc, hl⟩ := pairwise_cons.mp h
    rw [foldl_cons, hi hl, get_insert, get_cons]
    by_cases hk : key c = k
    case neg => rw [if_neg hk, if_neg hk]
    case pos =>
      have hn : get key l' k = none := find?_eq_none.mpr fun b hb => by
        simpa using (hk ▸ hc b hb).ne'
      rw [if_pos hk, if_pos hk, hn]
      rfl

section

variable (h : Sorted key l)

include h

theorem Sorted.foldl_insert : Sorted key (l'.foldl (fun l b => SortedList.insert key b l) l) := by
  induction l' generalizing l
  case nil => exact h
  case cons c l' hi => exact hi h.insert

-- A search from the end finds the largest key.
theorem Sorted.le_of_find?_reverse (hf : l.reverse.find? p = some b) (hc : c ∈ l) (hp : p c) :
    key c ≤ key b := by
  obtain ⟨-, as, bs, heq, has⟩ := find?_eq_some_iff_append.mp hf
  have hs : (as ++ b :: bs).Pairwise (key · > key ·) := heq ▸ pairwise_reverse.mpr h
  rcases mem_append.mp (heq ▸ mem_reverse.mpr hc) with ha | hb
  case inl => exact absurd hp (by simpa using has c ha)
  case inr =>
    rcases mem_cons.mp hb with rfl | hb
    case inl => exact le_rfl
    case inr => exact (rel_of_pairwise_cons (pairwise_append.mp hs).2.1 hb).le

theorem Sorted.filter (p : β → Bool) : Sorted key (l.filter p) :=
  List.Pairwise.filter p h

theorem Sorted.map {γ : Type*} {key' : γ → α} {f : β → γ}
    (hf : ∀ b, key' (f b) = key b) : Sorted key' (l.map f) :=
  pairwise_map.mpr <| h.imp fun hlt => by rwa [hf, hf]

theorem Sorted.get_filter (p : β → Bool) : get key (l.filter p) k = (get key l k).filter p := by
  refine Option.ext fun b => ?_
  constructor
  · intro hb
    have hm := mem_filter.mp (mem_of_get hb)
    rw [← key_of_get hb, h.get_of_mem hm.1]
    exact Option.mem_filter_iff.mpr ⟨rfl, hm.2⟩
  · intro hb
    obtain ⟨hb, hp⟩ := Option.mem_filter_iff.mp hb
    rw [← key_of_get hb]
    exact (h.filter p).get_of_mem <| mem_filter.mpr ⟨mem_of_get hb, hp⟩

-- What holds below an element that it holds of is found at the front.
theorem Sorted.takeWhile_eq (hp : ∀ a b, key a < key b → p b → p a) :
    l.takeWhile p = l.filter p := by
  induction l
  case nil => rfl
  case cons c l hi =>
    obtain ⟨hc, hl⟩ := pairwise_cons.mp h
    by_cases hpc : p c
    case pos => rw [takeWhile_cons_of_pos hpc, filter_cons_of_pos hpc, hi hl]
    case neg =>
      rw [takeWhile_cons_of_neg hpc, filter_cons_of_neg hpc]
      exact (filter_eq_nil_iff.mpr fun b hb hpb => hpc <| hp c b (hc b hb) hpb).symm

theorem Sorted.dropWhile_eq (hp : ∀ a b, key a < key b → p b → p a) :
    l.dropWhile p = l.filter (!p ·) := by
  induction l
  case nil => rfl
  case cons c l hi =>
    obtain ⟨hc, hl⟩ := pairwise_cons.mp h
    by_cases hpc : p c
    case pos => rw [dropWhile_cons_of_pos hpc, filter_cons_of_neg (by simp [hpc]), hi hl]
    case neg =>
      rw [dropWhile_cons_of_neg hpc]
      exact (filter_eq_self.mpr <| by grind).symm

end

-- A stable sort, after which of the elements with the same key the first one is kept.
def ofList (key : β → α) (l : List β) : List β :=
  (l.insertionSort (key · ≤ key ·)).destutter (key · ≠ key ·)

theorem filter_insertionSort (l : List β) (k : α) :
    (l.insertionSort (key · ≤ key ·)).filter (key · = k) = l.filter (key · = k) := by
  have hs : (l.filter (key · = k)).Sublist (l.insertionSort (key · ≤ key ·)) := by
    refine sublist_insertionSort ?_ filter_sublist
    refine pairwise_of_forall_mem_list fun a ha b hb => ?_
    simp at ha hb
    rw [ha.2, hb.2]
  have hf := hs.filter (key · = k)
  rw [filter_filter] at hf
  simp only [Bool.and_self] at hf
  refine (hf.eq_of_length ?_).symm
  exact ((perm_insertionSort _ l).filter _).length_eq.symm

theorem pairwise_insertionSort (l : List β) :
    (l.insertionSort (key · ≤ key ·)).Pairwise (key · ≤ key ·) :=
  have : Std.Total (key · ≤ key ·) := ⟨fun a b => le_total (key a) (key b)⟩
  have : IsTrans β (key · ≤ key ·) := ⟨fun _ _ _ => le_trans⟩
  List.pairwise_insertionSort _ l

theorem get_destutter' (c : β) :
    get key (l.destutter' (key · ≠ key ·) c) k = get key (c :: l) k := by
  induction l generalizing c
  case nil => rfl
  case cons b l hi =>
    rw [destutter'_cons]
    split
    case isTrue h => rw [get_cons, get_cons, hi]
    case isFalse h =>
      rw [hi, get_cons, get_cons, get_cons]
      grind

theorem get_ofList : get key (ofList key l) k = l.find? (key · = k) := by
  have h : get key (ofList key l) k = get key (l.insertionSort (key · ≤ key ·)) k := by
    rw [ofList]
    cases l.insertionSort (key · ≤ key ·)
    case nil => rfl
    case cons c l' => exact get_destutter' c
  rw [h, get, ← head?_filter, ← head?_filter, filter_insertionSort]

-- Neighbours that are in order and differ are in strict order.
theorem sorted_of_isChain (h : l.Pairwise (key · ≤ key ·)) (hc : l.IsChain (key · ≠ key ·)) :
    Sorted key l := by
  induction l
  case nil => exact .nil
  case cons b l hi =>
    obtain ⟨hb, hl⟩ := pairwise_cons.mp h
    have hs := hi hl hc.tail
    refine pairwise_cons.mpr ⟨fun c hcl => ?_, hs⟩
    cases l
    case nil => cases hcl
    case cons d l' =>
      have hbd := lt_of_le_of_ne (hb d mem_cons_self) (isChain_cons_cons.mp hc).1
      cases hcl
      case head => exact hbd
      case tail hm => exact hbd.trans <| (pairwise_cons.mp hs).1 c hm

theorem sorted_ofList : Sorted key (ofList key l) :=
  sorted_of_isChain ((pairwise_insertionSort l).sublist (destutter_sublist _ _))
    (isChain_destutter _ _)

end SortedList

open SortedList

-- A map whose entries are kept in the order of their keys.
@[ext]
structure SortedMap (α β : Type*) [LinearOrder α] where
  entries : List (α × β)
  sorted : Sorted Prod.fst entries

namespace SortedMap

variable {α β : Type*} [LinearOrder α] {m : SortedMap α β}

instance : EmptyCollection (SortedMap α β) where
  emptyCollection := ⟨[], .nil⟩

instance [DecidableEq β] : DecidableEq (SortedMap α β) :=
  fun _ _ => decidable_of_iff _ SortedMap.ext_iff.symm

def insert (m : SortedMap α β) (k : α) (v : β) : SortedMap α β :=
  ⟨SortedList.insert Prod.fst (k, v) m.entries, m.sorted.insert⟩

def filter (m : SortedMap α β) (p : α → Bool) : SortedMap α β :=
  ⟨m.entries.filter (p ·.1), m.sorted.filter _⟩

def erase (m : SortedMap α β) (k : α) : SortedMap α β :=
  m.filter (· != k)

def retain (m : SortedMap α β) (p : α → β → Bool) : SortedMap α β :=
  ⟨m.entries.filter fun e => p e.1 e.2, m.sorted.filter _⟩

def map {γ : Type*} (m : SortedMap α β) (f : β → γ) : SortedMap α γ :=
  ⟨m.entries.map fun e => (e.1, f e.2), m.sorted.map fun _ => rfl⟩

def get? (m : SortedMap α β) (k : α) : Option β :=
  (get Prod.fst m.entries k).map Prod.snd

def keys (m : SortedMap α β) : List α :=
  m.entries.map Prod.fst

def values (m : SortedMap α β) : List β :=
  m.entries.map Prod.snd

@[simp]
theorem get?_empty : (∅ : SortedMap α β).get? k = none :=
  rfl

@[simp]
theorem keys_empty : (∅ : SortedMap α β).keys = [] :=
  rfl

theorem get?_insert : (m.insert k v).get? k' = if k = k' then some v else m.get? k' := by
  rw [get?, insert, get_insert]
  split <;> rfl

theorem get?_filter (p : α → Bool) : (m.filter p).get? k = if p k then m.get? k else none := by
  rw [get?, filter, m.sorted.get_filter]
  cases h : get Prod.fst m.entries k
  case none => simp [get?, h]
  case some b =>
    rw [Option.filter_some, key_of_get h, get?, h]
    split <;> rfl

theorem get?_eq_some : m.get? k = some v ↔ (k, v) ∈ m.entries := by
  rw [m.sorted.mem_iff, get?, Option.map_eq_some_iff]
  constructor
  · rintro ⟨⟨k', v⟩, hp, rfl⟩
    obtain rfl := key_of_get hp
    exact hp
  · intro h
    exact ⟨_, h, rfl⟩

theorem get?_erase : (m.erase k).get? k' = if k' = k then none else m.get? k' := by
  rw [erase, get?_filter]
  by_cases h : k' = k <;> simp [h]

theorem length_erase_lt (h : m.get? k = some v) : (m.erase k).entries.length < m.entries.length :=
  List.length_filter_lt_length_iff_exists.mpr ⟨(k, v), get?_eq_some.mp h, by simp⟩

theorem mem_values : v ∈ m.values ↔ ∃ k, m.get? k = some v := by
  rw [values, List.mem_map]
  constructor
  · rintro ⟨⟨k, v⟩, hp, rfl⟩
    exact ⟨k, get?_eq_some.mpr hp⟩
  · rintro ⟨k, hv⟩
    exact ⟨_, get?_eq_some.mp hv, rfl⟩

theorem mem_values_insert (h : v' ∈ (m.insert k v).values) : v' = v ∨ v' ∈ m.values := by
  obtain ⟨e, he, rfl⟩ := List.mem_map.mp h
  rcases SortedList.mem_insert he with rfl | he
  · exact .inl rfl
  · exact .inr <| List.mem_map_of_mem he

theorem nodup_keys (m : SortedMap α β) : m.keys.Nodup :=
  (List.pairwise_map.mpr m.sorted).imp ne_of_lt

theorem mem_keys : k ∈ m.keys ↔ (m.get? k).isSome := by
  rw [keys, List.mem_map, Option.isSome_iff_exists]
  constructor
  · rintro ⟨⟨k, v⟩, hp, rfl⟩
    exact ⟨v, get?_eq_some.mpr hp⟩
  · rintro ⟨v, hv⟩
    exact ⟨_, get?_eq_some.mp hv, rfl⟩

theorem mem_keys_insert : k' ∈ (m.insert k v).keys ↔ k' = k ∨ k' ∈ m.keys := by
  rw [mem_keys, mem_keys, get?_insert]
  by_cases h : k = k'
  case pos => simp [h]
  case neg => simp [h, Ne.symm h]

theorem mem_keys_filter (p : α → Bool) : k ∈ (m.filter p).keys ↔ k ∈ m.keys ∧ p k := by
  rw [mem_keys, mem_keys, get?_filter]
  by_cases h : p k <;> simp [h]

theorem le_of_last (h : m.entries = l ++ [(k, v)]) (hk : k' ∈ m.keys) : k' ≤ k := by
  have hs := m.sorted
  rw [keys, h] at hk
  obtain ⟨p, hp, rfl⟩ := List.mem_map.mp hk
  rcases List.mem_append.mp hp with hp | hp
  · exact ((List.pairwise_append.mp (h ▸ hs)).2.2 p hp _ (List.mem_singleton_self _)).le
  · exact (congrArg Prod.fst (List.mem_singleton.mp hp)).le

theorem ext_get? (h : ∀ k, m.get? k = m'.get? k) : m = m' := by
  refine SortedMap.ext <| m.sorted.ext m'.sorted fun k => Option.ext fun p => ?_
  constructor <;> intro hp <;> obtain rfl := key_of_get hp
  · exact m'.sorted.mem_iff.mp <| get?_eq_some.mp <| h _ ▸ get?_eq_some.mpr (mem_of_get hp)
  · exact m.sorted.mem_iff.mp <| get?_eq_some.mp <| h _ ▸ get?_eq_some.mpr (mem_of_get hp)

-- Inserting the entries of a map in their order builds it up again.
theorem entries_foldl_insert (h : SortedList.Sorted Prod.fst (m.entries ++ l)) :
    (l.foldl (fun m p => m.insert p.1 p.2) m).entries = m.entries ++ l := by
  induction l generalizing m
  case nil => exact (List.append_nil _).symm
  case cons p l hi =>
    have hp : ∀ q ∈ m.entries, q.1 < p.1 := fun q hq =>
      (List.pairwise_append.mp h).2.2 q hq p List.mem_cons_self
    have he : (m.insert p.1 p.2).entries = m.entries ++ [p] := SortedList.insert_eq_append hp
    rw [List.append_cons, ← he] at h
    rw [List.foldl_cons, hi h, he, ← List.append_cons]

theorem get?_foldl_insert_map {γ : Type*} (f : α → β → γ) :
    ((m.entries.map fun e => (e.1, f e.1 e.2)).foldl (fun m e => m.insert e.1 e.2)
      (∅ : SortedMap α γ)).get? k = (m.get? k).map (f k) := by
  have hs : Sorted Prod.fst (m.entries.map fun e => (e.1, f e.1 e.2)) :=
    m.sorted.map fun _ => rfl
  have hg : get Prod.fst (m.entries.map fun e => (e.1, f e.1 e.2)) k = _ :=
    get_map fun _ => rfl
  rw [get?, entries_foldl_insert (m := ∅) hs, get?, Option.map_map]
  refine (congrArg _ hg).trans ?_
  cases h : get Prod.fst m.entries k
  case none => rfl
  case some e => exact congrArg some <| congrArg (f · e.2) (key_of_get h)

theorem foldl_insert_entries (m : SortedMap α β) :
    m.entries.foldl (fun m p => m.insert p.1 p.2) ∅ = m :=
  SortedMap.ext <| entries_foldl_insert m.sorted

theorem insert_comm (h : k ≠ k') : (m.insert k v).insert k' v' = (m.insert k' v').insert k v := by
  refine ext_get? fun a => ?_
  simp only [get?_insert]
  split
  case isTrue ha => rw [if_neg (ha ▸ h)]
  case isFalse ha => rfl

-- The order does not matter, since the keys differ.
theorem foldl_insert_perm {l : List (α × β)} (h : l.Perm m.entries) :
    l.foldl (fun m p => m.insert p.1 p.2) ∅ = m := by
  refine (h.foldl_eq' (fun p hp q hq m' => ?_) ∅).trans m.foldl_insert_entries
  by_cases heq : p = q
  case pos => rw [heq]
  case neg =>
    refine insert_comm fun hk => heq ?_
    have hp := get?_eq_some.mpr (h.mem_iff.mp hp)
    have hq := get?_eq_some.mpr (h.mem_iff.mp hq)
    exact Prod.ext hk <| Option.some.inj <| hp.symm.trans (hk ▸ hq)

end SortedMap
