import Mathlib.Data.List.Perm.Basic

-- Finite maps whose keys are compared by `==`, and the lists of entries that represent them.
namespace FiniteMap

open List

structure Entry (K V : Type*) where
  key : K
  value : V

variable {K V : Type*} [BEq K]

def insert (m : K → Option V) (key : K) (value : V) : K → Option V :=
  fun k => if key == k then some value else m k

def erase (m : K → Option V) (key : K) : K → Option V :=
  fun k => if key == k then none else m k

def modify (m : K → Option V) (key : K) (f : V → V) : K → Option V :=
  fun k => if key == k then (m k).map f else m k

-- A list of the bound keys that has each of them once.
structure IsKeys (m : K → Option V) (keys : List K) : Prop where
  distinct : keys.Pairwise fun a b => (a == b) = false
  bound : ∀ k, (m k).isSome ↔ ∃ key ∈ keys, key == k

def lookup (entries : List (Entry K V)) (key : K) : Option V :=
  (entries.find? (·.key == key)).map (·.value)

structure Represents (entries : List (Entry K V)) (m : K → Option V) : Prop where
  distinct : entries.Pairwise fun a b => (a.key == b.key) = false
  lookup : lookup entries = m

variable {entries rest : List (Entry K V)} {e : Entry K V} {m : K → Option V} {key : K}

theorem lookup_cons :
    lookup (e :: rest) key = if e.key == key then some e.value else lookup rest key := by
  rw [lookup, find?_cons]
  cases e.key == key <;> rfl

theorem lookup_eq_none_iff : lookup entries key = none ↔ ∀ e ∈ entries, (e.key == key) = false := by
  simp [lookup]

theorem isSome_lookup_iff : (lookup entries key).isSome ↔ ∃ e ∈ entries, e.key == key := by
  simp [lookup]

theorem Represents.get (hr : Represents (e :: rest) m) (h : e.key == key) :
    m key = some e.value := by
  rw [← hr.lookup, lookup_cons, if_pos h]

theorem Represents.get_none (hr : Represents entries m)
    (h : ∀ e ∈ entries, (e.key == key) = false) : m key = none := by
  rw [← hr.lookup, lookup_eq_none_iff]
  exact h

theorem Represents.isKeys (hr : Represents entries m) : IsKeys m (entries.map (·.key)) where
  distinct := pairwise_map.mpr hr.distinct
  bound k := by
    rw [← hr.lookup, isSome_lookup_iff]
    simp

section Lawful

variable [EquivBEq K]

theorem lookup_congr (h : key == key') : lookup entries key = lookup entries key' := by
  simp only [lookup, BEq.congr_right h]

theorem lookup_of_mem (hd : entries.Pairwise fun a b => (a.key == b.key) = false) (hm : e ∈ entries)
    (h : e.key == key) : lookup entries key = some e.value := by
  induction hd
  case nil => cases hm
  case cons a rest ha _ hi =>
    rw [lookup_cons]
    rcases mem_cons.mp hm with rfl | hm
    case inl => rw [if_pos h]
    case inr =>
      have hne : (a.key == key) = false := (BEq.congr_right h).symm.trans (ha e hm)
      rw [hne, if_neg Bool.false_ne_true, hi hm]

theorem distinct_perm (h : entries.Perm rest) :
    (entries.Pairwise fun a b => (a.key == b.key) = false) ↔
      rest.Pairwise fun a b => (a.key == b.key) = false :=
  h.pairwise_iff fun hab => BEq.comm.trans hab

theorem Represents.perm (hr : Represents entries m) (h : entries.Perm rest) :
    Represents rest m where
  distinct := (distinct_perm h).mp hr.distinct
  lookup := by
    rw [← hr.lookup]
    funext key
    cases hl : FiniteMap.lookup entries key
    case none =>
      rw [lookup_eq_none_iff] at hl ⊢
      exact fun e he => hl e (h.mem_iff.mpr he)
    case some value =>
      obtain ⟨e, he, hk⟩ := isSome_lookup_iff.mp (Option.isSome_of_eq_some hl)
      rw [← hl, lookup_of_mem hr.distinct he hk]
      exact lookup_of_mem ((distinct_perm h).mp hr.distinct) (h.mem_iff.mp he) hk

theorem Represents.insert_new (hr : Represents entries m)
    (h : ∀ e ∈ entries, (e.key == key) = false) :
    Represents (⟨key, value⟩ :: entries) (insert m key value) where
  distinct := hr.distinct.cons fun e he => BEq.comm.trans (h e he)
  lookup := by
    funext k
    rw [lookup_cons, hr.lookup]
    rfl

section

variable (hr : Represents (e :: rest) m) (h : e.key == key)

include hr h

theorem Represents.modify (f : V → V) :
    Represents (⟨e.key, f e.value⟩ :: rest) (modify m key f) where
  distinct := .cons (fun a ha => rel_of_pairwise_cons hr.distinct ha) hr.distinct.of_cons
  lookup := by
    funext k
    rw [lookup_cons, FiniteMap.modify, ← hr.lookup, lookup_cons, BEq.congr_left h]
    cases key == k <;> rfl

theorem Represents.insert_old : Represents (⟨e.key, value⟩ :: rest) (insert m key value) where
  distinct := .cons (fun a ha => rel_of_pairwise_cons hr.distinct ha) hr.distinct.of_cons
  lookup := by
    funext k
    rw [lookup_cons, insert, ← hr.lookup, lookup_cons, BEq.congr_left h]
    cases key == k <;> rfl

theorem Represents.erase : Represents rest (erase m key) where
  distinct := hr.distinct.of_cons
  lookup := by
    funext k
    rw [FiniteMap.erase, ← hr.lookup, lookup_cons, BEq.congr_left h]
    split
    case isTrue hk =>
      refine lookup_eq_none_iff.mpr fun a ha => ?_
      rw [← BEq.congr_right (BEq.trans h hk), BEq.comm]
      exact rel_of_pairwise_cons hr.distinct ha
    case isFalse => rfl

end

theorem Represents.erase_none (hr : Represents entries m)
    (h : ∀ e ∈ entries, (e.key == key) = false) : FiniteMap.erase m key = m := by
  funext k
  rw [FiniteMap.erase]
  split
  case isTrue hk => rw [← hr.get_none h, ← hr.lookup, lookup_congr hk]
  case isFalse => rfl

theorem Represents.modify_none (hr : Represents entries m) (f : V → V)
    (h : ∀ e ∈ entries, (e.key == key) = false) : FiniteMap.modify m key f = m := by
  funext k
  rw [FiniteMap.modify]
  split
  case isTrue hk => rw [← hr.lookup, ← lookup_congr hk, hr.lookup, hr.get_none h, Option.map_none]
  case isFalse => rfl

theorem length_le_of_matched {keys keys' : List K}
    (hd : keys.Pairwise fun a b => (a == b) = false) (h : ∀ a ∈ keys, ∃ b ∈ keys', b == a) :
    keys.length ≤ keys'.length := by
  induction hd generalizing keys'
  case nil => exact Nat.zero_le _
  case cons a keys ha _ hi =>
    obtain ⟨b, hb, hba⟩ := h a (mem_cons_self ..)
    obtain ⟨s, t, rfl⟩ := append_of_mem hb
    -- The other keys are matched by what is left without `b`.
    have hle : keys.length ≤ (s ++ t).length := hi fun c hc => by
      obtain ⟨d, hd, hdc⟩ := h c (mem_cons_of_mem _ hc)
      refine ⟨d, ?_, hdc⟩
      have hne : d ≠ b := by
        rintro rfl
        exact Bool.false_ne_true <| (ha c hc).symm.trans (BEq.trans (BEq.symm hba) hdc)
      simpa [hne] using hd
    simp only [length_append, length_cons] at hle ⊢
    omega

theorem IsKeys.length_eq {keys keys' : List K} (h : IsKeys m keys) (h' : IsKeys m keys') :
    keys.length = keys'.length := by
  have hle {keys keys' : List K} (h : IsKeys m keys) (h' : IsKeys m keys') :
      keys.length ≤ keys'.length :=
    length_le_of_matched h.distinct fun a ha =>
      (h'.bound a).mp <| (h.bound a).mpr ⟨a, ha, BEq.refl a⟩
  exact Nat.le_antisymm (hle h h') (hle h' h)

end Lawful

end FiniteMap
