import AppliedCs.Cache.Dict
import AppliedCs.Lib.Refinement

namespace Cache

open List
open FiniteMap (Entry)

variable {K V : Type}

namespace Chain

variable [BEq K] {chain : Chain K V}

theorem find_eq_modify (chain : Chain K V) (key : K) (f : V → V) :
    chain.find key = (chain.modify key f).map (·.1) := by
  induction chain
  case nil => rfl
  case cons e next hi =>
    rw [find, modify, hi]
    split
    case isTrue => rfl
    case isFalse => rw [Option.map_map]; rfl

-- A search through a chain either finds no entry with the key or takes one out and puts others in
-- its place.
inductive Outcome (chain : Chain K V) (key : K) (put : Entry K V → Chain K V) :
    Option (V × Chain K V) → Prop
  | missing (h : ∀ e ∈ chain, (e.key == key) = false) : Outcome chain key put none
  | found {e : Entry K V} {rest chain' : Chain K V} (hk : e.key == key)
    (hc : chain.Perm (e :: rest)) (hp : chain'.Perm (put e ++ rest)) :
    Outcome chain key put (some (e.value, chain'))

theorem Outcome.cons (h : Outcome chain key put r) (ha : (a.key == key) = false) :
    Outcome (a :: chain) key put (r.map fun p => (p.1, a :: p.2)) := by
  cases h
  case missing h => exact .missing <| forall_mem_cons.mpr ⟨ha, h⟩
  case found hk hc hp =>
    exact .found hk ((hc.cons a).trans (.swap ..)) ((hp.cons a).trans perm_middle.symm)

theorem modify_outcome (chain : Chain K V) :
    Outcome chain key (fun e => [⟨e.key, f e.value⟩]) (chain.modify key f) := by
  induction chain
  case nil => exact .missing nofun
  case cons e next hi =>
    rw [modify]
    split
    case isTrue h => exact .found h (.refl _) (.refl _)
    case isFalse h => exact hi.cons (Bool.eq_false_iff.mpr h)

theorem remove_outcome (chain : Chain K V) :
    Outcome chain key (fun _ => []) (chain.remove key) := by
  induction chain
  case nil => exact .missing nofun
  case cons e next hi =>
    rw [remove]
    split
    case isTrue h => exact .found h (.refl _) (.refl _)
    case isFalse h => exact hi.cons (Bool.eq_false_iff.mpr h)

end Chain

namespace HashTable

def entries (t : HashTable K V) : List (Entry K V) :=
  t.buckets.flatten

theorem entries_withSize {size : ℕ} : (withSize size : HashTable K V).entries = [] := by
  simp [entries, withSize]

theorem size_withSize_ne {size : ℕ} : (withSize size : HashTable K V).size ≠ 0 :=
  Nat.pos_iff_ne_zero.mp <| Nat.pos_of_isPowerOfTwo <| Nat.isPowerOfTwo_nextPowerOfTwo size

variable [Hashable K] {t : HashTable K V}

structure Valid (t : HashTable K V) : Prop where
  length : t.buckets.length = t.size
  mask : t.mask = t.size - 1
  used : t.used = t.entries.length
  placed : ∀ i chain, t.buckets[i]? = some chain → ∀ e ∈ chain, t.index e.key = i

theorem valid_new : (new : HashTable K V).Valid where
  length := rfl
  mask := rfl
  used := rfl
  placed := nofun

theorem valid_withSize {size : ℕ} : (withSize size : HashTable K V).Valid where
  length := length_replicate
  mask := rfl
  used := by rw [entries_withSize]; rfl
  placed := fun i chain h e he => by
    obtain ⟨_, rfl⟩ := List.getElem?_eq_some_iff.mp h
    simp [withSize] at he

theorem Valid.index_lt (hv : t.Valid) (hs : t.size ≠ 0) (key : K) : t.index key < t.size := by
  rw [index, hv.mask]
  exact Nat.lt_of_le_of_lt Nat.and_le_right (Nat.sub_one_lt hs)

-- The bucket `i` and the entries of the others.
structure SplitAt (t : HashTable K V) (i : ℕ) (chain rest : Chain K V) : Prop where
  bucket : t.buckets[i]? = some chain
  set : ∀ chain', (t.buckets.set i chain').flatten.Perm (chain' ++ rest)
  here : ∀ e ∈ chain, t.index e.key = i
  other : ∀ e ∈ rest, t.index e.key ≠ i

theorem SplitAt.entries (hs : t.SplitAt i chain rest) : t.entries.Perm (chain ++ rest) := by
  have h := hs.set chain
  obtain ⟨_, rfl⟩ := List.getElem?_eq_some_iff.mp hs.bucket
  rwa [set_getElem_self] at h

theorem Valid.splitAt (hv : t.Valid) (hi : i < t.size) : ∃ chain rest, t.SplitAt i chain rest := by
  have hi := hv.length.symm ▸ hi
  have hd (i' : ℕ) : ∀ chain ∈ t.buckets[i']?, ∀ e ∈ chain, t.index e.key = i' := hv.placed i'
  refine ⟨t.buckets[i], (t.buckets.take i ++ t.buckets.drop (i + 1)).flatten,
    getElem?_eq_getElem hi, fun chain' => ?_, hd i _ (getElem?_eq_getElem hi),
    fun e he heq => ?_⟩
  · rw [set_eq_take_append_cons_drop, if_pos hi, flatten_append, flatten_cons,
      flatten_append, ← append_assoc, ← append_assoc]
    exact perm_append_comm.append_right _
  · obtain ⟨chain, hc, he⟩ := mem_flatten.mp he
    rcases mem_append.mp hc with hc | hc
    case inl =>
      obtain ⟨j, hj, rfl⟩ := mem_take_iff_getElem.mp hc
      have := hd j _ (getElem?_eq_getElem _) e he
      omega
    case inr =>
      obtain ⟨j, hj, rfl⟩ := mem_drop_iff_getElem.mp hc
      have := hd (i + 1 + j) _ (getElem?_eq_getElem _) e he
      omega

theorem SplitAt.valid_set {used : ℕ} (hs : t.SplitAt i chain rest) (hv : t.Valid)
    (h : ∀ e ∈ chain', t.index e.key = i) (hu : used + chain.length = t.used + chain'.length) :
    Valid { t with buckets := t.buckets.set i chain', used } where
  length := length_set.trans hv.length
  mask := hv.mask
  used := by
    have h₁ := hs.entries.length_eq
    have h₂ := (hs.set chain').length_eq
    rw [length_append] at h₁ h₂
    have := hv.used
    change used = (t.buckets.set i chain').flatten.length
    omega
  placed := fun j c hc e he => by
    change t.index e.key = j
    by_cases hj : i = j
    case pos =>
      obtain ⟨hlt, -⟩ := List.getElem?_eq_some_iff.mp hs.bucket
      subst hj
      rw [getElem?_set_self hlt] at hc
      cases hc
      exact h e he
    case neg =>
      rw [getElem?_set_ne hj] at hc
      exact hv.placed j c hc e he

theorem push_spec (hv : t.Valid) (hs : t.size ≠ 0) (e : Entry K V) : ∃ t', t.push e = some t' ∧
    t'.Valid ∧ t'.size ≠ 0 ∧ t'.entries.Perm (e :: t.entries) := by
  obtain ⟨chain, rest, hsp⟩ := hv.splitAt (hv.index_lt hs e.key)
  refine ⟨_, by rw [push, hsp.bucket]; rfl, hsp.valid_set hv ?_ ?_, hs, ?_⟩
  · exact forall_mem_cons.mpr ⟨rfl, hsp.here⟩
  · rw [length_cons]; omega
  · exact (hsp.set _).trans (hsp.entries.symm.cons e)

theorem pushAll_spec (hv : t.Valid) (hs : t.size ≠ 0) (chain : Chain K V) :
    ∃ t', chain.foldlM push t = some t' ∧
      t'.Valid ∧ t'.size ≠ 0 ∧ t'.entries.Perm (chain ++ t.entries) := by
  induction chain generalizing t
  case nil => exact ⟨t, rfl, hv, hs, .refl _⟩
  case cons e next hi =>
    obtain ⟨t₁, h₁, hv₁, hs₁, hp₁⟩ := push_spec hv hs e
    obtain ⟨t₂, h₂, hv₂, hs₂, hp₂⟩ := hi hv₁ hs₁
    refine ⟨t₂, by rw [foldlM_cons, h₁]; exact h₂, hv₂, hs₂, ?_⟩
    exact hp₂.trans <| (hp₁.append_left next).trans perm_middle

theorem Valid.entries_of_size (hv : t.Valid) (hs : t.size = 0) : t.entries = [] := by
  rw [entries, eq_nil_of_length_eq_zero (hv.length.trans hs)]
  rfl

theorem prepare_spec (hv : t.Valid) :
    t.prepare.Valid ∧ t.prepare.size ≠ 0 ∧ t.prepare.entries = t.entries := by
  rw [prepare]
  split
  case isTrue hs =>
    exact ⟨valid_withSize, size_withSize_ne, entries_withSize.trans (hv.entries_of_size hs).symm⟩
  case isFalse hs => exact ⟨hv, hs, rfl⟩

section Search

variable [BEq K]

theorem find_eq_modify (t : HashTable K V) (key : K) (f : V → V) :
    t.find key = (t.modify key f).map fun r => r.map (·.1) := by
  rw [find, modify]
  split
  case isTrue => rfl
  cases t.buckets[t.index key]?
  case none => rfl
  case some chain =>
    change some (chain.find key) = some (((chain.modify key f).map _).map _)
    rw [chain.find_eq_modify key f, Option.map_map]
    rfl

variable [LawfulHashable K]

theorem index_congr (h : key == key') : t.index key = t.index key' := by
  rw [index, index, hash_eq h]

-- What a search for a key does to a table, with what it puts in the place of an entry.
inductive Outcome (t : HashTable K V) (key : K) (put : Entry K V → Chain K V) :
    Option (Option (V × HashTable K V)) → Prop
  | missing (h : ∀ e ∈ t.entries, (e.key == key) = false) : Outcome t key put (some none)
  | found {e : Entry K V} {rest : Chain K V} {t' : HashTable K V} (hk : e.key == key)
    (ht : t.entries.Perm (e :: rest)) (hp : t'.entries.Perm (put e ++ rest)) (hv : t'.Valid)
    (hs : t'.size = t.size) (hi : ∀ k, t'.index k = t.index k) :
    Outcome t key put (some (some (e.value, t')))

theorem Valid.outcome {r : Chain K V → Option (V × Chain K V)} {used : ℕ} (hv : t.Valid)
    (hc : ∀ chain, Chain.Outcome chain key put (r chain)) (hput : ∀ e, ∀ a ∈ put e, a.key = e.key)
    (hu : 0 < t.used → ∀ e, used + 1 = t.used + (put e).length) :
    Outcome t key put (if t.size = 0 then some none else do
      let chain ← t.buckets[t.index key]?
      return (r chain).map fun p =>
        (p.1, { t with buckets := t.buckets.set (t.index key) p.2, used })) := by
  split
  case isTrue hs =>
    refine .missing ?_
    rw [hv.entries_of_size hs]
    nofun
  case isFalse hs =>
    obtain ⟨chain, rest, hsp⟩ := hv.splitAt (hv.index_lt hs key)
    rw [hsp.bucket]
    have h := hc chain
    generalize hr : r chain = x at h
    simp only [Option.bind_eq_bind, Option.bind_some, hr]
    cases h
    case missing h =>
      refine .missing fun e he => ?_
      rcases mem_append.mp (hsp.entries.mem_iff.mp he) with he | he
      case inl => exact h e he
      case inr =>
        -- An entry with an equal key would be in this bucket.
        exact Bool.eq_false_iff.mpr fun hk => hsp.other e he (index_congr hk)
    case found e rest' chain' hk hcp hp =>
      have ht : t.entries.Perm (e :: (rest' ++ rest)) := hsp.entries.trans (hcp.append_right rest)
      refine .found hk ht ?_ (hsp.valid_set hv (fun a ha => ?_) ?_) rfl fun _ => rfl
      · rw [← append_assoc]
        exact (hsp.set chain').trans (hp.append_right rest)
      · rcases mem_append.mp (hp.mem_iff.mp ha) with ha | ha
        case inl => rw [hput e a ha, index_congr hk]
        case inr => exact hsp.here a <| hcp.mem_iff.mpr <| mem_cons_of_mem _ ha
      · have := hu (by rw [hv.used, ht.length_eq]; exact Nat.succ_pos _) e
        have := hcp.length_eq
        have := hp.length_eq
        simp only [length_cons, length_append] at *
        omega

theorem Valid.modify_outcome (hv : t.Valid) :
    Outcome t key (fun e => [⟨e.key, f e.value⟩]) (t.modify key f) :=
  hv.outcome (fun chain => chain.modify_outcome) (by simp) (fun _ _ => rfl)

theorem Valid.remove_outcome (hv : t.Valid) : Outcome t key (fun _ => []) (t.remove key) :=
  hv.outcome (fun chain => chain.remove_outcome) (by simp) (fun h _ => Nat.sub_add_cancel h)

end Search

end HashTable

open HashTable

namespace Dict

variable {d : Dict K V}

def entries (d : Dict K V) : List (Entry K V) :=
  d.table₀.entries ++ d.table₁.entries

theorem iterKeys_eq : d.iterKeys = d.entries.map (·.key) := by
  rw [iterKeys, entries, flatMap, HashTable.entries, HashTable.entries, ← flatten_append,
    map_flatten]

variable [Hashable K]

-- While the entries are moved, the buckets below the index are empty.
structure Inv (d : Dict K V) : Prop where
  valid₀ : d.table₀.Valid
  valid₁ : d.table₁.Valid
  idle : d.rehashIdx = none → d.table₁.entries = []
  busy : ∀ idx ∈ d.rehashIdx, d.table₁.size ≠ 0 ∧ ∀ e ∈ d.table₀.entries, idx ≤ d.table₀.index e.key

theorem inv_new : (new : Dict K V).Inv where
  valid₀ := valid_new
  valid₁ := valid_new
  idle _ := rfl
  busy := nofun

theorem expandIfNeeded_spec (hi : d.Inv) :
    d.expandIfNeeded.Inv ∧ d.expandIfNeeded.entries = d.entries := by
  rw [expandIfNeeded]
  split
  case isTrue => exact ⟨hi, rfl⟩
  case isFalse hr =>
    split
    case isTrue => exact ⟨hi, rfl⟩
    split
    case isFalse => exact ⟨hi, rfl⟩
    have hn : d.rehashIdx = none := by simpa [isRehashing] using hr
    refine ⟨⟨hi.valid₀, valid_withSize, nofun, fun idx h => ?_⟩, ?_⟩
    · cases h
      exact ⟨size_withSize_ne, fun _ _ => Nat.zero_le _⟩
    · rw [entries, entries, entries_withSize, hi.idle hn]

theorem moveBuckets_spec {t₁ : HashTable K V} (moved : ℕ) (hv₀ : t₀.Valid) (hv₁ : t₁.Valid)
    (hs : t₁.size ≠ 0) (hi : ∀ e ∈ t₀.entries, idx ≤ t₀.index e.key) :
    ∃ r, moveBuckets t₀ t₁ idx moved = some r ∧ r.1.Valid ∧ r.2.1.Valid ∧ r.2.1.size ≠ 0 ∧
      (∀ e ∈ r.1.entries, r.2.2 ≤ r.1.index e.key) ∧
      (r.1.entries ++ r.2.1.entries).Perm (t₀.entries ++ t₁.entries) := by
  fun_induction moveBuckets t₀ t₁ idx moved
  case case1 t₀ t₁ idx moved hlt ih =>
    obtain ⟨chain, rest, hsp⟩ := hv₀.splitAt hlt.2
    obtain ⟨t₁', h₁, hv₁', hs', hp⟩ := pushAll_spec hv₁ hs chain
    rw [hsp.bucket]
    simp only [Option.bind_eq_bind, Option.bind_some, h₁]
    have hlen : t₀.used - chain.length + chain.length = t₀.used + ([] : Chain K V).length := by
      have := hv₀.used
      have := hsp.entries.length_eq
      simp only [length_append, length_nil] at *
      omega
    have hv₀' := hsp.valid_set hv₀ (fun e he => absurd he not_mem_nil) hlen
    have hrest := hsp.set []
    obtain ⟨r, hr, hvr₀, hvr₁, hsr, hir, hpr⟩ := ih chain t₁' hv₀' hv₁' hs' fun e he => by
      -- What is left is above the index and not in the bucket that was moved.
      have he := hrest.mem_iff.mp he
      have hle := hi e (hsp.entries.mem_iff.mpr <| mem_append_right _ he)
      exact Nat.lt_of_le_of_ne hle (hsp.other e he).symm
    refine ⟨r, hr, hvr₀, hvr₁, hsr, hir, hpr.trans ?_⟩
    calc
      List.Perm _ (rest ++ (chain ++ t₁.entries)) := hrest.append hp
      List.Perm _ (chain ++ rest ++ t₁.entries) := by
        rw [← append_assoc]
        exact perm_append_comm.append_right _
      List.Perm _ (t₀.entries ++ t₁.entries) := hsp.entries.symm.append_right _
  case case2 =>
    exact ⟨_, rfl, hv₀, hv₁, hs, hi, .refl _⟩

theorem rehashStep_spec (hi : d.Inv) :
    ∃ d', d.rehashStep = some d' ∧ d'.Inv ∧ d'.entries.Perm d.entries := by
  cases hr : d.rehashIdx
  case none => exact ⟨d, by rw [rehashStep, hr], hi, .refl _⟩
  case some idx =>
    have ⟨hs, hle⟩ := hi.busy idx hr
    obtain ⟨r, hm, hv₀, hv₁, hs, hle, hp⟩ := moveBuckets_spec 0 hi.valid₀ hi.valid₁ hs hle
    rw [rehashStep, hr]
    simp only [hm, Option.bind_eq_bind, Option.bind_some]
    split
    case isTrue hge =>
      -- All buckets are empty by now, so that nothing is lost with the first table.
      have hnil : r.1.entries = [] := by
        by_cases hz : r.1.size = 0
        case pos => exact hv₀.entries_of_size hz
        case neg =>
          refine eq_nil_iff_forall_not_mem.mpr fun e he => ?_
          exact absurd (hv₀.index_lt hz e.key) (Nat.not_lt.mpr <| Nat.le_trans hge (hle e he))
      refine ⟨_, rfl, ⟨hv₁, valid_new, fun _ => rfl, nofun⟩, ?_⟩
      rw [hnil] at hp
      change (r.2.1.entries ++ []).Perm d.entries
      rwa [append_nil]
    case isFalse =>
      refine ⟨_, rfl, ⟨hv₀, hv₁, nofun, fun idx h => ?_⟩, hp⟩
      cases h
      exact ⟨hs, hle⟩

theorem not_rehashing (hi : d.Inv) (h : ¬ d.isRehashing) : d.table₁.entries = [] :=
  hi.idle <| by simpa [isRehashing] using h

theorem insertNew_spec [BEq K] (hi : d.Inv) (key : K) (value : V) :
    ∃ d', d.insertNew key value = some d' ∧
    d'.Inv ∧ d'.entries.Perm (⟨key, value⟩ :: d.entries) := by
  rw [insertNew]
  split
  case isTrue hr =>
    obtain ⟨hv, hs, he⟩ := prepare_spec hi.valid₁
    obtain ⟨t, ht, hvt, hst, hp⟩ := push_spec hv hs ⟨key, value⟩
    refine ⟨{ d with table₁ := t }, by rw [ht]; rfl,
      ⟨hi.valid₀, hvt, fun h => ?_, fun idx h => ?_⟩, ?_⟩
    · simp [isRehashing, show d.rehashIdx = none from h] at hr
    · exact ⟨hst, (hi.busy idx h).2⟩
    · rw [he] at hp
      exact (hp.append_left _).trans perm_middle
  case isFalse hr =>
    obtain ⟨hv, hs, he⟩ := prepare_spec hi.valid₀
    obtain ⟨t, ht, hvt, hst, hp⟩ := push_spec hv hs ⟨key, value⟩
    refine ⟨{ d with table₀ := t }, by rw [ht]; rfl, ⟨hvt, hi.valid₁, hi.idle, fun idx h => ?_⟩, ?_⟩
    · simp [isRehashing, show d.rehashIdx = some idx from h] at hr
    · rw [he] at hp
      exact hp.append_right _

section Search

variable [BEq K]

-- The same for the two tables together.
inductive Outcome (d : Dict K V) (key : K) (put : Entry K V → Chain K V) :
    Option (Option (V × Dict K V)) → Prop
  | missing (h : ∀ e ∈ d.entries, (e.key == key) = false) : Outcome d key put (some none)
  | found {e : Entry K V} {rest : Chain K V} {d' : Dict K V} (hk : e.key == key)
    (hd : d.entries.Perm (e :: rest)) (hp : d'.entries.Perm (put e ++ rest)) (hi : d'.Inv) :
    Outcome d key put (some (some (e.value, d')))

theorem Inv.outcome (hi : d.Inv) (hput : ∀ e, ∀ a ∈ put e, a.key = e.key)
    (hs : ∀ {t : HashTable K V}, t.Valid → HashTable.Outcome t key put (search t)) :
    Outcome d key put (d.inTables search) := by
  have h₀ := hs hi.valid₀
  have h₁ := hs hi.valid₁
  rw [inTables]
  generalize search d.table₀ = r₀ at h₀
  generalize search d.table₁ = r₁ at h₁
  cases h₀
  case found e rest t' hk ht hp hv hst hix =>
    have hd : d.entries.Perm (e :: (rest ++ d.table₁.entries)) := ht.append_right _
    refine .found hk hd ?_
      ⟨hv, hi.valid₁, hi.idle, fun idx h => ⟨(hi.busy idx h).1, fun a ha => ?_⟩⟩
    · rw [← append_assoc]
      exact hp.append_right _
    · have hle := (hi.busy idx h).2
      rw [hix]
      rcases mem_append.mp (hp.mem_iff.mp ha) with ha | ha
      case inl => exact hput e a ha ▸ hle e (ht.mem_iff.mpr <| mem_cons_self ..)
      case inr => exact hle a (ht.mem_iff.mpr <| mem_cons_of_mem _ ha)
  case missing h₀ =>
    split
    case isFalse hr =>
      refine .missing ?_
      rw [entries, not_rehashing hi hr, append_nil]
      exact h₀
    case isTrue hr =>
      cases h₁
      case missing h₁ => exact .missing <| forall_mem_append.mpr ⟨h₀, h₁⟩
      case found e rest t' hk ht hp hv hst hix =>
        have hd : d.entries.Perm (e :: (d.table₀.entries ++ rest)) :=
          (ht.append_left _).trans perm_middle
        refine .found hk hd ?_
          ⟨hi.valid₀, hv, fun h => ?_, fun idx h => ⟨hst ▸ (hi.busy idx h).1, (hi.busy idx h).2⟩⟩
        · refine (hp.append_left _).trans ?_
          rw [← append_assoc, ← append_assoc]
          exact perm_append_comm.append_right _
        · simp [isRehashing, show d.rehashIdx = none from h] at hr

variable [LawfulHashable K]

theorem Inv.modify_outcome (hi : d.Inv) (key : K) (f : V → V) :
    Outcome d key (fun e => [⟨e.key, f e.value⟩]) (d.inTables (·.modify key f)) :=
  hi.outcome (by simp) fun hv => hv.modify_outcome

theorem Inv.remove_outcome (hi : d.Inv) (key : K) :
    Outcome d key (fun _ => []) (d.inTables (·.remove key)) :=
  hi.outcome (by simp) fun hv => hv.remove_outcome

end Search

theorem len_eq (hi : d.Inv) : d.len = d.entries.length := by
  rw [len, entries, length_append, hi.valid₀.used, hi.valid₁.used]

end Dict

open Dict

inductive DictCall (K V : Type)
  | insert (key : K) (value : V)
  | remove (key : K)
  | get (key : K)
  | getMut (key : K) (f : V → V)
  | containsKey (key : K)
  | len
  | iterKeys

inductive DictAnswer (K V : Type)
  | value (value : Option V)
  | flag (flag : Bool)
  | count (count : ℕ)
  | keys (keys : List K)

variable [BEq K] [Hashable K]

def Dict.call (d : Dict K V) : DictCall K V → Option (Dict K V × DictAnswer K V)
  | .insert key value => (d.insert key value).map fun r => (r.1, .value r.2)
  | .remove key => (d.remove key).map fun r => (r.1, .value r.2)
  | .get key => (d.get key).map fun r => (d, .value r)
  | .getMut key f => (d.getMut key f).map fun r => (r.1, .value r.2)
  | .containsKey key => (d.containsKey key).map fun r => (d, .flag r)
  | .len => some (d, .count d.len)
  | .iterKeys => some (d, .keys d.iterKeys)

namespace DictCall

-- What a call does to a finite map and which answers it may give.
omit [Hashable K] in
def apply (m : K → Option V) : DictCall K V → K → Option V
  | insert key value => FiniteMap.insert m key value
  | remove key => FiniteMap.erase m key
  | getMut key f => FiniteMap.modify m key f
  | _ => m

omit [Hashable K] in
def Allows (m : K → Option V) : DictCall K V → DictAnswer K V → Prop
  | insert key _,    .value value => value = m key
  | remove key,      .value value => value = m key
  | get key,         .value value => value = m key
  | getMut key _,    .value value => value = m key
  | containsKey key, .flag flag => flag = (m key).isSome
  | len,             .count count =>
    (∃ keys, FiniteMap.IsKeys m keys) ∧ ∀ keys, FiniteMap.IsKeys m keys → keys.length = count
  | iterKeys,        .keys keys => FiniteMap.IsKeys m keys
  | _,               _ => False

end DictCall

namespace Dict

variable {d : Dict K V}

structure Refines (d : Dict K V) (m : K → Option V) : Prop where
  inv : d.Inv
  represents : FiniteMap.Represents d.entries m

theorem refines_new : (new : Dict K V).Refines fun _ => none where
  inv := inv_new
  represents := ⟨.nil, rfl⟩

theorem get_eq : d.get key = (d.inTables (·.modify key id)).map fun r => r.map (·.1) := by
  rw [get, inTables, HashTable.find_eq_modify _ key id, HashTable.find_eq_modify _ key id]
  split
  case isTrue h =>
    rw [HashTable.modify, HashTable.modify, if_pos h.1, if_pos h.2]
    cases d.isRehashing <;> rfl
  cases d.table₀.modify key id
  case none => rfl
  case some r =>
    cases r
    case some => rfl
    case none =>
      split
      case isFalse => rfl
      case isTrue => cases d.table₁.modify key id with
        | none => rfl
        | some r => cases r <;> rfl

theorem Refines.eq_empty (h : d.Refines m) (hs : d.table₀.size = 0 ∧ d.table₁.size = 0) :
    d.entries = [] := by
  rw [entries, h.inv.valid₀.entries_of_size hs.1, h.inv.valid₁.entries_of_size hs.2]
  rfl

variable [EquivBEq K]

theorem Refines.rehashStep (h : d.Refines m) : ∃ d', d.rehashStep = some d' ∧ d'.Refines m := by
  obtain ⟨d', hd, hi, hp⟩ := rehashStep_spec h.inv
  exact ⟨d', hd, hi, h.represents.perm hp.symm⟩

variable [LawfulHashable K]

theorem Refines.get (h : d.Refines m) : d.get key = some (m key) := by
  rw [get_eq]
  have ho := h.inv.modify_outcome key id
  generalize d.inTables (·.modify key id) = r at ho
  cases ho
  case missing hne => rw [h.represents.get_none hne]; rfl
  case found hk hd _ _ => rw [(h.represents.perm hd).get hk]; rfl

theorem Refines.insert (h : d.Refines m) (key : K) (value : V) :
    ∃ d', d.insert key value = some (d', m key) ∧ d'.Refines (FiniteMap.insert m key value) := by
  obtain ⟨hi, he⟩ := expandIfNeeded_spec h.inv
  have h : d.expandIfNeeded.Refines m := ⟨hi, he ▸ h.represents⟩
  obtain ⟨d, hd, h⟩ := h.rehashStep
  rw [Dict.insert, hd]
  have ho := h.inv.modify_outcome key fun _ => value
  simp only [Option.bind_eq_bind, Option.bind_some]
  generalize d.inTables (·.modify key fun _ => value) = r at ho
  cases ho
  case missing hne =>
    obtain ⟨d', hn, hi, hp⟩ := insertNew_spec h.inv key value
    refine ⟨d', ?_, hi, (h.represents.insert_new hne).perm hp.symm⟩
    rw [h.represents.get_none hne]
    exact congrArg (Option.bind · _) hn
  case found e rest d' hk hd hp hi =>
    have hr := h.represents.perm hd
    exact ⟨d', by rw [hr.get hk]; rfl, hi, (hr.insert_old hk).perm hp.symm⟩

theorem Refines.getMut (h : d.Refines m) (key : K) (f : V → V) :
    ∃ d', d.getMut key f = some (d', m key) ∧ d'.Refines (FiniteMap.modify m key f) := by
  obtain ⟨d, hd, h⟩ := h.rehashStep
  rw [Dict.getMut, hd]
  simp only [Option.bind_eq_bind, Option.bind_some]
  split
  case isTrue hs =>
    have hne : ∀ e ∈ d.entries, (e.key == key) = false := h.eq_empty hs ▸ nofun
    refine ⟨d, by rw [h.represents.get_none hne]; rfl, h.inv, ?_⟩
    rw [h.represents.modify_none f hne]
    exact h.represents
  have ho := h.inv.modify_outcome key f
  generalize d.inTables (·.modify key f) = r at ho
  cases ho
  case missing hne =>
    refine ⟨d, by rw [h.represents.get_none hne]; rfl, h.inv, ?_⟩
    rw [h.represents.modify_none f hne]
    exact h.represents
  case found e rest d' hk hd hp hi =>
    have hr := h.represents.perm hd
    exact ⟨d', by rw [hr.get hk]; rfl, hi, (hr.modify hk f).perm hp.symm⟩

theorem Refines.remove (h : d.Refines m) (key : K) :
    ∃ d', d.remove key = some (d', m key) ∧ d'.Refines (FiniteMap.erase m key) := by
  rw [Dict.remove]
  split
  case isTrue hs =>
    have hne : ∀ e ∈ d.entries, (e.key == key) = false := h.eq_empty hs ▸ nofun
    refine ⟨d, by rw [h.represents.get_none hne], h.inv, ?_⟩
    rw [h.represents.erase_none hne]
    exact h.represents
  obtain ⟨d, hd, h⟩ := h.rehashStep
  have ho := h.inv.remove_outcome key
  simp only [hd, Option.bind_eq_bind, Option.bind_some]
  generalize d.inTables (·.remove key) = r at ho
  cases ho
  case missing hne =>
    refine ⟨d, by rw [h.represents.get_none hne]; rfl, h.inv, ?_⟩
    rw [h.represents.erase_none hne]
    exact h.represents
  case found e rest d' hk hd hp hi =>
    have hr := h.represents.perm hd
    exact ⟨d', by rw [hr.get hk]; rfl, hi, (hr.erase hk).perm hp.symm⟩

theorem Refines.call (c : DictCall K V) (h : d.Refines m) :
    ∃ d' a, d.call c = some (d', a) ∧ c.Allows m a ∧ d'.Refines (c.apply m) := by
  cases c
  case insert key value =>
    obtain ⟨d', hc, h'⟩ := h.insert key value
    exact ⟨d', .value (m key), by rw [Dict.call, hc]; rfl, rfl, h'⟩
  case remove key =>
    obtain ⟨d', hc, h'⟩ := h.remove key
    exact ⟨d', .value (m key), by rw [Dict.call, hc]; rfl, rfl, h'⟩
  case get key =>
    exact ⟨d, .value (m key), by rw [Dict.call, h.get]; rfl, rfl, h⟩
  case getMut key f =>
    obtain ⟨d', hc, h'⟩ := h.getMut key f
    exact ⟨d', .value (m key), by rw [Dict.call, hc]; rfl, rfl, h'⟩
  case containsKey key =>
    exact ⟨d, .flag (m key).isSome, by rw [Dict.call, containsKey, h.get]; rfl, rfl, h⟩
  case len =>
    have hk := h.represents.isKeys
    refine ⟨d, _, rfl, ⟨⟨_, hk⟩, fun keys h' => ?_⟩, h⟩
    rw [h'.length_eq hk, length_map, len_eq h.inv]
  case iterKeys =>
    exact ⟨d, _, rfl, iterKeys_eq ▸ h.represents.isKeys, h⟩

end Dict

-- A dictionary is a finite map, however its entries are on their way from one table to the other.
theorem dict_is_finite_map [EquivBEq K] [LawfulHashable K] (calls : List (DictCall K V)) :
    ∃ d answers, Refinement.run call new calls = some (d, answers) ∧
      Refinement.Answered DictCall.apply DictCall.Allows (fun _ => none) calls answers := by
  obtain ⟨d, answers, hr, ha, -⟩ :=
    Refinement.answered_of_simulation Refines Refines.call refines_new calls
  exact ⟨d, answers, hr, ha⟩

theorem dict_is_finite_map_six : ∃ d answers, Refinement.run call (new : Dict ℕ String)
      [.insert 1 "a", .insert 5 "b", .insert 1 "c", .remove 5, .iterKeys, .len] =
        some (d, answers) ∧
      Refinement.Answered DictCall.apply DictCall.Allows (fun _ => none)
        [.insert 1 "a", .insert 5 "b", .insert 1 "c", .remove 5, .iterKeys, .len] answers :=
  dict_is_finite_map _

end Cache
