import AppliedCs.Cache.Theorems.Server

namespace Cache

open Codec ZSets ZSetObject List Option Score

theorem min_ofNat (h : a ≤ b) (hb : 2 * b < UInt64.size) :
    min (Int64.ofNat a) (.ofNat b) = .ofNat a := by
  have hs : UInt64.size = 18446744073709551616 := rfl
  have hle : Int64.ofNat a ≤ .ofNat b := by
    rw [Int64.le_iff_toInt_le, Int64.toInt_ofNat_of_lt (by omega),
      Int64.toInt_ofNat_of_lt (by omega)]
    exact_mod_cast h
  exact if_pos hle

theorem slice_one {α : Type} {items : List α} (hr : r < items.length)
    (hl : 2 * items.length < UInt64.size) :
    slice items items.length (.ofNat r) (.ofNat r) = some [items[r]] := by
  have hs : UInt64.size = 18446744073709551616 := rfl
  have hn : ¬ Int64.ofNat r < 0 := by
    rw [Int64.lt_iff_toInt_lt, Int64.toInt_ofNat_of_lt (by omega)]
    exact not_lt.mpr (Int.natCast_nonneg r)
  have hsucc : Int64.ofNat r + 1 = .ofNat (r + 1) := (Int64.ofNat_add r 1).symm
  have hu (n : ℕ) (h : n ≤ items.length) : (Int64.ofNat n).toUInt64.toNat = n := by
    simp
    omega
  simp only [slice, if_neg hn, hsucc, min_ofNat hr.le hl, min_ofNat (Nat.succ_le_of_lt hr) hl,
    hu r hr.le, hu (r + 1) hr]
  rw [if_neg (by omega), if_pos (Nat.succ_le_of_lt hr), drop_take]
  simp [take_one, hr]

variable {F : Type}

namespace Database

variable {db : Database F}

-- The database in which a command that creates a value changes it.
def ready (db : Database F) (now : Moment) (key : String) (empty : RedisObject F) : Database F :=
  if (db.current now key).isSome then db.cleared now key
  else { data := (db.cleared now key).data.insert key empty
         expires := (db.cleared now key).expires.erase key }

theorem current_ready : (db.ready now key empty).current now key =
      some ((db.current now key).getD empty) ∧
    (db.ready now key empty).cleared now key = db.ready now key empty := by
  cases hv : db.current now key
  case none =>
    have hx : (db.ready now key empty).isExpired now key = false := by
      simp [isExpired, ready, hv, Finmap.lookup_erase]
    refine ⟨(of_not_expired hx).1.trans ?_, (of_not_expired hx).2⟩
    simp [ready, hv, Finmap.lookup_insert]
  case some value =>
    obtain ⟨-, hc⟩ := of_not_expired (not_expired_of_current hv)
    have hr : db.ready now key empty = db := by simp [ready, hv, hc]
    rw [hr, hc]
    exact ⟨hv, rfl⟩

theorem current_replaced :
    ((db.ready now key empty).replaced key value).current now key = some value := by
  have hx : (db.ready now key empty).isExpired now key = false :=
    not_expired_of_current current_ready.1
  have hx : ((db.ready now key empty).replaced key value).isExpired now key = false := hx
  exact (of_not_expired hx).1.trans (Finmap.lookup_insert _)

theorem create_eq : create now key empty f db =
    some ((f ((db.current now key).getD empty)).elim (wrongType, db.ready now key empty)
      fun r => (r.2, (db.ready now key empty).replaced key r.1)) := by
  have hc : create now key empty f db =
      change now key (.error "ERR key does not exist") f (db.ready now key empty) := by
    show ((get now key db).bind _).bind _ = _
    rw [get_eq, ready]
    cases db.current now key <;> rfl
  rw [hc, change_eq, current_ready.1, current_ready.2]
  rfl

end Database

namespace ZSetObject

variable {z : ZSetObject F} {score : F} {l : List (F × Bytes)}

-- The members that are in the second one only, and those that have another score there.
def newIn (z z' : ZSetObject F) : Finset Bytes :=
  z'.dict.keys \ z.dict.keys

def changedIn [DecidableEq F] (z z' : ZSetObject F) : Finset Bytes :=
  z.dict.keys.filter fun member => z'.dict.lookup member ≠ z.dict.lookup member

theorem mem_newIn : member ∈ newIn z z' ↔
    z'.dict.lookup member ≠ none ∧ z.dict.lookup member = none := by
  simp [newIn, Finmap.mem_keys, Finmap.lookup_eq_none]

theorem mem_changedIn [DecidableEq F] : member ∈ changedIn z z' ↔
    z.dict.lookup member ≠ none ∧ z'.dict.lookup member ≠ z.dict.lookup member := by
  simp [changedIn, Finmap.mem_keys, Finmap.lookup_eq_none]

theorem lookup_add [Score F] : (z.add score member).1.dict.lookup member' =
    if member' = member then some score else z.dict.lookup member' := by
  show (z.dict.insert member score).lookup member' = _
  split
  case isTrue hm => rw [hm, Finmap.lookup_insert]
  case isFalse hm => rw [Finmap.lookup_insert_of_ne _ hm]

variable [LinearOrder F]

-- The two structures agree, and the list is in order.
structure InStep (z : ZSetObject F) : Prop where
  ordered : z.sorted.Pairwise (·.1 ≤ ·.1)
  nodup : (z.sorted.map Prod.snd).Nodup
  mem_iff : ∀ score member, (score, member) ∈ z.sorted ↔ z.dict.lookup member = some score

theorem inStep_empty : InStep ({} : ZSetObject F) where
  ordered := .nil
  nodup := .nil
  mem_iff _ _ := by simp

theorem exists_split (h : l.Pairwise (·.1 ≤ ·.1)) (score : F) :
    ∃ l₁ l₂, l = l₁ ++ l₂ ∧ (∀ e ∈ l₁, e.1 < score) ∧ ∀ e ∈ l₂, score ≤ e.1 := by
  induction l
  case nil => exact ⟨[], [], rfl, by simp, by simp⟩
  case cons e l hi =>
    obtain ⟨he, hl⟩ := pairwise_cons.mp h
    by_cases hlt : e.1 < score
    case pos =>
      obtain ⟨l₁, l₂, rfl, h₁, h₂⟩ := hi hl
      exact ⟨e :: l₁, l₂, rfl, forall_mem_cons.mpr ⟨hlt, h₁⟩, h₂⟩
    case neg =>
      have hle := not_lt.mp hlt
      exact ⟨[], e :: l, rfl, by simp, forall_mem_cons.mpr ⟨hle, fun d hd => hle.trans (he d hd)⟩⟩

theorem InStep.filter_eq (h : z.InStep) (hs : z.dict.lookup member = none) :
    z.sorted.filter (·.2 ≠ member) = z.sorted := by
  refine filter_eq_self.mpr fun e he => decide_eq_true (p := e.2 ≠ member) ?_
  rintro rfl
  cases hs.symm.trans ((h.mem_iff e.1 e.2).mp he)

theorem InStep.len_eq (h : z.InStep) : z.len = z.sorted.length := by
  rw [← length_map Prod.snd, ← toFinset_card_of_nodup h.nodup]
  refine congrArg _ <| Finset.ext fun member => ?_
  simp [Finmap.mem_keys, ← Finmap.lookup_isSome, isSome_iff_exists, h.mem_iff]

end ZSetObject

variable [LinearOrder F]

def RedisObject.InStep : RedisObject F → Prop
  | .zset z => z.InStep
  | _ => True

namespace Database

variable {db : Database F} {f : RedisObject F → Option (RedisObject F × RespValue)}

def InStep (db : Database F) : Prop :=
  ∀ key value, db.data.lookup key = some value → value.InStep

theorem InStep.cleared (h : db.InStep) : (db.cleared now key).InStep := by
  rw [Database.cleared]
  split
  case isFalse => exact h
  case isTrue =>
    intro key' value hv
    by_cases hk : key' = key
    case pos => subst hk; cases (Finmap.lookup_erase _ _).symm.trans hv
    case neg => exact h key' value ((Finmap.lookup_erase_ne hk).symm.trans hv)

theorem InStep.insert {expires : Finmap fun _ : String => ℕ} (h : db.InStep) (hv : value.InStep) :
    InStep { data := db.data.insert key value, expires } := by
  intro key' value' hl
  by_cases hk : key' = key
  case pos =>
    rw [hk, Finmap.lookup_insert] at hl
    exact some.inj hl ▸ hv
  case neg => exact h key' value' (by rwa [Finmap.lookup_insert_of_ne _ hk] at hl)

theorem InStep.ready (h : db.InStep) (he : empty.InStep) : (db.ready now key empty).InStep := by
  rw [Database.ready]
  split
  · exact h.cleared
  · exact h.cleared.insert he

theorem InStep.current (h : db.InStep) (hv : db.current now key = some value) : value.InStep :=
  h key value ((of_not_expired (not_expired_of_current hv)).1.symm.trans hv)

-- There is a result, and every sorted set is as it should be.
def Keeps (m : Action F RespValue) : Prop :=
  ∀ db : Database F, db.InStep → ∃ p, m db = some p ∧ p.2.InStep

theorem Keeps.pure (reply : RespValue) : Keeps (F := F) (pure reply) :=
  fun db h => ⟨(reply, db), rfl, h⟩

theorem Keeps.argument {α : Type} {read : RespValue → Option α} {body : α → Action F RespValue}
    (h : ∀ a, Keeps (body a)) : Keeps (argument read args i text body) := by
  rw [Cache.argument]
  split
  · exact .pure _
  · exact h _

theorem Keeps.keyed {body : String → List RespValue → Action F RespValue}
    (h : ∀ key, Keeps (body key args.tail)) : Keeps (keyed name arity body args) := by
  rw [Cache.keyed]
  split
  · exact .argument h
  · exact .pure _

theorem Keeps.change (hf : ∀ value r, value.InStep → f value = some r → r.1.InStep) :
    Keeps (change now key missing f) := by
  refine fun db h => ⟨_, change_eq, ?_⟩
  cases hv : db.current now key
  case none => exact h.cleared
  case some value =>
    cases hr : f value
    case none => simpa [hr] using h.cleared
    case some r => simpa [hr, replaced] using h.cleared.insert (hf value r (h.current hv) hr)

theorem Keeps.create (he : empty.InStep)
    (hf : ∀ value r, value.InStep → f value = some r → r.1.InStep) :
    Keeps (create now key empty f) := by
  refine fun db h => ⟨_, create_eq, ?_⟩
  have hv : ((db.current now key).getD empty).InStep := by
    cases hv : db.current now key
    case none => exact he
    case some value => exact h.current hv
  cases hr : f ((db.current now key).getD empty)
  case none => exact h.ready he
  case some r => exact (h.ready he).insert (hf _ r hv hr)

end Database

variable [Score F]

-- Scores that are in a total order, and a search for the place behind the smaller ones.
class OrderedScore (F : Type) [Score F] [LinearOrder F] : Prop where
  eq_iff (a b : F) : eq a b = decide (a = b)
  lt_iff (a b : F) : lt a b = decide (a < b)
  partitionPoint_eq (n m : ℕ) :
    partitionPoint F (replicate n true ++ replicate m false) = n

variable [OrderedScore F]

namespace ZSetObject

variable {z : ZSetObject F} {member : Bytes} {score : F}

theorem insertIdx_partitionPoint (h₁ : ∀ e ∈ l₁, e.1 < score) (h₂ : ∀ e ∈ l₂, score ≤ e.1)
    (b : F × Bytes) :
    (l₁ ++ l₂).insertIdx (partitionPoint F ((l₁ ++ l₂).map fun e => lt e.1 score)) b =
      l₁ ++ b :: l₂ := by
  have hm₁ : l₁.map (fun e => lt e.1 score) = replicate l₁.length true :=
    map_eq_replicate_iff.mpr fun e he => by simpa [OrderedScore.lt_iff] using h₁ e he
  have hm₂ : l₂.map (fun e => lt e.1 score) = replicate l₂.length false :=
    map_eq_replicate_iff.mpr fun e he => by simpa [OrderedScore.lt_iff] using h₂ e he
  rw [map_append, hm₁, hm₂, OrderedScore.partitionPoint_eq]
  clear h₁ hm₁
  induction l₁ <;> simp_all

theorem InStep.discard_eq (h : z.InStep) (hs : z.dict.lookup member = some score) :
    discard z.sorted score member = z.sorted.filter (·.2 ≠ member) := by
  refine filter_congr fun e he => ?_
  by_cases hm : e.2 = member
  case neg => simp [hm]
  case pos =>
    have := (h.mem_iff e.1 e.2).mp he
    rw [hm, hs] at this
    simp [OrderedScore.eq_iff, hm, some.inj this]

-- The member is put between the smaller scores and the others.
theorem InStep.add_sorted (h : z.InStep) : ∃ l₁ l₂, z.sorted.filter (·.2 ≠ member) = l₁ ++ l₂ ∧
    (∀ e ∈ l₁, e.1 < score) ∧ (∀ e ∈ l₂, score ≤ e.1) ∧
      (z.add score member).1.sorted = l₁ ++ (score, member) :: l₂ := by
  obtain ⟨l₁, l₂, heq, h₁, h₂⟩ := exists_split (h.ordered.filter (·.2 ≠ member)) score
  refine ⟨l₁, l₂, heq, h₁, h₂, ?_⟩
  rw [add, ← insertIdx_partitionPoint h₁ h₂, ← heq]
  cases hs : z.dict.lookup member
  case none => rw [h.filter_eq hs]
  case some old => rw [← h.discard_eq hs]

theorem InStep.add (h : z.InStep) : (z.add score member).1.InStep := by
  obtain ⟨l₁, l₂, heq, h₁, h₂, hsorted⟩ := @InStep.add_sorted F _ _ _ z member score h
  have hperm : (z.add score member).1.sorted.Perm
      ((score, member) :: z.sorted.filter (·.2 ≠ member)) := by
    rw [hsorted, heq]
    exact perm_middle
  constructor
  case ordered =>
    have hle := h.ordered.filter (·.2 ≠ member)
    rw [heq] at hle
    obtain ⟨hp₁, hp₂, h₁₂⟩ := pairwise_append.mp hle
    rw [hsorted]
    refine pairwise_append.mpr ⟨hp₁, pairwise_cons.mpr ⟨h₂, hp₂⟩, fun a ha => ?_⟩
    exact forall_mem_cons.mpr ⟨(h₁ a ha).le, h₁₂ a ha⟩
  case nodup =>
    rw [(hperm.map _).nodup_iff, map_cons]
    refine nodup_cons.mpr ⟨fun hm => ?_, h.nodup.sublist (filter_sublist.map _)⟩
    obtain ⟨e, he, hm⟩ := mem_map.mp hm
    exact of_decide_eq_true (mem_filter.mp he).2 hm
  case mem_iff =>
    intro score' member'
    rw [hperm.mem_iff, mem_cons, mem_filter, h.mem_iff]
    show _ ↔ (z.dict.insert member score).lookup member' = some score'
    by_cases hm : member' = member
    case pos => subst hm; simp [Finmap.lookup_insert, eq_comm]
    case neg => simp [hm, Finmap.lookup_insert_of_ne]

theorem InStep.remove (h : z.InStep) : (z.remove member).1.InStep := by
  rw [ZSetObject.remove]
  split
  case h_2 => exact h
  case h_1 score hs =>
    have heq := h.discard_eq hs
    refine ⟨heq ▸ h.ordered.filter _, ?_, fun score' member' => ?_⟩
    · exact h.nodup.sublist (filter_sublist.map _)
    · rw [heq, mem_filter, h.mem_iff]
      by_cases hm : member' = member
      case pos => subst hm; simp [Finmap.lookup_erase]
      case neg => simp [hm, Finmap.lookup_erase_ne hm]

end ZSetObject

namespace ZSets

variable {z : ZSetObject F}

-- The members that the pairs of a command name.
def named : List RespValue → List Bytes
  | _ :: member :: args => member.asBytes.toList ++ named args
  | _ => []

theorem addMembers_inStep (h : z.InStep) : (addMembers options z added changed args).1.InStep := by
  fun_induction addMembers options z added changed args
  case case1 | case2 | case8 => exact h
  case case3 hi | case4 hi => exact hi h
  case case5 hi | case6 hi | case7 hi => exact hi h.add

omit [LinearOrder F] [OrderedScore F] in
-- Members stay, and those that are not named keep their scores.
theorem addMembers_lookup (member : Bytes) : (z.dict.lookup member ≠ none →
      (addMembers options z added changed args).1.dict.lookup member ≠ none) ∧
    (member ∉ named args → (addMembers options z added changed args).1.dict.lookup member =
      z.dict.lookup member) := by
  fun_induction addMembers options z added changed args <;> grind [named, lookup_add]

omit [LinearOrder F] [OrderedScore F] in
theorem addMembers_ne_integer :
    (addMembers options z added changed args).2 ≠ .error (.integer n) := by
  fun_induction addMembers options z added changed args <;> simp_all

omit [OrderedScore F] in
-- What one pair adds to the counts, if the pairs behind it lead to `z'`.
theorem card_add {score : F}
    (hz : (addMembers options (z.add score member).1 added changed args).1 = z') :
    (newIn z z').card = (newIn (z.add score member).1 z').card +
      (if z.dict.lookup member = none then 1 else 0) ∧
    (member ∉ named args → (changedIn z z').card = (changedIn (z.add score member).1 z').card +
      if z.dict.lookup member = none ∨ z.dict.lookup member = some score then 0 else 1) := by
  obtain ⟨hstay, hsame⟩ := hz ▸ addMembers_lookup (z := (z.add score member).1) member
  rw [lookup_add, if_pos rfl] at hstay hsame
  constructor
  · split
    case isTrue hn =>
      have heq : newIn z z' = insert member (newIn (z.add score member).1 z') := by
        ext m
        simp only [mem_newIn, Finset.mem_insert, lookup_add]
        grind
      rw [heq, Finset.card_insert_of_notMem (by simp [mem_newIn, lookup_add])]
    case isFalse hn =>
      refine congrArg _ <| Finset.ext fun m => ?_
      simp only [mem_newIn, lookup_add]
      grind
  · intro hm
    have hsame := hsame hm
    split
    case isTrue hn =>
      refine congrArg _ <| Finset.ext fun m => ?_
      simp only [mem_changedIn, lookup_add]
      grind
    case isFalse hn =>
      have heq : changedIn z z' = insert member (changedIn (z.add score member).1 z') := by
        ext m
        simp only [mem_changedIn, Finset.mem_insert, lookup_add]
        grind
      rw [heq, Finset.card_insert_of_notMem (by simp [mem_changedIn, lookup_add, hsame])]

theorem addMembers_counts (hr : addMembers options z added changed args = (z', .ok (a, c))) :
    a = added + (newIn z z').card ∧
      ((named args).Nodup → c = changed + (changedIn z z').card) := by
  fun_induction addMembers options z added changed args
  case case1 | case2 => cases hr
  case case3 hi | case4 hi =>
    exact (hi hr).imp_right fun h hn => h (nodup_append.mp hn).2.1
  case case8 => cases hr; simp [newIn, changedIn]
  case case5 z _ _ _ _ _ _ member hm _ _ _ _ _ hnew hi =>
    have hnew : z.dict.lookup member = none := isNone_iff_eq_none.mp hnew
    obtain ⟨hn, hc⟩ := card_add (congrArg Prod.fst hr)
    simp only [named, hm, toList_some, singleton_append, nodup_cons]
    grind
  case case6 z _ _ _ _ _ score member hm _ old _ _ _ hnew heq hi =>
    have heq : z.dict.lookup member = some score := by
      simpa [OrderedScore.eq_iff, Option.any_eq_true, old, ZSetObject.score] using heq
    obtain ⟨hn, hc⟩ := card_add (congrArg Prod.fst hr)
    simp only [named, hm, toList_some, singleton_append, nodup_cons]
    grind
  case case7 z _ _ _ _ _ score member hm _ old _ _ _ hnew heq hi =>
    have hnew : z.dict.lookup member ≠ none := fun h => hnew (isNone_iff_eq_none.mpr h)
    have heq : z.dict.lookup member ≠ some score := fun h => heq <| by
      simp [OrderedScore.eq_iff, old, ZSetObject.score, h]
    obtain ⟨hn, hc⟩ := card_add (congrArg Prod.fst hr)
    simp only [named, hm, toList_some, singleton_append, nodup_cons]
    grind

-- The pairs that give their member a score that it has not, each after the pairs before it.
def counted (options : AddOptions) (score? : Bytes → Option F) : List RespValue → ℕ
  | score :: member :: args =>
    match (parseScore score : Option F), member.asBytes with
    | some score, some member =>
      if options.nx && (score? member).isSome then counted options score? args
      else if options.xx && (score? member).isNone then counted options score? args
      else counted options (Function.update score? member (some score)) args +
        if score? member = some score then 0 else 1
    | _, _ => 0
  | _ => 0

theorem addMembers_counted (hr : addMembers options z added changed args = (z', .ok (a, c))) :
    a + c = added + changed + counted options z.score args := by
  have hadd (z : ZSetObject F) (score : F) (member : Bytes) : (z.add score member).1.score =
      Function.update z.score member (some score) := by
    ext1 m
    rw [Function.update_apply]
    exact lookup_add
  fun_induction addMembers options z added changed args
  case case1 | case2 => cases hr
  case case3 hm hs old hnx hi =>
    simp only [old] at hnx
    simpa only [counted, hs, hm, if_pos hnx] using hi hr
  case case4 hm hs old hnx hxx hi =>
    simp only [old] at hnx hxx
    simpa only [counted, hs, hm, if_neg hnx, if_pos hxx] using hi hr
  case case5 hm hs old hnx hxx r hnew hi =>
    simp only [old] at hnx hxx
    simp only [counted, hs, hm, if_neg hnx, if_neg hxx, hi hr, hadd, r]
    grind [ZSetObject.add, ZSetObject.score]
  case case6 hm hs old hnx hxx r hnew heq hi | case7 hm hs old hnx hxx r hnew heq hi =>
    simp only [old] at hnx hxx
    simp only [counted, hs, hm, if_neg hnx, if_neg hxx, hi hr, hadd, r]
    grind [OrderedScore.eq_iff, ZSetObject.add, ZSetObject.score]
  case case8 => cases hr; grind [counted]

end ZSets

inductive ZSetCommand
  | zadd (args : List RespValue)
  | zrem (args : List RespValue)
  | zincrby (args : List RespValue)

namespace ZSetCommand

open Database

theorem countLoop_remove_inStep {z : ZSetObject F} (h : z.InStep) (members : List Bytes) :
    (countLoop remove z members).1.InStep := by
  suffices ∀ p : ZSetObject F × ℕ, p.1.InStep → (members.foldl (fun p member =>
      let r := remove p.1 member
      (r.1, if r.2 then p.2 + 1 else p.2)) p).1.InStep from this (z, 0) h
  induction members
  case nil => exact fun _ h => h
  case cons member members hi => exact fun p h => hi _ h.remove

theorem keeps_zrem : Keeps (F := F) (ZSets.zrem now args) := by
  refine .keyed fun key => .change fun value r hv hr => ?_
  cases value <;> cases hr
  exact countLoop_remove_inStep hv _

theorem keeps_zincrby : Keeps (F := F) (ZSets.zincrby now args) := by
  refine .keyed fun key => .argument fun increment => .argument fun member =>
    .create inStep_empty fun value r hv hr => ?_
  cases value <;> cases hr
  exact InStep.add hv

variable [Environment] {db : Database F}

def perform (now : Moment) : ZSetCommand → Action F RespValue
  | zadd args => ZSets.zadd now args
  | zrem args => ZSets.zrem now args
  | zincrby args => ZSets.zincrby now args

-- Each command has its own time.
def performAll : List (Moment × ZSetCommand) → Action F (List RespValue)
  | [] => return []
  | (now, command) :: commands => do
    let reply ← command.perform now
    return reply :: (← performAll commands)

theorem keeps_zadd : Keeps (F := F) (ZSets.zadd now args) := by
  refine .keyed fun key => ?_
  dsimp only
  split
  case isTrue => exact .pure _
  refine .create inStep_empty fun value r hv hr => ?_
  cases value <;> try cases hr
  case zset z =>
    have h : (ZSets.addMembers (ZSets.addOptions {} args.tail).1 z 0 0
      (ZSets.addOptions {} args.tail).2).1.InStep := ZSets.addMembers_inStep hv
    dsimp only at hr
    split at hr
    case h_1 heq | h_2 heq =>
      rw [heq] at h
      cases hr
      exact h

theorem performAll_inStep (commands : List (Moment × ZSetCommand)) (h : db.InStep) :
    ∃ p, performAll commands db = some p ∧ p.2.InStep := by
  induction commands generalizing db
  case nil => exact ⟨([], db), rfl, h⟩
  case cons c commands hi =>
    obtain ⟨now, command⟩ := c
    obtain ⟨p, hp, h⟩ : ∃ p, command.perform now db = some p ∧ p.2.InStep := by
      cases command
      case zadd => exact keeps_zadd db h
      case zrem => exact keeps_zrem db h
      case zincrby => exact keeps_zincrby db h
    obtain ⟨q, hq, h⟩ := hi h
    refine ⟨(p.1 :: q.1, q.2), ?_, h⟩
    show (command.perform now db).bind _ = _
    rw [hp]
    show (performAll commands p.2).bind _ = _
    rw [hq]
    rfl

omit [LinearOrder F] [OrderedScore F] in
theorem zadd_integer (hr : ZSets.zadd now args db = some (.integer n, db')) :
    ∃ key z z' a c, args[0]?.bind RespValue.asStr = some key ∧
      (db.current now key).getD (.zset {}) = .zset z ∧ db'.current now key = some (.zset z') ∧
      ZSets.addMembers (ZSets.addOptions {} args.tail).1 z 0 0 (ZSets.addOptions {} args.tail).2 =
        (z', .ok (a, c)) ∧
      n = .ofNat (if (ZSets.addOptions {} args.tail).1.ch then a + c else a) := by
  rw [ZSets.zadd, keyed] at hr
  split at hr
  case isFalse => cases hr
  rw [argument] at hr
  cases hk : args[0]?.bind RespValue.asStr
  case none => rw [hk] at hr; cases hr
  case some key =>
    rw [hk] at hr
    dsimp only at hr
    split at hr
    case isTrue => cases hr
    rw [create_eq] at hr
    cases hv : (db.current now key).getD (.zset {})
    case zset z =>
      rw [hv] at hr
      dsimp only at hr
      split at hr
      case h_1 heq =>
        cases hr
        exact absurd (congrArg Prod.snd heq) ZSets.addMembers_ne_integer
      case h_2 z' a c heq =>
        cases hr
        exact ⟨key, z, z', a, c, rfl, hv, current_replaced, heq, rfl⟩
    all_goals rw [hv] at hr; cases hr

-- The number in a reply to `ZADD`, if there is one.
def AddsUp (db : Database F) : Prop :=
  ∀ now args n db', ZSets.zadd now args db = some (.integer n, db') →
    ∃ key z z', args[0]?.bind RespValue.asStr = some key ∧
      (db.current now key).getD (.zset {}) = .zset z ∧ db'.current now key = some (.zset z') ∧
      if (ZSets.addOptions {} args.tail).1.ch then
        n = .ofNat (ZSets.counted (ZSets.addOptions {} args.tail).1 z.score
            (ZSets.addOptions {} args.tail).2) ∧
          ((ZSets.named (ZSets.addOptions {} args.tail).2).Nodup →
            n = .ofNat ((z.newIn z').card + (z.changedIn z').card))
      else n = .ofNat (z.newIn z').card

theorem addsUp (db : Database F) : AddsUp db := by
  intro now args n db' hr
  obtain ⟨key, z, z', a, c, hk, hz, hz', heq, rfl⟩ := zadd_integer hr
  obtain ⟨ha, hc⟩ := ZSets.addMembers_counts heq
  refine ⟨key, z, z', hk, hz, hz', ?_⟩
  split
  case isTrue =>
    refine ⟨by rw [ZSets.addMembers_counted heq, zero_add, zero_add], fun hn => ?_⟩
    rw [ha, hc hn, zero_add, zero_add]
  case isFalse => rw [ha, zero_add]

-- A vector is never so long that its length is not a number.
def Ranks (db : Database F) : Prop :=
  ∀ key z, db.data.lookup key = some (.zset z) → 2 * z.sorted.length < UInt64.size →
    ∀ member, z.dict.lookup member ≠ none → ∃ r, ∀ now k m i, db.isExpired now key = false →
      k.asStr = some key → m.asBytes = some member → i.asInt = some (.ofNat r) →
        zrank now [k, m] db = some (count r, db) ∧
        zrange now [k, i, i] db = some (bulks [member], db)

omit [OrderedScore F] [Environment] in
theorem ranks (h : db.InStep) : Ranks db := by
  intro key z hz hl member hm
  have hin := h key _ hz
  obtain ⟨score, hs⟩ := ne_none_iff_exists'.mp hm
  obtain ⟨r, hr⟩ : ∃ r, z.sorted.findIdx? (·.2 == member) = some r :=
    isSome_iff_exists.mp <| findIdx?_isSome.trans <|
      any_eq_true.mpr ⟨_, (hin.mem_iff score member).mpr hs, beq_self_eq_true _⟩
  obtain ⟨hlt, he, -⟩ := findIdx?_eq_some_iff_getElem.mp hr
  refine ⟨r, fun now k m i hx hk hm hi => ?_⟩
  have hg : get now key db = some (some (.zset z), db) := by
    rw [get_eq, (of_not_expired hx).1, (of_not_expired hx).2, hz]
  have hne : z.sorted.length ≠ 0 := by omega
  constructor
  · simp only [zrank, keyed, argument, getElem?_cons_zero, bind_some, hk, hm, tail_cons]
    show (get now key db).bind _ = _
    rw [hg]
    show some ((((z.sorted.findIdx? _).map count).getD .null, db) : RespValue × Database F) = _
    rw [hr]
    rfl
  · simp only [zrange, keyed, argument, getElem?_cons_zero, getElem?_cons_succ,
      bind_some, hk, hi, tail_cons]
    show (get now key db).bind _ = _
    rw [hg, bind_some]
    simp only [hin.len_eq, if_neg hne, slice_one hlt hl]
    show some (bulks [z.sorted[r].2], db) = _
    rw [beq_iff_eq.mp he]

theorem sorted_sets_agree (commands : List (Moment × ZSetCommand)) (h : db.InStep) :
    ∃ p, performAll commands db = some p ∧ p.2.InStep ∧ AddsUp p.2 ∧ Ranks p.2 := by
  obtain ⟨p, hp, h⟩ := performAll_inStep commands h
  exact ⟨p, hp, h, addsUp p.2, ranks h⟩

end ZSetCommand

-- A number is written as that many strokes.
local instance naturalScore : Score ℕ where
  parse := fun s => some s.length
  format := toString
  zero := 0
  infinity := 0
  negInfinity := 0
  add := (· + ·)
  eq := fun a b => a == b
  lt := fun a b => a < b
  le := fun a b => a ≤ b
  partitionPoint := List.count true

local instance orderedNaturalScore : OrderedScore ℕ where
  eq_iff _ _ := rfl
  lt_iff _ _ := rfl
  partitionPoint_eq n m := by
    show List.count true _ = n
    simp [count_replicate]

local instance zsetSample : Environment := .sample

def texts (args : List String) : List RespValue :=
  args.map .simpleString

theorem sorted_sets_agree_two : ∃ p, ZSetCommand.performAll
    [(sampleMoment, .zadd (texts ["k", "II", "a", "I", "b"])),
      (sampleMoment, .zincrby (texts ["k", "III", "b"]))] ({} : Database ℕ) = some p ∧
    p.2.InStep ∧ ZSetCommand.AddsUp p.2 ∧ ZSetCommand.Ranks p.2 :=
  ZSetCommand.sorted_sets_agree _ (by rintro _ _ ⟨⟩)

-- The member is new for its first score, and has another one after the second.
theorem member_counted_twice : ∃ p z',
    zadd sampleMoment (texts ["k", "CH", "I", "a", "II", "a"]) ({} : Database ℕ) = some p ∧
    p.1.asInt = some 2 ∧ p.2.current sampleMoment "k" = some (.zset z') ∧
    (({} : ZSetObject ℕ).newIn z').card + (({} : ZSetObject ℕ).changedIn z').card = 1 := by
  have h : (zadd sampleMoment (texts ["k", "CH", "I", "a", "II", "a"]) ({} : Database ℕ)).any
      (fun p => p.1.asInt = some 2 ∧ p.2.current sampleMoment "k" =
        some (.zset ⟨Finmap.singleton [97] 2, [(2, [97])]⟩)) := by decide +kernel
  obtain ⟨p, hp, he⟩ := (Option.any_eq_true ..).mp h
  exact ⟨p, _, hp, (of_decide_eq_true he).1, (of_decide_eq_true he).2, by decide +kernel⟩

end Cache
