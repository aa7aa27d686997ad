import AppliedCs.Tsdb.ShardManager
import AppliedCs.Tsdb.Theorems.LastWrite

namespace Tsdb

open SortedList Overlay SortedMap ShardManager List History

theorem TimeShard.insertBatch_append [Hashing] {s : TimeShard F} :
    s.insertBatch (l ++ l') = (s.insertBatch l).insertBatch l' := by
  simp only [insertBatch, filter_append, MemTable.insertBatch, foldl_append]
  rfl

namespace ShardManager

section StartTime

-- Rounding towards zero does not overflow.
theorem tdiv_mul_bounds (a b : ℤ) :
    (0 ≤ a → 0 ≤ a.tdiv b * b ∧ a.tdiv b * b ≤ a) ∧
      (a ≤ 0 → a ≤ a.tdiv b * b ∧ a.tdiv b * b ≤ 0) := by
  have h := Int.tdiv_mul_add_tmod a b
  have hle : (a.tmod b).natAbs ≤ a.natAbs := by
    rw [Int.natAbs_tmod]
    exact Nat.mod_le _ _
  constructor
  · intro ha
    have := Int.tmod_nonneg b ha
    omega
  · intro ha
    have := Int.tmod_nonneg b (Int.neg_nonneg.mpr ha)
    rw [Int.neg_tmod] at this
    omega

theorem shardStartTime_eq_ok : shardStartTime d t = .ok start ↔
    ¬ (d = 0 ∨ t = Int64.minValue ∧ d = -1) ∧ start.toInt = t.toInt.tdiv d.toInt * d.toInt := by
  rw [shardStartTime]
  split
  case isTrue h => simp [h]
  case isFalse h =>
    have hdiv : (t / d).toInt = t.toInt.tdiv d.toInt := by
      by_cases hd : d = -1
      case pos => exact Int64.toInt_div_of_ne_left t d fun ht => h (.inr ⟨ht, hd⟩)
      case neg => exact Int64.toInt_div_of_ne_right t d hd
    have hmul : (t / d * d).toInt = t.toInt.tdiv d.toInt * d.toInt := by
      have := tdiv_mul_bounds t.toInt d.toInt
      have := t.le_toInt
      have := t.toInt_lt
      rw [Int64.toInt_mul, hdiv]
      exact Int.bmod_eq_of_le (by omega) (by omega)
    rw [← hmul, Int64.toInt_inj]
    simp only [h, not_false_iff, true_and, Except.ok.injEq]
    exact eq_comm

theorem shardStartTime_start (h : shardStartTime d t = .ok start) :
    shardStartTime d start = .ok start := by
  obtain ⟨hd, hs⟩ := shardStartTime_eq_ok.mp h
  have hne : d.toInt ≠ 0 := fun h0 => hd (.inl (Int64.toInt_inj.mp h0))
  refine shardStartTime_eq_ok.mpr ⟨?_, by rw [hs, Int.mul_tdiv_cancel _ hne]⟩
  rintro (h0 | ⟨hmin, h1⟩)
  · exact hd (.inl h0)
  · refine hd (.inr ⟨?_, h1⟩)
    rw [← hmin, ← Int64.toInt_inj, hs, h1]
    simp

end StartTime

theorem queryShards_eq {shards : List (TimeShard F)}
    (h : ∀ shard ∈ shards, (∃ ps, shard.queryRange key start stop = .ok ps ∧
        Sorted DataPoint.timestamp ps ∧ ∀ t, SortedList.get DataPoint.timestamp ps t =
          if start ≤ t ∧ t ≤ stop then f shard (key, t) else none) ∧
      ∀ t, f shard (key, t) ≠ none → shard.containsTimestamp t) :
    ∃ ps, queryShards key start stop shards = .ok ps ∧ ∀ t, ps.find? (·.timestamp = t) =
      if start ≤ t ∧ t ≤ stop then overlay (shards.map f) (key, t) else none := by
  induction shards
  case nil => exact ⟨[], rfl, fun t => by simp⟩
  case cons shard shards hi =>
    obtain ⟨rest, hr, hrest⟩ := hi fun s hs => h s (mem_cons_of_mem _ hs)
    obtain ⟨hquery, hown⟩ := h shard mem_cons_self
    have hp : ∃ ps, (if shard.endTime ≥ start ∧ shard.startTime ≤ stop
        then shard.queryRange key start stop else .ok []) = .ok ps ∧
          ∀ t, ps.find? (·.timestamp = t) =
            if start ≤ t ∧ t ≤ stop then f shard (key, t) else none := by
      split
      case isTrue => exact hquery.imp fun _ h => ⟨h.1, h.2.2⟩
      case isFalse hout =>
        refine ⟨[], rfl, fun t => ?_⟩
        split
        case isFalse => rfl
        case isTrue ht =>
          -- The range does not reach the shard.
          refine Eq.symm <| Classical.not_not.mp fun hne => hout ?_
          obtain ⟨h₁, h₂⟩ := of_decide_eq_true (hown t hne)
          exact ⟨ht.1.trans h₂.le, h₁.trans ht.2⟩
    obtain ⟨ps, hq, hps⟩ := hp
    refine ⟨ps ++ rest, ?_, fun t => ?_⟩
    · rw [queryShards, hq, hr]
      rfl
    · rw [find?_append, hps, hrest, map_cons, overlay_cons]
      split <;> rfl

theorem queryRange_of_shards {m : ShardManager F}
    (h : ∀ k shard, m.shards.get? k = some shard → (∃ ps, shard.queryRange key start stop = .ok ps ∧
        Sorted DataPoint.timestamp ps ∧ ∀ t, SortedList.get DataPoint.timestamp ps t =
          if start ≤ t ∧ t ≤ stop then f shard (key, t) else none) ∧
      ∀ t, f shard (key, t) ≠ none → shard.containsTimestamp t) :
    ∃ ps, m.queryRange key start stop = .ok ps ∧ Sorted DataPoint.timestamp ps ∧
      ∀ t, SortedList.get DataPoint.timestamp ps t =
        if start ≤ t ∧ t ≤ stop then overlay (m.shards.values.map f) (key, t) else none := by
  obtain ⟨ps, hq, hps⟩ := queryShards_eq fun shard hshard =>
    have ⟨k, hs⟩ := mem_values.mp hshard
    h k shard hs
  refine ⟨_, by rw [ShardManager.queryRange, hq]; rfl, sorted_ofList, fun t => ?_⟩
  rw [get_ofList, hps]

variable [Hashing] {F : SSTableFormat} {m : ShardManager F} {d start : Timestamp}
  {shard : TimeShard F} {metric : Metric} {p : DataPoint}

-- A shard that holds only points that belong to it. Its SSTables may disagree.
structure Keeps (d start : Timestamp) (shard : TimeShard F) : Prop where
  intact : shard.Intact
  startTime : shard.startTime = start
  endTime : shard.endTime = start + d
  owned : ∀ {q}, shard.contents.lookup q ≠ none →
    shardStartTime d q.2 = .ok start ∧ shard.containsTimestamp q.2

structure Owns (d start : Timestamp) (shard : TimeShard F) : Prop extends Keeps d start shard where
  consistent : shard.Consistent

def Sound (m : ShardManager F) : Prop :=
  ∀ ⦃start shard⦄, m.shards.get? start = some shard → Owns m.shardDuration start shard

-- A point can only be in the shard that its timestamp leads to.
def lookup (m : ShardManager F) (q : SeriesKey × Timestamp) : Option DataPoint :=
  (shardStartTime m.shardDuration q.2).toOption.bind fun start =>
    (m.shards.get? start).bind (·.contents.lookup q)

theorem lookup_of_start (h : shardStartTime m.shardDuration q.2 = .ok start) :
    m.lookup q = (m.shards.get? start).bind (·.contents.lookup q) := by
  rw [lookup, h]
  rfl

theorem Sound.overlay_eq (h : m.Sound) :
    overlay (m.shards.values.map (·.contents.lookup)) = m.lookup := by
  funext q
  cases hq : overlay (m.shards.values.map (·.contents.lookup)) q
  case none =>
    rw [overlay_eq_none] at hq
    rw [lookup]
    cases shardStartTime m.shardDuration q.2
    case error => rfl
    case ok start =>
      cases hs : m.shards.get? start
      case none => simp [Except.toOption, hs]
      case some shard =>
        have := hq _ <| mem_map_of_mem <| mem_map_of_mem <| get?_eq_some.mp hs
        simp [Except.toOption, hs, this]
  case some p =>
    obtain ⟨f, hf, hp⟩ := exists_of_overlay hq
    obtain ⟨shard, hshard, rfl⟩ := mem_map.mp hf
    obtain ⟨⟨start, shard⟩, he, rfl⟩ := mem_map.mp hshard
    have hs := get?_eq_some.mpr he
    obtain ⟨hstart, -⟩ := (h hs).owned (hp ▸ Option.some_ne_none p)
    rw [lookup_of_start hstart, hs]
    exact hp.symm

section Query

variable {key : SeriesKey} {start : Timestamp}

theorem Sound.queryRange (h : m.Sound)
    (hi : start ≤ stop ∨ ∀ t, m.lookup (key, t) ≠ none → stop < t → ¬ t < start) :
    ∃ ps, m.queryRange key start stop = .ok ps ∧ Sorted DataPoint.timestamp ps ∧
      ∀ t, SortedList.get DataPoint.timestamp ps t =
        if start ≤ t ∧ t ≤ stop then m.lookup (key, t) else none := by
  rw [← h.overlay_eq]
  refine queryRange_of_shards (f := fun shard => shard.contents.lookup) fun k shard hs =>
    ⟨(h hs).intact.queryRange (h hs).consistent ?_, fun t ht => ((h hs).owned ht).2⟩
  refine hi.imp_right fun hi t ht => hi t ?_
  rw [lookup_of_start ((h hs).owned ht).1, hs]
  exact ht

end Query

section Insert

theorem Owns.new : Owns d start (TimeShard.new start d ∅ : TimeShard F) where
  intact := ⟨SeriesMap.Valid.empty, by simp [TimeShard.new], .nil⟩
  consistent := .nil
  startTime := rfl
  endTime := rfl
  owned h := (h rfl).elim

def accepts (d t : Timestamp) : Bool :=
  (shardStartTime d t).toOption.any fun start => start ≤ t ∧ t < start + d

-- The points of a batch that their shards take.
def accepted (d : Timestamp) (points : List (Metric × DataPoint)) : History :=
  .of (points.filter fun p => accepts d p.2.timestamp)

theorem accepted_singleton : accepted d [(metric, p)] =
    if accepts d p.timestamp then [(metric.seriesKey, p)] else [] := by
  by_cases h : accepts d p.timestamp <;> simp [accepted, h, of]

theorem exists_of_accepted (h : (accepted d points).latest q = some p) :
    ∃ metric, (metric, p) ∈ points ∧ accepts d p.timestamp ∧ p.timestamp = q.2 := by
  obtain ⟨hmem, ht⟩ := mem_of_latest h
  obtain ⟨⟨metric, p⟩, hp, he⟩ := mem_map.mp (mem_reverse.mp hmem)
  obtain ⟨-, rfl⟩ := Prod.mk.inj he
  obtain ⟨hp, ha⟩ := mem_filter.mp hp
  exact ⟨metric, hp, ha, ht⟩

theorem Keeps.containsTimestamp (h : Keeps d start shard) (ht : shardStartTime d t = .ok start) :
    shard.containsTimestamp t = accepts d t := by
  rw [accepts, ht, TimeShard.containsTimestamp, h.startTime, h.endTime]
  rfl

theorem Keeps.insertBatch (h : Keeps d start shard)
    (hp : ∀ p ∈ points, shardStartTime d p.2.timestamp = .ok start) :
    Keeps d start (shard.insertBatch points) ∧ ∀ q, (shard.insertBatch points).contents.lookup q =
        ((accepted d points).latest q).or (shard.contents.lookup q) := by
  obtain ⟨hi, hl⟩ := @TimeShard.Intact.insertBatch F shard _
    (points.filter fun p => shard.containsTimestamp p.2.timestamp) h.intact
  have hf : points.filter (fun p => shard.containsTimestamp p.2.timestamp) =
      points.filter fun p => accepts d p.2.timestamp :=
    filter_congr fun p hmem => h.containsTimestamp (hp p hmem)
  have hlook (q) : (shard.insertBatch points).contents.lookup q =
      ((accepted d points).latest q).or (shard.contents.lookup q) := by
    rw [accepted, ← hf]
    exact hl q
  refine ⟨⟨hi, h.startTime, h.endTime, fun {q} hq => ?_⟩, hlook⟩
  rw [hlook] at hq
  cases hn : (accepted d points).latest q
  case none => rw [hn] at hq; exact h.owned hq
  case some p =>
    obtain ⟨metric, hmem, ha, ht⟩ := exists_of_accepted hn
    have hst := hp _ hmem
    exact ⟨ht ▸ hst, ht ▸ (h.containsTimestamp hst).trans ha⟩

theorem Owns.insertBatch (h : Owns d start shard)
    (hp : ∀ p ∈ points, shardStartTime d p.2.timestamp = .ok start) :
    Owns d start (shard.insertBatch points) ∧ ∀ q, (shard.insertBatch points).contents.lookup q =
        ((accepted d points).latest q).or (shard.contents.lookup q) := by
  obtain ⟨hk, hl⟩ := h.toKeeps.insertBatch hp
  exact ⟨⟨hk, h.consistent⟩, hl⟩

theorem insert_eq_insertBatch : (shard.insert metric p).1 = shard.insertBatch [(metric, p)] ∧
      ((shard.insert metric p).2 = .ok () ↔ shard.containsTimestamp p.timestamp) := by
  rw [TimeShard.insert]
  by_cases h : shard.containsTimestamp p.timestamp
  case pos | neg => simp [h, TimeShard.insertBatch, MemTable.insertBatch]

section Batch

def startsAt (d start : Timestamp) (p : Metric × DataPoint) : Bool :=
  shardStartTime d p.2.timestamp = .ok start

omit [Hashing] in
theorem filter_startsAt (h : ∀ p ∈ l, shardStartTime d p.2.timestamp = .ok start)
    (start' : Timestamp) : l.filter (startsAt d start') = if start = start' then l else [] := by
  split
  case isTrue he =>
    refine filter_eq_self.mpr fun p hp => ?_
    rw [startsAt, h p hp, he, decide_eq_true rfl]
  case isFalse he =>
    refine filter_eq_nil_iff.mpr fun p hp => ?_
    rw [startsAt, h p hp, decide_eq_true_iff]
    exact fun hst => he (Except.ok.inj hst)

omit [Hashing] in
theorem groupByShard_eq (h : ∀ p ∈ points, ∃ start,
      shardStartTime m.shardDuration p.2.timestamp = .ok start) :
    ∃ byShard, m.groupByShard points = .ok byShard ∧ (∀ start,
      (byShard.get? start).getD [] = points.filter (startsAt m.shardDuration start)) ∧
      ∀ start, byShard.get? start ≠ some [] := by
  have hfold (byShard : SortedMap Timestamp (List (Metric × DataPoint))) :
      ∃ byShard', points.foldlM (fun byShard p => do
        let startTime ← shardStartTime m.shardDuration p.2.timestamp
        return byShard.insert startTime <| (byShard.get? startTime).getD [] ++ [p]) byShard =
          Except.ok byShard' ∧ (∀ start, (byShard'.get? start).getD [] =
            (byShard.get? start).getD [] ++ points.filter (startsAt m.shardDuration start)) ∧
          ((∀ start, byShard.get? start ≠ some []) → ∀ start, byShard'.get? start ≠ some []) := by
    induction points generalizing byShard
    case nil => exact ⟨byShard, rfl, fun _ => (append_nil _).symm, id⟩
    case cons p points hi =>
      obtain ⟨startTime, hst⟩ := h p mem_cons_self
      obtain ⟨byShard', hb, hg, hne⟩ := hi (fun p hp => h p (mem_cons_of_mem _ hp))
        (byShard.insert startTime <| (byShard.get? startTime).getD [] ++ [p])
      refine ⟨byShard', ?_, fun start => ?_, fun hb => hne fun start => ?_⟩
      · rw [foldlM_cons, hst]
        exact hb
      · rw [hg, get?_insert]
        by_cases he : startTime = start
        case pos | neg => simp [he, startsAt, hst]
      · rw [get?_insert]
        split
        · simp
        · exact hb start
  obtain ⟨byShard, hb, hg, hne⟩ := hfold ∅
  exact ⟨byShard, hb, hg, hne fun _ => by simp⟩

section After

variable {start : Timestamp}

-- Every shard stands under its start.
def Keyed (m : ShardManager F) : Prop :=
  ∀ ⦃start shard⦄, m.shards.get? start = some shard →
    shard.startTime = start ∧ shard.endTime = start + m.shardDuration

-- The shard that begins at `start`, or the one that is created for it.
def shardAt (m : ShardManager F) (start : Timestamp) : TimeShard F :=
  (m.shards.get? start).getD (.new start m.shardDuration ∅)

omit [Hashing] in
theorem Keyed.shardAt (h : m.Keyed) (start : Timestamp) : (m.shardAt start).startTime = start ∧
      (m.shardAt start).endTime = start + m.shardDuration := by
  rw [ShardManager.shardAt]
  cases hs : m.shards.get? start
  case none => exact ⟨rfl, rfl⟩
  case some _ => exact h hs

-- Every shard has got the points that belong to it, in their order.
structure After (m : ShardManager F) (points : List (Metric × DataPoint)) (m' : ShardManager F) :
    Prop where
  duration : m'.shardDuration = m.shardDuration
  shardAt : ∀ start, m'.shardAt start =
    (m.shardAt start).insertBatch (points.filter (startsAt m.shardDuration start))
  isSome : ∀ start, (m'.shards.get? start).isSome ↔
    (m.shards.get? start).isSome ∨ points.filter (startsAt m.shardDuration start) ≠ []

namespace After

theorem nil : After m [] m :=
  ⟨rfl, fun _ => rfl, fun _ => by simp⟩

theorem trans (h : After m l m₁) (h' : After m₁ l' m') : After m (l ++ l') m' where
  duration := h'.duration.trans h.duration
  shardAt start := by
    rw [h'.shardAt, h.shardAt, h.duration, ← TimeShard.insertBatch_append, filter_append]
  isSome start := by
    rw [h'.isSome, h.isSome, h.duration, filter_append, ne_eq (_ ++ _), append_eq_nil_iff,
      not_and_or, or_assoc]

theorem congr (h : After m l m') (he : ∀ start, l.filter (startsAt m.shardDuration start) =
    l'.filter (startsAt m.shardDuration start)) : After m l' m' where
  duration := h.duration
  shardAt start := he start ▸ h.shardAt start
  isSome start := he start ▸ h.isSome start

theorem unique (h : After m l m₁) (h' : After m l m') : m₁ = m' := by
  have hs : m₁.shards = m'.shards := ext_get? fun start => by
    have hsome : (m₁.shards.get? start).isSome ↔ (m'.shards.get? start).isSome :=
      (h.isSome start).trans (h'.isSome start).symm
    have hat : m₁.shardAt start = m'.shardAt start :=
      (h.shardAt start).trans (h'.shardAt start).symm
    rw [ShardManager.shardAt, ShardManager.shardAt] at hat
    cases h₁ : m₁.shards.get? start <;> cases h₂ : m'.shards.get? start <;>
      simp [h₁, h₂] at hsome hat ⊢
    exact hat
  cases m₁
  cases m'
  cases h.duration.trans h'.duration.symm
  cases hs
  rfl

-- The points of one shard.
theorem update (hl : l ≠ [])
    (h : ∀ p ∈ l, shardStartTime m.shardDuration p.2.timestamp = .ok start) :
    After m l { m with shards := m.shards.insert start ((m.shardAt start).insertBatch l) } := by
  refine ⟨rfl, fun start' => ?_, fun start' => ?_⟩
  · rw [ShardManager.shardAt, get?_insert, filter_startsAt h]
    split
    case isTrue he => rw [he]; rfl
    case isFalse => rfl
  · rw [get?_insert, filter_startsAt h]
    split
    case isTrue => simp [hl]
    case isFalse => simp

theorem get? (h : After m l m') (hs : m'.shards.get? start = some shard) :
    shard = (m.shardAt start).insertBatch (l.filter (startsAt m.shardDuration start)) := by
  rw [← h.shardAt, ShardManager.shardAt, hs]
  rfl

theorem keyed (h : After m l m') (hk : m.Keyed) : m'.Keyed := by
  intro start shard hs
  rw [h.get? hs, h.duration]
  exact hk.shardAt start

end After

omit [Hashing] in
theorem getOrCreateShard_eq (h : shardStartTime m.shardDuration t = .ok start) :
    ∃ m', m.getOrCreateShard t = .ok m' ∧ m'.shards.get? start = some (m.shardAt start) ∧
      ∀ shard, { m' with shards := m'.shards.insert start shard } =
        { m with shards := m.shards.insert start shard } := by
  rw [getOrCreateShard, h, ok_bind, shardAt]
  cases hs : m.shards.get? start
  case some shard => exact ⟨m, rfl, hs, fun _ => rfl⟩
  case none =>
    refine ⟨_, rfl, get?_insert.trans (if_pos rfl), fun shard => ?_⟩
    refine congrArg (mk m.shardDuration) <| ext_get? fun start' => ?_
    simp only [get?_insert]
    split <;> rfl

omit [Hashing] in
theorem Keyed.containsTimestamp (hk : m.Keyed) (h : shardStartTime m.shardDuration t = .ok start) :
    (m.shardAt start).containsTimestamp t = accepts m.shardDuration t := by
  rw [accepts, h, TimeShard.containsTimestamp, (hk.shardAt start).1, (hk.shardAt start).2]
  rfl

theorem Keyed.insert (hk : m.Keyed) (h : shardStartTime m.shardDuration p.timestamp = .ok start) :
    After m [(metric, p)] (m.insert metric p).1 ∧
      ((m.insert metric p).2 = .ok () ↔ accepts m.shardDuration p.timestamp) := by
  obtain ⟨m', hc, hs, hu⟩ := getOrCreateShard_eq h
  obtain ⟨h₁, h₂⟩ := @insert_eq_insertBatch _ F (m.shardAt start) metric p
  have hins : m.insert metric p =
      ({ m with shards := m.shards.insert start ((m.shardAt start).insertBatch [(metric, p)]) },
        ((m.shardAt start).insert metric p).2) := by
    simp only [ShardManager.insert, h, hc, hs, hu, h₁]
  rw [hins, h₂, hk.containsTimestamp h]
  refine ⟨After.update (cons_ne_nil _ _) ?_, Iff.rfl⟩
  simpa using h

omit [Hashing] in
theorem filter_flatMap_groups (hs : Sorted Prod.fst groups)
    (hp : ∀ g ∈ groups, ∀ p ∈ g.2, shardStartTime d p.2.timestamp = .ok g.1) :
    (groups.flatMap (·.2)).filter (startsAt d start) =
      (SortedList.get Prod.fst groups start).elim [] (·.2) := by
  induction groups
  case nil => rfl
  case cons g groups hi =>
    obtain ⟨hg, hs⟩ := pairwise_cons.mp hs
    have hi := hi hs fun g hg => hp g (mem_cons_of_mem _ hg)
    rw [flatMap_cons, filter_append, hi, get_cons, filter_startsAt (hp g mem_cons_self)]
    split
    case isTrue he =>
      have hn : SortedList.get Prod.fst groups start = none :=
        find?_eq_none.mpr fun g' hg' => by simpa using (he ▸ hg g' hg').ne'
      rw [hn, Option.elim_none, append_nil, Option.elim_some]
    case isFalse => rw [nil_append]

theorem insertGroups_eq
    (hp : ∀ g ∈ groups, shardStartTime m.shardDuration g.1 = .ok g.1 ∧ g.2 ≠ [] ∧
      ∀ p ∈ g.2, shardStartTime m.shardDuration p.2.timestamp = .ok g.1) :
    ∃ m', m.insertGroups groups = (m', .ok ()) ∧ After m (groups.flatMap (·.2)) m' := by
  induction groups generalizing m
  case nil => exact ⟨m, rfl, .nil⟩
  case cons g groups hi =>
    obtain ⟨hst, hne, hgp⟩ := hp g mem_cons_self
    obtain ⟨m₁, hc, hs, hu⟩ := getOrCreateShard_eq hst
    obtain ⟨m', hm', ha⟩ := @hi { m with
      shards := m.shards.insert g.1 ((m.shardAt g.1).insertBatch g.2) }
        fun g hg => hp g (mem_cons_of_mem _ hg)
    refine ⟨m', ?_, (After.update hne hgp).trans ha⟩
    rw [insertGroups, hc]
    simp only [hs, hu, hm']

theorem insertBatch_after
    (h : ∀ p ∈ points, ∃ start, shardStartTime m.shardDuration p.2.timestamp = .ok start) :
    ∃ m', m.insertBatch points = (m', .ok ()) ∧ After m points m' := by
  obtain ⟨byShard, hb, hg, hne⟩ := groupByShard_eq h
  have hgroup {g} (hmem : g ∈ byShard.entries) :
      g.2 = points.filter (startsAt m.shardDuration g.1) ∧ g.2 ≠ [] := by
    have hs : byShard.get? g.1 = some g.2 := get?_eq_some.mpr hmem
    refine ⟨?_, fun hnil => hne g.1 (hnil ▸ hs)⟩
    rw [← hg, hs, Option.getD_some]
  have hstart {g p} (hmem : g ∈ byShard.entries) (hp : p ∈ g.2) :
      shardStartTime m.shardDuration p.2.timestamp = .ok g.1 := by
    rw [(hgroup hmem).1] at hp
    exact of_decide_eq_true (mem_filter.mp hp).2
  obtain ⟨m', hm', ha⟩ := @insertGroups_eq _ F m byShard.entries fun g hmem => by
    obtain ⟨p, hp⟩ := exists_mem_of_ne_nil _ (hgroup hmem).2
    exact ⟨shardStartTime_start (hstart hmem hp), (hgroup hmem).2, fun p => hstart hmem⟩
  refine ⟨m', by simp only [insertBatch, hb, hm'], ha.congr fun start => ?_⟩
  rw [filter_flatMap_groups byShard.sorted fun g hmem p => hstart hmem, ← hg, get?]
  cases SortedList.get Prod.fst byShard.entries start <;> rfl

theorem latest_filter_startsAt (h : shardStartTime d q.2 = .ok start) :
    (of (points.filter (startsAt d start))).latest q = (of points).latest q := by
  rw [latest_of, latest_of]
  simp only [filter_filter]
  refine congrArg (fun l : List _ => l.getLast?.map _) <| filter_congr fun p _ => ?_
  by_cases he : (p.1.seriesKey, p.2.timestamp) = q
  case pos => subst he; simp [startsAt, h]
  case neg => simp [he]

omit [Hashing] in
theorem start_of_accepts (h : accepts d t) : ∃ start, shardStartTime d t = .ok start := by
  rw [accepts] at h
  cases ht : shardStartTime d t
  case error => rw [ht] at h; cases h
  case ok start => exact ⟨start, rfl⟩

theorem Sound.shardAt (h : m.Sound) (start : Timestamp) :
    Owns m.shardDuration start (m.shardAt start) := by
  rw [ShardManager.shardAt]
  cases hs : m.shards.get? start
  case none => exact Owns.new
  case some _ => exact h hs

theorem lookup_eq_shardAt (h : shardStartTime m.shardDuration q.2 = .ok start) :
    m.lookup q = (m.shardAt start).contents.lookup q := by
  rw [lookup_of_start h, shardAt]
  cases m.shards.get? start <;> rfl

theorem After.sound (h : After m l m') (hm : m.Sound) : m'.Sound ∧
    ∀ q, m'.lookup q = ((accepted m.shardDuration l).latest q).or (m.lookup q) := by
  have ho (start) := @Owns.insertBatch _ F _ start _ (l.filter (startsAt m.shardDuration start))
    (hm.shardAt start) fun p hp => of_decide_eq_true (mem_filter.mp hp).2
  refine ⟨fun start shard hs => ?_, fun q => ?_⟩
  · rw [h.get? hs, h.duration]
    exact (ho start).1
  · cases hq : shardStartTime m.shardDuration q.2
    case error e =>
      cases hn : (accepted m.shardDuration l).latest q
      case none => rw [lookup, lookup, h.duration, hq]; rfl
      case some p =>
        obtain ⟨-, -, ha, ht⟩ := exists_of_accepted hn
        obtain ⟨start, hst⟩ := start_of_accepts ha
        rw [ht, hq] at hst
        cases hst
    case ok start =>
      rw [lookup_eq_shardAt hq, lookup_eq_shardAt (h.duration.symm ▸ hq), h.shardAt, (ho start).2,
        accepted, accepted, filter_comm, latest_filter_startsAt hq]

theorem Sound.keyed (h : m.Sound) : m.Keyed :=
  fun _ _ hs => ⟨(h hs).startTime, (h hs).endTime⟩

theorem Sound.insert (h : m.Sound) :
    ∃ m' r, m.insert metric p = (m', r) ∧ (∃ l, After m l m') ∧ m'.Sound ∧
      (∀ q, m'.lookup q = ((accepted m.shardDuration [(metric, p)]).latest q).or (m.lookup q)) ∧
      (r = .ok () ↔ accepts m.shardDuration p.timestamp) := by
  cases ht : shardStartTime m.shardDuration p.timestamp
  case error e =>
    have ha : ¬ accepts m.shardDuration p.timestamp := by simp [accepts, ht, Except.toOption]
    refine ⟨m, .error e, by simp only [ShardManager.insert, ht], ⟨[], .nil⟩, h, fun q => ?_,
      by simp [ha]⟩
    rw [accepted_singleton, if_neg ha]
    rfl
  case ok start =>
    obtain ⟨ha, hr⟩ := @Keyed.insert _ F m metric p start h.keyed ht
    exact ⟨_, _, rfl, ⟨_, ha⟩, (ha.sound h).1, (ha.sound h).2, hr⟩

end After

end Batch

end Insert

section Flush

omit [Hashing] in
theorem forEach_eq (hn : starts.Nodup)
    (hc : ∀ start ∈ starts, ∀ shard, m.shards.get? start = some shard →
      ∃ shard' x, call shard = (shard', .ok x) ∧ R shard shard') :
    ∃ m' xs, m.forEach call starts = (m', .ok xs) ∧ m'.shardDuration = m.shardDuration ∧
      (∀ start ∈ starts, Option.Rel R (m.shards.get? start) (m'.shards.get? start)) ∧
      ∀ start ∉ starts, m'.shards.get? start = m.shards.get? start := by
  induction starts generalizing m
  case nil => exact ⟨m, [], rfl, rfl, by simp, fun _ _ => rfl⟩
  case cons k starts hi =>
    obtain ⟨hk, hn⟩ := nodup_cons.mp hn
    cases hs : m.shards.get? k
    case none =>
      obtain ⟨m', xs, hm, hd, hin, hout⟩ := hi hn fun start hst => hc start (mem_cons_of_mem _ hst)
      refine ⟨m', xs, ?_, hd, fun start hst => ?_, fun start hst => hout start ?_⟩
      · rw [forEach, hs]
        exact hm
      · obtain rfl | hst := mem_cons.mp hst
        · rw [hout start hk, hs]
          exact .none
        · exact hin start hst
      · exact fun hmem => hst (mem_cons_of_mem _ hmem)
    case some shard =>
      obtain ⟨shard', x, hx, hR⟩ := hc k mem_cons_self shard hs
      have hget {start} (hne : k ≠ start) :
          (m.shards.insert k shard').get? start = m.shards.get? start := by
        rw [get?_insert, if_neg hne]
      obtain ⟨m', xs, hm, hd, hin, hout⟩ := @hi { m with shards := m.shards.insert k shard' } hn
        fun start hst s hs => hc start (mem_cons_of_mem _ hst) s <| by
          rwa [← hget (fun he => hk (he ▸ hst))]
      refine ⟨m', x.toList ++ xs, ?_, hd, fun start hst => ?_, fun start hst => ?_⟩
      · rw [forEach, hs]
        simp only [hx, hm]
        rfl
      · obtain rfl | hst := mem_cons.mp hst
        · rw [hout start hk, hs, get?_insert, if_pos rfl]
          exact .some hR
        · rw [← hget (fun he => hk (he ▸ hst))]
          exact hin start hst
      · rw [mem_cons, not_or] at hst
        rw [hout start hst.2, hget (Ne.symm hst.1)]

-- Every shard has been written to its SSTables.
structure Flushed (m m' : ShardManager F) : Prop where
  shardDuration : m'.shardDuration = m.shardDuration
  shards : ∀ start, Option.Rel (fun shard shard' => shard.Kept shard' ∧ shard'.Consistent)
    (m.shards.get? start) (m'.shards.get? start)

theorem flushed_of_forEach (hc : ∀ {start shard}, m.shards.get? start = some shard →
      ∃ shard' x, call shard = (shard', .ok x) ∧ shard.Kept shard' ∧ shard'.Consistent) :
    ∃ m' xs, m.forEach call m.shards.keys = (m', .ok xs) ∧ m.Flushed m' := by
  obtain ⟨m', xs, hm, hd, hin, hout⟩ := forEach_eq m.shards.nodup_keys fun _ _ _ => hc
  refine ⟨m', xs, hm, hd, fun start => ?_⟩
  by_cases hst : start ∈ m.shards.keys
  case pos => exact hin start hst
  case neg =>
    have hn := hst
    rw [SortedMap.mem_keys, Option.not_isSome_iff_eq_none] at hn
    rw [hout start hst, hn]
    exact .none

theorem Sound.flushAll (h : m.Sound) (hf : ∀ {start shard}, m.shards.get? start = some shard →
      (shard.memtable.data.entries ≠ [] → shard.Flushable) ∧
        ∀ data ∈ shard.tables, shard.memtable.data.Agrees data) :
    ∃ m' xs, m.flushAll = (m', .ok xs) ∧ m.Flushed m' :=
  flushed_of_forEach fun hs => by
    obtain ⟨shard', x, hx, hk, ht, -⟩ := (h hs).intact.flush (hf hs).1
    exact ⟨shard', x, hx, hk, (h hs).consistent.flush ht (hf hs).2⟩

theorem Sound.compactAll (h : m.Sound) (hf : ∀ {start shard}, m.shards.get? start = some shard →
      (shard.memtable.data.entries ≠ [] → shard.Flushable) ∧
        (1 < (shard.tables ++ shard.pending).length → shard.Mergeable)) :
    ∃ m' xs, m.compactAll = (m', .ok xs) ∧ m.Flushed m' :=
  flushed_of_forEach fun hs => (h hs).intact.compact (hf hs).1 (hf hs).2

theorem Owns.kept (h : Owns d start shard)
    (hk : shard.Kept shard') (hc : shard'.Consistent) : Owns d start shard' where
  intact := hk.intact
  consistent := hc
  startTime := hk.startTime.trans h.startTime
  endTime := hk.endTime.trans h.endTime
  owned hq := by
    rw [hk.lookup] at hq
    rw [TimeShard.containsTimestamp, hk.startTime, hk.endTime]
    exact h.owned hq

theorem Flushed.kept (hf : m.Flushed m') (hs : m'.shards.get? start = some shard') :
    ∃ shard, m.shards.get? start = some shard ∧ shard.Kept shard' ∧ shard'.Consistent := by
  have hr := hf.shards start
  rw [hs] at hr
  generalize m.shards.get? start = shard at hr
  cases hr
  case some hr => exact ⟨_, rfl, hr⟩

theorem Flushed.sound (hf : m.Flushed m') (h : m.Sound) : m'.Sound ∧ m'.lookup = m.lookup := by
  constructor
  · intro start shard' hs'
    obtain ⟨shard, hs, hk, hc⟩ := hf.kept hs'
    rw [hf.shardDuration]
    exact (h hs).kept hk hc
  · funext q
    rw [lookup, hf.shardDuration]
    refine congrArg _ <| funext fun start => ?_
    have hr := hf.shards start
    generalize m.shards.get? start = shard, m'.shards.get? start = shard' at hr ⊢
    cases hr
    case none => rfl
    case some hr => exact congrFun hr.1.lookup q

end Flush

end ShardManager

end Tsdb
