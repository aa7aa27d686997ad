import AppliedCs.Tsdb.Theorems.ShardManager

namespace Tsdb

open SortedList Overlay List

namespace TimeShard

variable [Hashing] {s : TimeShard F}

theorem Intact.contents_of_layers (h : s.Intact) (hq : overlay s.layers q ≠ none) :
    s.contents.lookup q ≠ none := by
  intro hn
  rw [h.lookup_contents, Option.or_eq_none_iff, overlay_eq_none] at hn
  refine hq <| overlay_eq_none.mpr fun f hf => ?_
  obtain ⟨data, hd, rfl⟩ := mem_map.mp hf
  obtain rfl | hd := mem_cons.mp hd
  case inl => exact hn.1
  case inr => exact hn.2 _ (mem_map_of_mem (mem_reverse.mpr hd))

-- Without its SSTables, a shard has the contents of the memtable.
theorem Intact.memtable_insertBatch (h : s.Intact) :
    (s.memtable.insertBatch l).data.lookup q =
      ((History.of l).latest q).or (s.memtable.data.lookup q) := by
  have hs : { s with sstables := [] }.Intact :=
    ⟨h.memtable, fun _ ht => absurd ht not_mem_nil, .nil⟩
  obtain ⟨hi, hl⟩ := @Intact.insertBatch F _ _ l hs
  have hl := hl q
  rw [hi.lookup_contents, hs.lookup_contents] at hl
  simpa [tables] using hl

end TimeShard

namespace ShardManager

section InShard

-- The start of the shard is not behind `t`, and the end of the shard can be represented.
def InShard (d t : Timestamp) : Prop :=
  (0 ≤ t.toInt ∨ d.toInt ∣ t.toInt) ∧ t.toInt.tdiv d.toInt * d.toInt + d.toInt < 2 ^ 63

instance : Decidable (InShard d t) :=
  inferInstanceAs <| Decidable (_ ∧ _)

theorem shardStartTime_of_pos (hd : 0 < d) (t : Timestamp) : ∃ start,
    shardStartTime d t = .ok start ∧ start.toInt = t.toInt.tdiv d.toInt * d.toInt := by
  have hc : ¬ (d = 0 ∨ t = Int64.minValue ∧ d = -1) := by
    rintro (rfl | ⟨-, rfl⟩)
    · exact absurd hd (by decide)
    · exact absurd hd (by decide)
  have h : shardStartTime d t = .ok (t / d * d) := if_neg hc
  exact ⟨_, h, (shardStartTime_eq_ok.mp h).2⟩

theorem exists_start (hd : 0 < d) (points : List (Metric × DataPoint)) :
    ∀ p ∈ points, ∃ start, shardStartTime d p.2.timestamp = .ok start :=
  fun p _ => (shardStartTime_of_pos hd p.2.timestamp).imp fun _ h => h.1

theorem le_iff_of_tdiv {b : ℤ} : a.tdiv b * b ≤ a ↔ 0 ≤ a ∨ b ∣ a := by
  have hm := Int.tdiv_mul_add_tmod a b
  constructor
  · intro h
    by_contra hn
    push Not at hn
    have hneg : a.tmod b ≤ 0 := by
      have := Int.tmod_nonneg b (a := -a) (by omega)
      rw [Int.neg_tmod] at this
      omega
    refine hn.2 (Int.dvd_of_tmod_eq_zero ?_)
    omega
  · rintro (h | h)
    · exact ((tdiv_mul_bounds a b).1 h).2
    · rw [Int.tdiv_mul_cancel h]

theorem accepts_iff_inShard (hd : 0 < d) : accepts d t ↔ InShard d t := by
  obtain ⟨start, hst, hs⟩ := shardStartTime_of_pos hd t
  have hpos : 0 < d.toInt := Int64.lt_iff_toInt_lt.mp hd
  have hlt : t.toInt < start.toInt + d.toInt := by
    have hm := Int.tdiv_mul_add_tmod t.toInt d.toInt
    have := Int.tmod_lt_of_pos t.toInt hpos
    omega
  rw [InShard, ← le_iff_of_tdiv, ← hs]
  have ha : accepts d t ↔ start ≤ t ∧ t < start + d := by
    rw [accepts, hst]
    simp [Except.toOption]
  rw [ha, Int64.le_iff_toInt_le, Int64.lt_iff_toInt_lt, Int64.toInt_add]
  -- If the end overflows, it is before the start.
  have h₃ := d.toInt_lt
  rw [Int.bmod_def]
  split <;> omega

end InShard

variable [Hashing] {F : SSTableFormat} {m : ShardManager F}

-- The points one by one, until a call fails.
def insertAll (m : ShardManager F) : List (Metric × DataPoint) → ShardManager F × Result Unit
  | [] => (m, .ok ())
  | p :: points =>
    match m.insert p.1 p.2 with
    | (m, .error e) => (m, .error e)
    | (m, .ok ()) => m.insertAll points

-- Every shard can be read and has only points that belong to it.
def Kept (m : ShardManager F) : Prop :=
  ∀ ⦃start shard⦄, m.shards.get? start = some shard → Keeps m.shardDuration start shard

theorem Kept.keyed (h : m.Kept) : m.Keyed :=
  fun _ _ hs => ⟨(h hs).startTime, (h hs).endTime⟩

theorem Kept.shardAt (h : m.Kept) (start : Timestamp) :
    Keeps m.shardDuration start (m.shardAt start) := by
  rw [ShardManager.shardAt]
  cases hs : m.shards.get? start
  case none => exact Owns.new.toKeeps
  case some _ => exact h hs

theorem After.kept (h : After m l m') (hk : m.Kept) : m'.Kept := by
  intro start shard hs
  rw [h.get? hs, h.duration]
  refine ((hk.shardAt start).insertBatch fun p hp => ?_).1
  exact of_decide_eq_true (mem_filter.mp hp).2

theorem Keyed.insertAll (hk : m.Keyed)
    (h : ∀ p ∈ points, ∃ start, shardStartTime m.shardDuration p.2.timestamp = .ok start) :
    ((m.insertAll points).2 = .ok () ↔ ∀ p ∈ points, accepts m.shardDuration p.2.timestamp) ∧
      ((m.insertAll points).2 = .ok () → After m points (m.insertAll points).1) := by
  induction points generalizing m
  case nil => simpa [ShardManager.insertAll] using After.nil
  case cons p points hi =>
    obtain ⟨start, hst⟩ := h p mem_cons_self
    have ⟨ha, hok⟩ : After m [p] _ ∧ _ := hk.insert hst
    rw [forall_mem_cons, ← hok, ShardManager.insertAll]
    rcases hr : m.insert p.1 p.2 with ⟨m₁, e | ⟨⟩⟩
    case error => simp
    case ok =>
      rw [hr] at ha
      have ⟨hiff, hafter⟩ := hi (ha.keyed hk) fun p hp =>
        ha.duration ▸ h p (mem_cons_of_mem _ hp)
      rw [ha.duration] at hiff
      exact ⟨hiff.trans (by simp), fun hok => ha.trans (hafter hok)⟩

section Returned

theorem Kept.queryRange (h : m.Kept) (hab : a ≤ b) :
    ∃ ps, m.queryRange key a b = .ok ps ∧ Sorted DataPoint.timestamp ps ∧
      ∀ t, SortedList.get DataPoint.timestamp ps t =
        if a ≤ t ∧ t ≤ b then overlay (m.shards.values.map fun s => overlay s.layers) (key, t)
        else none := by
  refine queryRange_of_shards (f := fun shard => overlay shard.layers) fun k shard hs =>
    ⟨(h hs).intact.queryLayers (.inl hab), fun t ht => ?_⟩
  exact ((h hs).owned ((h hs).intact.contents_of_layers ht)).2

theorem Kept.mem_queryRange (h : m.Kept) (hs : m.shards.get? start = some shard)
    (hp : shard.memtable.data.lookup (key, p.timestamp) = some p)
    (ha : a ≤ p.timestamp) (hb : p.timestamp ≤ b) :
    ∃ ps, m.queryRange key a b = .ok ps ∧ p ∈ ps := by
  have hl : overlay shard.layers (key, p.timestamp) = some p := by
    rw [TimeShard.layers, map_cons, overlay_cons, hp]
    rfl
  have hst := ((h hs).owned ((h hs).intact.contents_of_layers (hl ▸ Option.some_ne_none p))).1
  obtain ⟨ps, hq, hsort, hg⟩ := h.queryRange (ha.trans hb)
  refine ⟨ps, hq, hsort.mem_iff.mpr ?_⟩
  rw [hg, if_pos ⟨ha, hb⟩]
  -- No other shard has a point with this time.
  cases ho : overlay (m.shards.values.map fun s => overlay s.layers) (key, p.timestamp)
  case none =>
    have := overlay_eq_none.mp ho _ (mem_map_of_mem (SortedMap.mem_values.mpr ⟨start, hs⟩))
    cases hl.symm.trans this
  case some p' =>
    obtain ⟨f, hf, hp'⟩ := exists_of_overlay ho
    obtain ⟨shard', hshard, rfl⟩ := mem_map.mp hf
    obtain ⟨start', hs'⟩ := SortedMap.mem_values.mp hshard
    have hc := (h hs').intact.contents_of_layers (hp' ▸ Option.some_ne_none p')
    have hst' := ((h hs').owned hc).1
    cases Except.ok.inj (hst.symm.trans hst')
    cases hs.symm.trans hs'
    exact hp'.symm.trans hl

theorem After.mem_queryRange (h : After m points m') (hk : m.Kept)
    (hacc : ∀ p ∈ points, accepts m.shardDuration p.2.timestamp)
    (hl : (History.of points).latest (key, p.timestamp) = some p)
    (ha : a ≤ p.timestamp) (hb : p.timestamp ≤ b) :
    ∃ ps, m'.queryRange key a b = .ok ps ∧ p ∈ ps := by
  have hw := (History.mem_of_latest hl).1
  obtain ⟨⟨metric, p'⟩, hmem, he⟩ := mem_map.mp (mem_reverse.mp hw)
  obtain ⟨rfl, rfl⟩ := Prod.mk.inj he
  obtain ⟨start, hst⟩ := start_of_accepts (hacc _ hmem)
  have hp : (metric, p') ∈ points.filter (startsAt m.shardDuration start) :=
    mem_filter.mpr ⟨hmem, decide_eq_true hst⟩
  obtain ⟨shard, hs⟩ := Option.isSome_iff_exists.mp <|
    (h.isSome start).mpr <| .inr <| ne_nil_of_mem hp
  refine (h.kept hk).mem_queryRange hs ?_ ha hb
  -- The shard takes all points that belong to it.
  have hf : (points.filter (startsAt m.shardDuration start)).filter
      (fun p => (m.shardAt start).containsTimestamp p.2.timestamp) =
        points.filter (startsAt m.shardDuration start) := by
    refine filter_eq_self.mpr fun p hp => ?_
    have ⟨hmem, hst⟩ := mem_filter.mp hp
    exact (hk.keyed.containsTimestamp (of_decide_eq_true hst)).trans (hacc p hmem)
  rw [h.get? hs, TimeShard.insertBatch, hf, (hk.shardAt start).intact.memtable_insertBatch,
    latest_filter_startsAt hst, hl]
  rfl

end Returned

-- Both ways of writing the points succeed and leave the same contents, or both fail.
def Agree (m : ShardManager F) (points : List (Metric × DataPoint)) : Prop :=
  (m.insertBatch points).2 = .ok () ∧ (m.insertAll points).2 = .ok () ∧
      (∀ key a b, (m.insertBatch points).1.queryRange key a b =
        (m.insertAll points).1.queryRange key a b) ∨
    (m.insertBatch points).2 ≠ .ok () ∧ (m.insertAll points).2 ≠ .ok ()

-- What a successful write has written last for a series and time is returned by every query that
-- covers the time.
def Returned (points : List (Metric × DataPoint)) (r : ShardManager F × Result Unit) : Prop :=
  r.2 = .ok () → ∀ key p, (History.of points).latest (key, p.timestamp) = some p →
    ∀ a b, a ≤ p.timestamp → p.timestamp ≤ b → ∃ ps, r.1.queryRange key a b = .ok ps ∧ p ∈ ps

theorem agree_iff (hk : m.Keyed) (hd : 0 < m.shardDuration) :
    m.Agree points ↔ ∀ p ∈ points, InShard m.shardDuration p.2.timestamp := by
  obtain ⟨m', hm', ha⟩ := insertBatch_after (exists_start hd points)
  have ⟨hok, ha'⟩ := hk.insertAll (exists_start hd points)
  simp only [accepts_iff_inShard hd] at hok
  rw [Agree, ← hok, hm']
  constructor
  · rintro (⟨-, h, -⟩ | ⟨h, -⟩)
    · exact h
    · exact absurd rfl h
  · intro h
    refine .inl ⟨rfl, h, fun key a b => ?_⟩
    rw [ha.unique (ha' h)]

theorem returned_insert (hk : m.Kept) (hd : 0 < m.shardDuration) :
    Returned [(metric, p)] (m.insert metric p) := by
  intro hok key p' hl a b ha hb
  obtain ⟨start, hst, -⟩ := shardStartTime_of_pos hd p.timestamp
  have ⟨hafter, hiff⟩ : After m [(metric, p)] _ ∧ _ := hk.keyed.insert hst
  exact hafter.mem_queryRange hk (by simpa using hiff.mp hok) hl ha hb

-- A batch does what single writes do exactly if every point is in the shard that its time leads to.
theorem batch_equals_singles (m : ShardManager F) (hk : m.Kept) (hd : 0 < m.shardDuration) :
    (∀ points, m.Agree points ∧ Returned points (m.insertBatch points) ↔
      ∀ p ∈ points, InShard m.shardDuration p.2.timestamp) ∧
    ∀ metric p, Returned [(metric, p)] (m.insert metric p) := by
  refine ⟨fun points => ⟨fun h => (agree_iff hk.keyed hd).mp h.1, fun h => ?_⟩, fun metric p =>
    returned_insert hk hd⟩
  refine ⟨(agree_iff hk.keyed hd).mpr h, fun _ key p hl a b ha hb => ?_⟩
  obtain ⟨m', hm', hafter⟩ := insertBatch_after (exists_start hd points)
  rw [hm']
  refine hafter.mem_queryRange hk (fun p hp => ?_) hl ha hb
  exact (accepts_iff_inShard hd).mpr (h p hp)

end ShardManager

section Sample

open ShardManager

local instance batchHashing : Hashing := .sample

theorem kept_new : (ShardManager.new 3600 : ShardManager .plain).Kept := by
  intro _ _ hs
  cases hs

-- The first point overwrites one that is already there, the second one needs a new shard.
theorem batch_equals_singles_two :
    let m : ShardManager .plain := ((ShardManager.new 3600).insert cpuLoad ⟨10, 1⟩).1
    let points := [(cpuLoad, (⟨10, 3⟩ : DataPoint)), (cpuLoad, ⟨7200, 2⟩)]
    m.Agree points ∧ Returned points (m.insertBatch points) := by
  intro m points
  have hk : m.Kept :=
    (kept_new.keyed.insert (show shardStartTime _ _ = .ok 0 by rfl)).1.kept kept_new
  exact ((batch_equals_singles m hk (by decide)).1 points).mpr (by decide)

-- The batch drops a point before the epoch, the single write refuses it.
theorem batch_drops_point : let m : ShardManager .plain := .new 3600
    let points := [(cpuLoad, (⟨-1, 1⟩ : DataPoint))]
    m.Kept ∧ 0 < m.shardDuration ∧ (m.insertBatch points).2 = .ok () ∧
      (m.insertAll points).2 ≠ .ok () ∧
      (m.insertBatch points).1.queryRange cpuLoad.seriesKey (-1) (-1) = .ok [] := by
  exact ⟨kept_new, by decide +kernel⟩

end Sample

end Tsdb
