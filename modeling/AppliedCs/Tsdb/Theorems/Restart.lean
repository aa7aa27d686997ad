import AppliedCs.Tsdb.Theorems.ShardManager

namespace Tsdb

open SortedList Overlay Transition ShardManager SortedMap Option

namespace ShardManager

variable {m m' : ShardManager F}

-- The tables of a shard and the directory with their files.
def files (m : ShardManager F) (start : Timestamp) : List (SSTable F) × Directory F :=
  (m.shards.get? start).elim ([], ∅) fun shard => (shard.sstables, shard.dataDir)

def Complete (m : ShardManager F) : Prop :=
  ∀ start path, path ∈ (m.files start).2 ↔ ∃ t ∈ (m.files start).1, t.path = path

-- What a restart finds in the directories.
def stored (m : ShardManager F) (q : SeriesKey × Timestamp) : Option DataPoint :=
  (shardStartTime m.shardDuration q.2).toOption.bind fun start =>
    overlay (((m.files start).1.map (·.contents (m.files start).2)).map SeriesMap.lookup) q

theorem files_of_get? (h : m.shards.get? start = some shard) :
    m.files start = (shard.sstables, shard.dataDir) := by
  rw [files, h]
  rfl

theorem stored_of_start (hq : shardStartTime m.shardDuration q.2 = .ok start) :
    m.stored q = (m.shards.get? start).bind (·.stored q) := by
  simp only [stored, hq, Except.toOption, bind_some]
  cases hs : m.shards.get? start
  case none => rw [files, hs]; rfl
  case some shard => rw [files_of_get? hs]; rfl

theorem Complete.of_get? (h : m.Complete) (hs : m.shards.get? start = some shard) :
    shard.Complete := by
  have := h start
  rwa [files_of_get? hs] at this

theorem complete_of_shards
    (h : ∀ {start shard}, m.shards.get? start = some shard → shard.Complete) : m.Complete := by
  intro start
  cases hs : m.shards.get? start
  case none => rw [files, hs]; intro path; simp
  case some shard => rw [files_of_get? hs]; exact h hs

theorem files_congr (hd : m'.shardDuration = m.shardDuration) (hf : m'.files = m.files) :
    m'.stored = m.stored ∧ (m.Complete → m'.Complete) := by
  constructor
  · funext q
    rw [stored, stored, hd, hf]
  · intro h
    rwa [Complete, hf]

theorem files_eq_shardAt :
    m.files start = ((m.shardAt start).sstables, (m.shardAt start).dataDir) := by
  rw [files, shardAt]
  cases m.shards.get? start <;> rfl

theorem loadExisting_eq :
    (m.loadExisting dirs).1 = ⟨m.shardDuration, (dirs.map fun dir => (dir.1,
      (TimeShard.new dir.1 m.shardDuration dir.2.1).loadSSTables dir.2.2)).foldl
        (fun shards e => shards.insert e.1 e.2) m.shards⟩ := by
  induction dirs generalizing m
  case nil => rfl
  case cons dir dirs hi => exact hi

theorem shardDuration_restart : (m.restart names).shardDuration = m.shardDuration := by
  rw [restart, loadExisting_eq]
  rfl

theorem get?_restart : (m.restart names).shards.get? start =
    (m.shards.get? start).map (·.reload start m.shardDuration (names start)) := by
  rw [restart, loadExisting_eq, List.map_map]
  exact @get?_foldl_insert_map _ _ _ m.shards start _
    fun start shard => shard.reload start m.shardDuration (names start)

theorem exists_of_restart
    (h : (m.restart names).shards.get? start = some shard') : ∃ shard,
      m.shards.get? start = some shard ∧
        shard' = shard.reload start m.shardDuration (names start) := by
  rw [get?_restart, map_eq_some_iff] at h
  obtain ⟨shard, hs, rfl⟩ := h
  exact ⟨shard, hs, rfl⟩

variable [Hashing]

theorem After.files (h : After m l m') : m'.files = m.files := by
  funext start
  rw [files_eq_shardAt, files_eq_shardAt, h.shardAt]
  rfl

theorem Flushed.stored_eq (hf : m.Flushed m') (h : m.Sound) : m'.stored = m.lookup := by
  rw [← (hf.sound h).2]
  funext q
  cases hst : shardStartTime m'.shardDuration q.2
  case error e => rw [stored, lookup, hst]; rfl
  case ok start =>
    rw [stored_of_start hst, lookup_of_start hst]
    cases hs : m'.shards.get? start
    case none => rfl
    case some shard =>
      obtain ⟨_, -, hk, hc⟩ := hf.kept hs
      rw [bind_some, bind_some, hc.stored_eq hk.intact hk.memtable]

theorem Flushed.complete (hf : m.Flushed m') (h : m.Complete) : m'.Complete :=
  complete_of_shards fun hs' => by
    obtain ⟨shard, hs, hk, -⟩ := hf.kept hs'
    exact hk.complete (h.of_get? hs)

section Restart

-- The files of a directory are listed in any order.
def Listed (m : ShardManager F) (names : Timestamp → List FileName) : Prop :=
  ∀ e ∈ m.shards.entries, (names e.1).Perm e.2.dataDir.keys

instance (m : ShardManager F) (names : Timestamp → List FileName) : Decidable (m.Listed names) :=
  inferInstanceAs <| Decidable <| ∀ e ∈ m.shards.entries, (names e.1).Perm e.2.dataDir.keys

theorem Sound.reload (h : m.Sound) (hc : m.Complete) (hn : m.Listed names)
    (hs : m.shards.get? start = some shard) :
    Owns m.shardDuration start (shard.reload start m.shardDuration (names start)) ∧
      (shard.reload start m.shardDuration (names start)).Complete ∧
      (shard.reload start m.shardDuration (names start)).stored = shard.stored ∧
      (shard.reload start m.shardDuration (names start)).contents.lookup = shard.stored := by
  have ho := h hs
  obtain ⟨hi, hcomp, hcon, hst⟩ := @TimeShard.Intact.reload F shard _ _ start m.shardDuration
    ho.intact (hc.of_get? hs) ho.consistent (hn _ (get?_eq_some.mp hs))
  have hl := (hcon.stored_eq hi rfl).symm.trans hst
  refine ⟨⟨⟨hi, rfl, rfl, fun {q} hq => ?_⟩, hcon⟩, hcomp, hst, hl⟩
  obtain ⟨hstart, hcont⟩ := ho.owned (q := q) <| by
    rw [hl] at hq
    rw [ho.consistent.lookup_contents ho.intact, ne_eq, or_eq_none_iff]
    exact fun hn => hq hn.2
  refine ⟨hstart, ?_⟩
  rwa [TimeShard.containsTimestamp, ho.startTime, ho.endTime] at hcont

theorem Sound.restart (h : m.Sound) (hc : m.Complete) (hn : m.Listed names) :
    (m.restart names).Sound ∧ (m.restart names).Complete ∧
      (m.restart names).lookup = m.stored ∧ (m.restart names).stored = m.stored := by
  refine ⟨fun start shard' hs' => ?_, complete_of_shards fun hs' => ?_, ?_, ?_⟩
  · obtain ⟨shard, hs, rfl⟩ := exists_of_restart hs'
    rw [shardDuration_restart]
    exact (h.reload hc hn hs).1
  · obtain ⟨shard, hs, rfl⟩ := exists_of_restart hs'
    exact (h.reload hc hn hs).2.1
  · funext q
    cases hst : shardStartTime m.shardDuration q.2
    case error e => rw [lookup, stored, shardDuration_restart, hst]; rfl
    case ok start =>
      rw [lookup_of_start (shardDuration_restart ▸ hst), stored_of_start hst, get?_restart]
      cases hs : m.shards.get? start
      case none => rfl
      case some shard => exact congrFun (h.reload hc hn hs).2.2.2 q
  · funext q
    cases hst : shardStartTime m.shardDuration q.2
    case error e => rw [stored, stored, shardDuration_restart, hst]; rfl
    case ok start =>
      rw [stored_of_start (shardDuration_restart ▸ hst), stored_of_start hst, get?_restart]
      cases hs : m.shards.get? start
      case none => rfl
      case some shard => exact congrFun (h.reload hc hn hs).2.2.1 q

end Restart

end ShardManager

namespace TimeShard

variable [Hashing] {s : TimeShard .bytes}

def MayFlush (s : TimeShard .bytes) : Prop :=
  s.memtable.data.entries ≠ [] →
    (∀ t ∈ s.sstables, t.path ≠ s.nextPath false) ∧ s.memtable.data.Fits

def MayMerge (s : TimeShard .bytes) : Prop :=
  1 < (s.tables ++ s.pending).length → (∀ t ∈ s.sstables, t.path ≠ s.compactPath) ∧ s.contents.Fits

instance : Decidable s.MayFlush :=
  inferInstanceAs <| Decidable <| s.memtable.data.entries ≠ [] →
    (∀ t ∈ s.sstables, t.path ≠ s.nextPath false) ∧ s.memtable.data.Fits

instance : Decidable s.MayMerge :=
  inferInstanceAs <| Decidable <| 1 < (s.tables ++ s.pending).length →
    (∀ t ∈ s.sstables, t.path ≠ s.compactPath) ∧ s.contents.Fits

theorem MayFlush.flushable (hf : s.MayFlush) (h : s.Intact) (hne : s.memtable.data.entries ≠ []) :
    s.Flushable :=
  ⟨(hf hne).1, (hf hne).2.storable h.memtable hne⟩

theorem MayMerge.mergeable (hm : s.MayMerge) (h : s.Intact)
    (hl : 1 < (s.tables ++ s.pending).length) : s.Mergeable :=
  ⟨(hm hl).1, (hm hl).2.storable h.valid_contents⟩

end TimeShard

namespace ManagerRun

variable [Hashing]

-- The points that have been flushed and not been overwritten or dropped since.
structure State (F : SSTableFormat) where
  manager : ShardManager F
  durable : List (SeriesKey × DataPoint) := []

inductive Event
  | insert (metric : Metric) (point : DataPoint)
  | flushAll
  | compactAll
  | dropBefore (timestamp : Timestamp)
  | restart (names : Timestamp → List FileName)

def unflushed (m : ShardManager F) : List (SeriesKey × DataPoint) :=
  m.shards.values.flatMap fun shard =>
    shard.memtable.data.entries.flatMap fun e => e.2.points.map (e.1, ·)

def dropped (d timestamp t : Timestamp) : Bool :=
  (shardStartTime d t).toOption.any fun start => start + d ≤ timestamp

def step (s : State F) : Event → Option (State F)
  | .insert metric point =>
    let r := s.manager.insert metric point
    let kept := s.durable.filter fun w => (w.1, w.2.timestamp) ≠ (metric.seriesKey, point.timestamp)
    some { manager := r.1, durable := if r.2.isOk then kept else s.durable }
  | .flushAll =>
    let r := s.manager.flushAll
    some {
      manager := r.1
      durable := if r.2.isOk then s.durable ++ unflushed s.manager else s.durable }
  | .compactAll =>
    let r := s.manager.compactAll
    some {
      manager := r.1
      durable := if r.2.isOk then s.durable ++ unflushed s.manager else s.durable }
  | .dropBefore timestamp =>
    let d := s.manager.shardDuration
    some {
      manager := (s.manager.dropBefore timestamp).1
      durable := s.durable.filter fun w => ¬ dropped d timestamp w.2.timestamp }
  | .restart names =>
    if s.manager.Listed names then some { s with manager := s.manager.restart names } else none

structure Inv (s : State F) : Prop where
  sound : s.manager.Sound
  complete : s.manager.Complete
  durable : ∀ {key p}, (key, p) ∈ s.durable →
    s.manager.lookup (key, p.timestamp) = some p ∧ s.manager.stored (key, p.timestamp) = some p

variable {s : State F}

theorem Inv.insert (h : Inv s) (he : step s (.insert metric p) = some s') : Inv s' := by
  cases he
  obtain ⟨m', r, hm, ⟨_, ha⟩, hs, hl, hr⟩ := @Sound.insert _ F s.manager metric p h.sound
  obtain ⟨hst, hc⟩ := files_congr ha.duration ha.files
  simp only [hm]
  refine ⟨hs, hc h.complete, fun {key p'} hmem => ?_⟩
  -- The point that was inserted has another series or time.
  have hw : (key, p') ∈ s.durable ∧
      (accepted s.manager.shardDuration [(metric, p)]).latest (key, p'.timestamp) = none := by
    by_cases ha : accepts s.manager.shardDuration p.timestamp
    case pos =>
      rw [hr.mpr ha, Except.isOk, Except.toBool, if_pos rfl, List.mem_filter] at hmem
      refine ⟨hmem.1, ?_⟩
      rw [accepted_singleton, if_pos ha]
      refine History.latest_singleton.trans <| if_neg fun he => ?_
      exact of_decide_eq_true hmem.2 he.symm
    have hok : r.isOk = false := by
      cases r
      case error => rfl
      case ok => exact (ha (hr.mp rfl)).elim
    rw [hok, if_neg (by simp)] at hmem
    refine ⟨hmem, ?_⟩
    rw [accepted_singleton, if_neg ha]
    rfl
  rw [hl, hw.2, hst]
  exact h.durable hw.1

theorem mem_unflushed {m : ShardManager F} (h : m.Sound) (hp : (key, p) ∈ unflushed m) :
    m.lookup (key, p.timestamp) = some p := by
  obtain ⟨shard, hshard, hp⟩ := List.mem_flatMap.mp hp
  obtain ⟨e, he, hp⟩ := List.mem_flatMap.mp hp
  obtain ⟨p, hp, heq⟩ := List.mem_map.mp hp
  cases heq
  obtain ⟨⟨start, shard⟩, hs, rfl⟩ := List.mem_map.mp hshard
  have hs := get?_eq_some.mpr hs
  have hm : shard.memtable.data.lookup (e.1, p.timestamp) = some p := by
    refine (h hs).intact.memtable.mem_points.mp ?_
    rwa [SeriesMap.points_of_get? (get?_eq_some.mpr he)]
  have hl : shard.contents.lookup (e.1, p.timestamp) = some p := by
    rw [(h hs).intact.lookup_contents, hm]
    rfl
  obtain ⟨hst, -⟩ := (h hs).owned (hl ▸ some_ne_none p)
  rw [lookup_of_start hst, hs]
  exact hl

theorem Inv.flushed (h : Inv s) (hf : s.manager.Flushed m) :
    Inv { manager := m, durable := s.durable ++ unflushed s.manager } := by
  obtain ⟨hs, hl⟩ := hf.sound h.sound
  have hst := hf.stored_eq h.sound
  refine ⟨hs, hf.complete h.complete, fun {key p} hp => ?_⟩
  have hp : s.manager.lookup (key, p.timestamp) = some p :=
    (List.mem_append.mp hp).elim (fun hp => (h.durable hp).1) (mem_unflushed h.sound)
  exact ⟨hl ▸ hp, hst ▸ hp⟩

theorem Inv.dropBefore (h : Inv s) (he : step s (.dropBefore timestamp) = some s') : Inv s' := by
  cases he
  have hget (start : Timestamp) : (s.manager.dropBefore timestamp).1.shards.get? start =
      if start + s.manager.shardDuration ≤ timestamp then none
        else s.manager.shards.get? start := by
    refine (get?_filter _).trans ?_
    split <;> simp_all
  have hsome {start shard}
      (hs : (s.manager.dropBefore timestamp).1.shards.get? start = some shard) :
      s.manager.shards.get? start = some shard := by
    rw [hget] at hs
    split at hs
    · cases hs
    · exact hs
  refine ⟨fun start shard hs => h.sound (hsome hs),
    complete_of_shards fun hs => h.complete.of_get? (hsome hs), fun {key p} hp => ?_⟩
  obtain ⟨hp, hd⟩ := List.mem_filter.mp hp
  obtain ⟨hl, hst⟩ := h.durable hp
  cases hq : shardStartTime s.manager.shardDuration p.timestamp
  case error e => rw [lookup, hq] at hl; cases hl
  case ok start =>
    have hkeep : (s.manager.dropBefore timestamp).1.shards.get? start =
        s.manager.shards.get? start := by
      rw [hget, if_neg]
      simpa [dropped, hq, Except.toOption] using hd
    rw [lookup_of_start hq] at hl
    rw [stored_of_start hq] at hst
    exact ⟨(lookup_of_start hq).trans (hkeep ▸ hl), (stored_of_start hq).trans (hkeep ▸ hst)⟩

theorem Inv.restart (h : Inv s) (he : step s (.restart names) = some s') : Inv s' := by
  rw [step, ite_none_right_eq_some] at he
  obtain ⟨hn, he⟩ := he
  cases he
  obtain ⟨hs, hc, hl, hst⟩ := h.sound.restart h.complete hn
  exact ⟨hs, hc, fun hp => ⟨hl ▸ (h.durable hp).2, hst ▸ (h.durable hp).2⟩⟩

-- A shard writes no file that one of its tables is kept in, every series fits into a file and
-- loses nothing there, and the tables get no second value for a series and time.
def Careful (s : State .bytes) : Event → Prop
  | .flushAll => ∀ shard ∈ s.manager.shards.values, shard.MayFlush ∧
    ∀ data ∈ shard.tables, shard.memtable.data.Agrees data
  | .compactAll => ∀ shard ∈ s.manager.shards.values, shard.MayFlush ∧ shard.MayMerge
  | _ => True

instance (s : State .bytes) (e : Event) : Decidable (Careful s e) :=
  match e with
  | .flushAll => inferInstanceAs <| Decidable <| ∀ shard ∈ s.manager.shards.values,
    shard.MayFlush ∧ ∀ data ∈ shard.tables, shard.memtable.data.Agrees data
  | .compactAll => inferInstanceAs <| Decidable <| ∀ shard ∈ s.manager.shards.values,
    shard.MayFlush ∧ shard.MayMerge
  | .insert _ _ | .dropBefore _ | .restart _ => .isTrue trivial

section Bytes

variable {s : State .bytes}

theorem Inv.flushAll (h : Inv s) (hc : Careful s .flushAll) :
    ∃ m xs, s.manager.flushAll = (m, .ok xs) ∧ s.manager.Flushed m :=
  h.sound.flushAll fun hs => by
    obtain ⟨hf, ha⟩ := hc _ (mem_values.mpr ⟨_, hs⟩)
    exact ⟨hf.flushable (h.sound hs).intact, ha⟩

theorem Inv.compactAll (h : Inv s) (hc : Careful s .compactAll) :
    ∃ m xs, s.manager.compactAll = (m, .ok xs) ∧ s.manager.Flushed m :=
  h.sound.compactAll fun hs => by
    obtain ⟨hf, hm⟩ := hc _ (mem_values.mpr ⟨_, hs⟩)
    exact ⟨hf.flushable (h.sound hs).intact, hm.mergeable (h.sound hs).intact⟩

theorem Inv.write (h : Inv s) (hw : e = .flushAll ∨ e = .compactAll) (hc : Careful s e)
    (he : step s e = some s') : s.manager.Flushed s'.manager ∧ Inv s' := by
  obtain rfl | rfl := hw <;> cases he
  · obtain ⟨m, xs, hm, hf⟩ := h.flushAll hc
    simp only [hm]
    exact ⟨hf, h.flushed hf⟩
  · obtain ⟨m, xs, hm, hf⟩ := h.compactAll hc
    simp only [hm]
    exact ⟨hf, h.flushed hf⟩

theorem Inv.step (h : Inv s) (hc : Careful s e) (he : ManagerRun.step s e = some s') : Inv s' := by
  cases e
  case insert => exact h.insert he
  case flushAll => exact (h.write (.inl rfl) hc he).2
  case compactAll => exact (h.write (.inr rfl) hc he).2
  case dropBefore => exact h.dropBefore he
  case restart => exact h.restart he

theorem inv_of_reaches (r : Reaches ManagerRun.step Careful { manager := .new d } s) : Inv s := by
  refine r.invariant ⟨?_, complete_of_shards ?_, ?_⟩ Inv.step
  · intro _ _ hs
    cases hs
  · intro _ _ hs
    cases hs
  · intro _ _ hp
    cases hp

end Bytes

end ManagerRun

open ManagerRun

theorem flushed_points_survive [Hashing] {d : Timestamp} {s : State .bytes}
    (r : Reaches step Careful { manager := .new d } s) :
    (∀ key p a b, (key, p) ∈ s.durable → a ≤ p.timestamp → p.timestamp ≤ b →
      ∃ ps, s.manager.queryRange key a b = .ok ps ∧ p ∈ ps) ∧
    (∀ start shard, s.manager.shards.get? start = some shard →
      (shard.sstables.map (·.path)).Nodup ∧ ∀ t ∈ shard.sstables, ∃ file,
        shard.dataDir.lookup t.path = some file ∧ SSTableReader.open file = .ok t.reader) ∧
    ∀ e s', (e = .flushAll ∨ e = .compactAll) → Careful s e → step s e = some s' →
      ∀ start shard shard', s.manager.shards.get? start = some shard →
        s'.manager.shards.get? start = some shard' → ∀ t ∈ shard.sstables, t ∈ shard'.sstables →
          shard'.dataDir.lookup t.path = shard.dataDir.lookup t.path := by
  have h := inv_of_reaches r
  refine ⟨fun key p a b hp ha hb => ?_, fun start shard hs => ⟨(h.sound hs).intact.paths,
    fun t ht => ?_⟩, fun e s' hw hc he start shard shard' hs hs' t ht ht' => ?_⟩
  · obtain ⟨ps, hq, hsort, hg⟩ := @Sound.queryRange _ _ _ key a b h.sound (.inl (ha.trans hb))
    refine ⟨ps, hq, hsort.mem_iff.mpr ?_⟩
    rw [hg, if_pos ⟨ha, hb⟩, (h.durable hp).1]
  · obtain ⟨file, hf, ho, -⟩ := ((h.sound hs).intact.holds t ht).stored
    exact ⟨file, hf, ho⟩
  · obtain ⟨shard₀, hs₀, hk, -⟩ := (h.write hw hc he).1.kept hs'
    cases hs.symm.trans hs₀
    exact hk.files t ht ht'

section Sample

local instance : Hashing := .sample

def oneHour : State .bytes :=
  { manager := .new 3600 }

-- The values 1.0 and 2.0.
def atTen : DataPoint :=
  ⟨10, 0x3FF0000000000000⟩

def atTwenty : DataPoint :=
  ⟨20, 0x4000000000000000⟩

def firstFile (compacted : Bool) (counter : ℕ) (_ : Timestamp) : List FileName :=
  [{ startTime := 0, endTime := 3600, counter, compacted }]

theorem flushed_points_survive_compaction : ∃ s, Reaches step Careful oneHour s ∧
    (cpuLoad.seriesKey, atTen) ∈ s.durable ∧
      ∃ ps, s.manager.queryRange cpuLoad.seriesKey 0 100 = .ok ps ∧ atTen ∈ ps := by
  obtain ⟨s, r, hp⟩ : ∃ s, Reaches step Careful oneHour s ∧
    (cpuLoad.seriesKey, atTen) ∈ s.durable :=
    Reaches.exists_of_run [.insert cpuLoad atTen, .flushAll, .insert cpuLoad atTwenty, .compactAll,
      .restart (firstFile true 2)] (by decide +kernel)
  obtain ⟨hq, -⟩ := @flushed_points_survive _ 3600 s r
  exact ⟨s, r, hp, hq _ _ 0 100 hp (by decide) (by decide)⟩

-- After the restart the counter of the shard starts at zero again.
theorem flushed_point_lost : ∃ s, Reaches step anyEvent oneHour s ∧
    (cpuLoad.seriesKey, atTen) ∈ s.durable ∧
      s.manager.queryRange cpuLoad.seriesKey 10 10 = .ok [] :=
  Reaches.exists_of_run [.insert cpuLoad atTen, .flushAll, .restart (firstFile false 0),
    .insert cpuLoad atTwenty, .flushAll] (by decide +kernel)

end Sample

end Tsdb
