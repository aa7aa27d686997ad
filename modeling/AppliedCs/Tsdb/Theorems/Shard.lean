import AppliedCs.Tsdb.Theorems.Format

namespace Tsdb

open SortedList Overlay SeriesMap List AList DataPoint

namespace SeriesMap

variable [Hashing] {maps : List SeriesMap}

theorem lookup_foldl_merge (h : ∀ data ∈ maps, data.Valid) (q : SeriesKey × Timestamp) :
    (maps.foldl merge m).lookup q = (overlay (maps.reverse.map lookup) q).or (m.lookup q) := by
  induction maps generalizing m
  case nil => rfl
  case cons data maps hi =>
    rw [foldl_cons, hi fun d hd => h d (mem_cons_of_mem data hd),
      lookup_merge (h data mem_cons_self), reverse_cons, map_append, overlay_append,
      Option.or_assoc]
    simp

theorem Valid.foldl_merge (hm : m.Valid) (h : ∀ data ∈ maps, data.Valid) :
    (maps.foldl SeriesMap.merge m).Valid := by
  induction maps generalizing m
  case nil => exact hm
  case cons data maps hi =>
    exact hi (hm.merge (h data mem_cons_self)) fun d hd => h d (mem_cons_of_mem data hd)

omit [Hashing] in
-- The points in a range that are collected from several maps, where the first one counts.
theorem find?_flatMap_points {key : SeriesKey} {start stop t : Timestamp} :
    (maps.flatMap fun data => (data.points key).filter fun p =>
      start ≤ p.timestamp ∧ p.timestamp ≤ stop).find? (·.timestamp = t) =
        if start ≤ t ∧ t ≤ stop then overlay (maps.map lookup) (key, t) else none := by
  induction maps
  case nil => simp
  case cons data maps hi =>
    have hp : ((data.points key).filter fun p => start ≤ p.timestamp ∧ p.timestamp ≤ stop).find?
        (·.timestamp = t) = if start ≤ t ∧ t ≤ stop then data.lookup (key, t) else none := by
      rw [find?_filter, lookup]
      split
      case isTrue h =>
        refine congrArg (find? · _) <| funext fun p => ?_
        by_cases hp : p.timestamp = t <;> simp [hp, h]
      case isFalse h =>
        refine find?_eq_none.mpr fun p _ => ?_
        by_cases hp : p.timestamp = t <;> simp_all
    rw [flatMap_cons, find?_append, hi, hp, map_cons, overlay_cons]
    split <;> rfl

end SeriesMap

-- The points that were written, the last one first.
abbrev History := List (SeriesKey × DataPoint)

namespace History

variable {written : History}

def of [Hashing] (points : List (Metric × DataPoint)) : History :=
  (points.map fun p => (p.1.seriesKey, p.2)).reverse

def latest (written : History) (q : SeriesKey × Timestamp) : Option DataPoint :=
  (written.find? fun w => (w.1, w.2.timestamp) = q).map (·.2)

theorem latest_singleton : latest [w] q = if (w.1, w.2.timestamp) = q then some w.2 else none := by
  by_cases h : (w.1, w.2.timestamp) = q <;> simp [latest, h]

theorem latest_append :
    latest (written ++ written') q = (written.latest q).or (written'.latest q) := by
  rw [latest, find?_append, Option.map_or]
  rfl

theorem latest_of [Hashing] {points : List (Metric × DataPoint)} : (of points).latest q =
    (points.filter fun p => (p.1.seriesKey, p.2.timestamp) = q).getLast?.map (·.2) := by
  rw [latest, of, ← head?_filter, filter_reverse, head?_reverse, filter_map,
    getLast?_map, Option.map_map]
  rfl

theorem mem_of_latest (h : written.latest q = some p) : (q.1, p) ∈ written ∧ p.timestamp = q.2 := by
  obtain ⟨w, hw, rfl⟩ := Option.map_eq_some_iff.mp h
  have hq : (w.1, w.2.timestamp) = q := by simpa using find?_some hw
  subst hq
  exact ⟨mem_of_find?_eq_some hw, rfl⟩

end History

namespace TimeShard

variable {s s' : TimeShard F} {disk : Disk F}

section Write

theorem openTable_eq (hf : s.dataDir.lookup path = some file) (h : F.open file = .ok r) :
    s.openTable path = .ok ⟨path, r⟩ := by
  rw [openTable, hf]
  simp only [h, ok_bind]
  rfl

theorem flushOn_of_empty (h : s.memtable.data.entries = []) : s.flushOn disk = (s, .ok none) := by
  have hm : s.memtable = {} := congrArg MemTable.mk <| SortedMap.ext h
  rw [flushOn, if_pos (by rw [h]; rfl), ← hm]

-- The state after a flush of data that is not empty.
def flushed (s : TimeShard F) (file : F.File) (reader : F.Reader) : TimeShard F :=
  { s with
    memtable := {}
    sstables := s.sstables ++ [⟨s.nextPath false, reader⟩]
    dataDir := s.dataDir.insert (s.nextPath false) file
    sstableCounter := s.sstableCounter + 1 }

theorem flushOn_of_done (hne : s.memtable.data.entries ≠ [])
    (hw : disk.write (s.nextPath false) s.memtable.data.values = .done file tableMeta)
    (hr : disk.reopen (s.nextPath false) file = .ok reader) :
    s.flushOn disk = (s.flushed file reader, .ok (some tableMeta)) := by
  have hw' : disk.write (nextPath { s with memtable := {} } false) s.memtable.data.values =
    .done file tableMeta := hw
  have hr' : disk.reopen (nextPath { s with memtable := {} } false) file = .ok reader := hr
  simp only [flushOn, List.isEmpty_iff, hne, if_false, writeTable, hw', hr']
  rfl

theorem lookup_foldl_erase {dir : Directory F} {paths : List FileName} (h : path ∉ paths) :
    (paths.foldl (fun dir path => dir.erase path) dir).lookup path = dir.lookup path := by
  induction paths generalizing dir
  case nil => rfl
  case cons p paths hi =>
    rw [mem_cons, not_or] at h
    rw [foldl_cons, hi h.2, lookup_erase_ne h.1]

theorem mem_foldl_erase {dir : Directory F} {paths : List FileName} :
    path ∈ paths.foldl (fun dir path => dir.erase path) dir ↔ path ∉ paths ∧ path ∈ dir := by
  induction paths generalizing dir
  case nil => simp
  case cons p paths hi => rw [foldl_cons, hi, mem_erase, mem_cons]; tauto

end Write

variable [Hashing]

-- The data of the SSTables, the oldest first.
def tables (s : TimeShard F) : List SeriesMap :=
  s.sstables.map (·.contents s.dataDir)

-- For every series and time, the value that was written last.
def contents (s : TimeShard F) : SeriesMap :=
  (s.tables ++ [s.memtable.data]).foldl SeriesMap.merge ∅

-- The order in which queries look for a point.
def layers (s : TimeShard F) : List (SeriesKey × Timestamp → Option DataPoint) :=
  (s.memtable.data :: s.tables).map lookup

structure Intact (s : TimeShard F) : Prop where
  memtable : s.memtable.data.Valid
  holds : ∀ t ∈ s.sstables, t.Holds s.dataDir (t.contents s.dataDir)
  paths : (s.sstables.map (·.path)).Nodup

-- Only the memtable may have newer values.
def Consistent (s : TimeShard F) : Prop :=
  (s.tables.map lookup).Pairwise Agree

theorem Intact.valid (h : s.Intact) : ∀ data ∈ s.tables ++ [s.memtable.data], data.Valid := by
  intro data hd
  obtain hd | hd := mem_append.mp hd
  · obtain ⟨t, ht, rfl⟩ := mem_map.mp hd
    exact (h.holds t ht).valid
  · exact mem_singleton.mp hd ▸ h.memtable

theorem Intact.valid_contents (h : s.Intact) : s.contents.Valid :=
  SeriesMap.Valid.empty.foldl_merge h.valid

theorem Intact.lookup_contents (h : s.Intact) (q : SeriesKey × Timestamp) : s.contents.lookup q =
      (s.memtable.data.lookup q).or (overlay (s.tables.reverse.map lookup) q) := by
  rw [contents, lookup_foldl_merge h.valid]
  simp

-- As long as the SSTables agree, a query finds the value that was written last.
theorem Consistent.overlay_layers (hc : s.Consistent) (h : s.Intact) :
    overlay s.layers = s.contents.lookup := by
  funext q
  rw [h.lookup_contents, layers, map_cons, overlay_cons, map_reverse,
    ← overlay_perm hc (reverse_perm _).symm]

section Query

variable {key : SeriesKey} {start stop : Timestamp}

theorem queryTables_eq {sstables : List (SSTable F)}
    (h : ∀ t ∈ sstables, t.Holds dir (t.contents dir))
    (hi : start ≤ stop ∨ ∀ t ∈ sstables, ∀ p ∈ (t.contents dir).points key,
      stop < p.timestamp → ¬ p.timestamp < start) : queryTables dir key start stop sstables =
      .ok ((sstables.map (·.contents dir)).flatMap fun data =>
        (data.points key).filter fun p => start ≤ p.timestamp ∧ p.timestamp ≤ stop) := by
  induction sstables
  case nil => rfl
  case cons t sstables ih =>
    have ht := h t mem_cons_self
    have htail := ih (fun t ht => h t (mem_cons_of_mem _ ht)) <| hi.imp_right
      fun hi t ht => hi t (mem_cons_of_mem _ ht)
    obtain ⟨file, hf, -, hs⟩ := ht.stored
    rw [queryTables, htail, SSTable.queryRange, hf]
    split
    case isTrue => rw [hs.query <| hi.imp_right fun hi => hi t mem_cons_self]; rfl
    case isFalse ho =>
      have hnil : ((t.contents dir).points key).filter
          (fun p => start ≤ p.timestamp ∧ p.timestamp ≤ stop) = [] := by
        refine filter_eq_nil_iff.mpr fun p hp hr => ho ?_
        obtain ⟨h₁, h₂⟩ := of_decide_eq_true hr
        exact hs.overlaps hp h₁ h₂
      rw [map_cons, flatMap_cons, hnil]
      rfl

-- The range is not inverted around a point that the shard has.
def Sliceable (s : TimeShard F) (key : SeriesKey) (start stop : Timestamp) : Prop :=
  start ≤ stop ∨ ∀ t, s.contents.lookup (key, t) ≠ none → stop < t → ¬ t < start

theorem Intact.queryLayers (h : s.Intact)
    (hi : start ≤ stop ∨ ∀ data ∈ s.memtable.data :: s.tables, ∀ p ∈ data.points key,
      stop < p.timestamp → ¬ p.timestamp < start) :
    ∃ ps, s.queryRange key start stop = .ok ps ∧ Sorted timestamp ps ∧
      ∀ t, SortedList.get timestamp ps t =
        if start ≤ t ∧ t ≤ stop then overlay s.layers (key, t) else none := by
  have hm : s.memtable.queryRange key start stop = .ok ((s.memtable.data.points key).filter
      fun p => start ≤ p.timestamp ∧ p.timestamp ≤ stop) := by
    have him := hi.imp_right fun hi => hi s.memtable.data mem_cons_self
    rw [MemTable.queryRange]
    cases hs : s.memtable.data.get? key
    case none => rw [points, hs]; rfl
    case some series =>
      rw [points_of_get? hs] at him ⊢
      exact (h.memtable hs).ordered.range_eq him
  have ht := @queryTables_eq F _ key start stop s.dataDir s.sstables h.holds <|
    hi.imp_right fun hi t ht => hi _ <| mem_cons_of_mem _ <| mem_map_of_mem ht
  refine ⟨_, by rw [TimeShard.queryRange, hm, ht]; rfl, sorted_ofList, fun t => ?_⟩
  rw [get_ofList]
  exact @find?_flatMap_points (s.memtable.data :: s.tables) key start stop t

theorem Intact.queryRange (h : s.Intact) (hc : s.Consistent) (hi : s.Sliceable key start stop) :
    ∃ ps, s.queryRange key start stop = .ok ps ∧ Sorted timestamp ps ∧
      ∀ t, SortedList.get timestamp ps t =
        if start ≤ t ∧ t ≤ stop then s.contents.lookup (key, t) else none := by
  rw [← hc.overlay_layers h]
  -- Every point that is looked at is one that the shard has.
  refine h.queryLayers <| hi.imp_right fun hi data hd p hp => hi p.timestamp ?_
  have hv : data.Valid := h.valid data <| by
    rw [mem_append, mem_singleton]
    exact (mem_cons.mp hd).symm
  rw [← hc.overlay_layers h]
  intro hn
  have hl := overlay_eq_none.mp hn data.lookup (mem_map_of_mem hd)
  rw [hv.mem_points.mp hp] at hl
  cases hl

end Query

theorem mergeTable_eq {t : SSTable F} (h : t.Holds dir data) :
    mergeTable dir m t = .ok (m.merge data) := by
  obtain ⟨file, -, -, hs⟩ := h.stored
  have hstep : mergeSeries dir t = fun m key => pure (mergeKey data m key) := by
    funext m key
    rw [mergeSeries, h.readSeries, mergeKey]
    cases data.get? key <;> rfl
  rw [mergeTable, hstep, foldlM_pure,
    foldl_mergeKey_perm hs.keys (hs.keys.nodup_iff.mpr data.nodup_keys)]
  rfl

theorem Intact.merge (h : s.Intact) : s.merge = .ok (s.tables.foldl SeriesMap.merge ∅) := by
  have hm (sstables : List (SSTable F)) (m : SeriesMap)
      (h : ∀ t ∈ sstables, t.Holds s.dataDir (t.contents s.dataDir)) :
      sstables.foldlM (mergeTable s.dataDir) m =
        .ok ((sstables.map (·.contents s.dataDir)).foldl SeriesMap.merge m) := by
    induction sstables generalizing m
    case nil => rfl
    case cons t sstables hi =>
      rw [foldlM_cons, mergeTable_eq (h t mem_cons_self), ok_bind,
        hi _ fun t ht => h t (mem_cons_of_mem _ ht)]
      rfl
  exact hm s.sstables ∅ h.holds

-- A table is added under a path that no other table has.
theorem Intact.push {data : SeriesMap} {file : F.File} {t : SSTable F} {c : ℕ} (h : s.Intact)
    (hp : ∀ t' ∈ s.sstables, t'.path ≠ t.path) (hv : data.Valid) (hne : data.entries ≠ [])
    (ho : F.open file = .ok t.reader) (hs : F.Stores data file t.reader) (he : s' = { s with
      memtable := {}
      sstables := s.sstables ++ [t]
      dataDir := s.dataDir.insert t.path file
      sstableCounter := c }) : s'.Intact ∧ s'.tables = s.tables ++ [data] := by
  have ht : t.Holds (s.dataDir.insert t.path file) data :=
    ⟨hv, hne, file, lookup_insert _, ho, hs⟩
  have hold (t') (ht' : t' ∈ s.sstables) :
      t'.Holds (s.dataDir.insert t.path file) (t'.contents s.dataDir) :=
    (h.holds t' ht').frame <| lookup_insert_ne (hp t' ht')
  subst he
  refine ⟨⟨Valid.empty, fun t' ht' => ?_, ?_⟩, ?_⟩
  · obtain ht' | ht' := mem_append.mp ht'
    · have := hold t' ht'
      rwa [this.contents_eq]
    · rw [mem_singleton.mp ht', ht.contents_eq]
      exact ht
  · rw [map_append, nodup_append]
    refine ⟨h.paths, nodup_singleton _, fun path hpath path' hpath' => ?_⟩
    obtain ⟨t', ht', rfl⟩ := mem_map.mp hpath
    rw [mem_singleton.mp hpath']
    exact hp t' ht'
  · rw [tables, tables, map_append, map_singleton, ht.contents_eq]
    refine congrArg (· ++ _) <| map_congr_left fun t' ht' => (hold t' ht').contents_eq

-- What the next flush is going to write.
def pending (s : TimeShard F) : List SeriesMap :=
  if s.memtable.data.entries = [] then [] else [s.memtable.data]

theorem contents_eq : s.contents = (s.tables ++ s.pending).foldl SeriesMap.merge ∅ := by
  rw [contents, pending]
  split
  case isFalse => rfl
  case isTrue h =>
    rw [foldl_append, append_nil, show s.memtable.data = ∅ from SortedMap.ext h]
    rfl

theorem contents_of_flushed (h : s.memtable = {}) :
    s.contents = s.tables.foldl SeriesMap.merge ∅ := by
  rw [contents_eq, pending, h]
  exact congrArg _ <| append_nil _

-- The files in the directory are those of the tables.
def Complete (s : TimeShard F) : Prop :=
  ∀ path, path ∈ s.dataDir ↔ ∃ t ∈ s.sstables, t.path = path

def Numbered (s : TimeShard F) : Prop :=
  ∀ t ∈ s.sstables, t.path.counter < s.sstableCounter

omit [Hashing] in
theorem Numbered.ne_path (h : s.Numbered) (ht : t ∈ s.sstables)
    (hp : s.sstableCounter ≤ path.counter) : t.path ≠ path := by
  rintro rfl
  exact (h t ht).not_ge hp

-- The memtable has moved to the tables and nothing else has changed for the queries.
structure Kept (s s' : TimeShard F) : Prop where
  intact : s'.Intact
  memtable : s'.memtable = {}
  lookup : s'.contents.lookup = s.contents.lookup
  startTime : s'.startTime = s.startTime
  endTime : s'.endTime = s.endTime
  files : ∀ t ∈ s.sstables, t ∈ s'.sstables → s'.dataDir.lookup t.path = s.dataDir.lookup t.path
  complete : s.Complete → s'.Complete
  numbered : s.Numbered → s'.Numbered

-- The path that a compaction is going to write to.
def compactPath (s : TimeShard F) : FileName :=
  { s.nextPath true with counter := s.sstableCounter + s.pending.length }

theorem Intact.flushOn (h : s.Intact)
    (hp : s.memtable.data.entries ≠ [] → ∀ t ∈ s.sstables, t.path ≠ s.nextPath false)
    (hs : s.memtable.data.entries ≠ [] → ∃ file m r,
      disk.write (s.nextPath false) s.memtable.data.values = .done file m ∧
      disk.reopen (s.nextPath false) file = .ok r ∧ F.open file = .ok r ∧
      F.Stores s.memtable.data file r) :
    ∃ s' m, s.flushOn disk = (s', .ok m) ∧ s.Kept s' ∧ s'.tables = s.tables ++ s.pending ∧
      s'.nextPath true = s.compactPath ∧
      ∀ t ∈ s'.sstables, t.path = s.compactPath → t ∈ s.sstables := by
  by_cases hne : s.memtable.data.entries = []
  case pos =>
    have hpend : s.pending = [] := if_pos hne
    have hm : s.memtable = {} := congrArg MemTable.mk <| SortedMap.ext hne
    refine ⟨s, none, flushOn_of_empty hne, ⟨h, hm, rfl, rfl, rfl, fun _ _ _ => rfl, id, id⟩, ?_, ?_,
      fun t ht _ => ht⟩
    · rw [hpend, append_nil]
    · rw [compactPath, hpend]
      rfl
  have hpend : s.pending = [s.memtable.data] := if_neg hne
  have hp := hp hne
  obtain ⟨file, m, r, hw, hr, ho, hst⟩ := hs hne
  obtain ⟨hi, ht⟩ := @Intact.push F s (s.flushed file r) _ s.memtable.data file
    ⟨s.nextPath false, r⟩ _ h hp h.memtable hne ho hst rfl
  refine ⟨_, _, flushOn_of_done hne hw hr, ⟨hi, rfl, ?_, rfl, rfl, fun t ht _ => ?_,
    fun hc path => ?_, fun hn t ht => ?_⟩, ?_, ?_, fun t ht he => ?_⟩
  · exact congrArg SeriesMap.lookup <| by rw [contents_of_flushed rfl, contents_eq, hpend, ← ht]
  · exact lookup_insert_ne (hp t ht)
  · rw [flushed, AList.mem_insert, hc path]
    constructor
    · rintro (rfl | ⟨t, ht, rfl⟩)
      · exact ⟨_, mem_append_right _ mem_cons_self, rfl⟩
      · exact ⟨t, mem_append_left _ ht, rfl⟩
    · rintro ⟨t, ht, rfl⟩
      refine (mem_append.mp ht).symm.imp (fun ht => ?_) fun ht => ⟨t, ht, rfl⟩
      rw [mem_singleton.mp ht]
  · obtain ht | ht := mem_append.mp ht
    · exact Nat.lt_succ_of_lt <| hn t ht
    · rw [mem_singleton.mp ht]
      exact Nat.lt_succ_self _
  · rw [ht, hpend]
  · rw [compactPath, hpend]
    rfl
  · refine (mem_append.mp ht).resolve_right fun ht => ?_
    rw [mem_singleton.mp ht] at he
    cases congrArg FileName.compacted he

-- The memtable can be written to a file of its own.
structure Flushable (s : TimeShard F) : Prop where
  path : ∀ t ∈ s.sstables, t.path ≠ s.nextPath false
  storable : F.Storable s.memtable.data

omit [Hashing] in
theorem write_healthy (h : F.create data = .ok (file, m)) :
    (Disk.healthy F).write path data = .done file m := by
  simp only [Disk.healthy, h]

theorem Intact.flush (h : s.Intact) (hs : s.memtable.data.entries ≠ [] → s.Flushable) :
    ∃ s' m, s.flush = (s', .ok m) ∧ s.Kept s' ∧ s'.tables = s.tables ++ s.pending ∧
      s'.nextPath true = s.compactPath ∧
      ∀ t ∈ s'.sstables, t.path = s.compactPath → t ∈ s.sstables :=
  h.flushOn (fun hne => (hs hne).path) fun hne =>
    have ⟨file, m, r, hc, ho, hst⟩ := (hs hne).storable
    ⟨file, m, r, write_healthy hc, ho, ho, hst⟩

theorem intact_single (hm : s.memtable = {}) (hs : s.sstables = [t]) (ht : t.Holds s.dataDir data) :
    s.Intact ∧ s.tables = [data] := by
  have hd := ht.contents_eq
  refine ⟨⟨hm ▸ Valid.empty, fun t' ht' => ?_, ?_⟩, ?_⟩
  · rw [hs, mem_singleton] at ht'
    rw [ht', hd]
    exact ht
  · rw [hs]
    exact nodup_singleton _
  · rw [tables, hs, map_singleton, hd]

omit [Hashing] in
theorem consistent_of_length_le (h : s.sstables.length ≤ 1) : s.Consistent := by
  rw [Consistent, tables]
  cases hs : s.sstables
  case nil => exact .nil
  case cons t sstables =>
    rw [hs, length_cons] at h
    have hnil : sstables = [] := length_eq_zero_iff.mp (by omega)
    rw [hnil]
    exact pairwise_singleton _ _

-- One table takes the place of all others.
def replace (s : TimeShard F) (file : F.File) (r : F.Reader) : TimeShard F :=
  { s with
    sstables := [⟨s.nextPath true, r⟩]
    dataDir := (s.sstables.map (·.path)).foldl (fun dir path => dir.erase path)
      (s.dataDir.insert (s.nextPath true) file)
    sstableCounter := s.sstableCounter + 1 }

theorem compactOn_of_le (hf : s.flushOn disk = (s', .ok m)) (hl : s'.sstables.length ≤ 1) :
    s.compactOn disk = (s', .ok none) := by
  simp only [compactOn, hf, hl, if_true]

theorem compactOn_of_done (hf : s.flushOn disk = (s', .ok m)) (hl : ¬ s'.sstables.length ≤ 1)
    (hr : disk.readError = none) (hm : s'.merge = .ok merged) (hne : merged.entries ≠ [])
    (hw : disk.write (s'.nextPath true) merged.values = .done file tableMeta)
    (ho : disk.reopen (s'.nextPath true) file = .ok reader) :
    s.compactOn disk = (s'.replace file reader, .ok (some tableMeta)) := by
  simp only [compactOn, hf, hl, if_false, mergeOn, hr, hm, List.isEmpty_iff, hne,
    writeTable, hw, ho]
  rfl

theorem Intact.merged_ne_nil (h : s.Intact) (hl : 0 < s.sstables.length) :
    (s.tables.foldl SeriesMap.merge ∅).entries ≠ [] := by
  obtain ⟨t, ht⟩ := exists_mem_of_length_pos hl
  have hv := fun data hd => h.valid data (mem_append_left _ hd)
  have ht' : t.contents s.dataDir ∈ s.tables := mem_map_of_mem ht
  obtain ⟨q, hq⟩ := (hv _ ht').ne_nil_iff.mp (h.holds t ht).ne_nil
  refine (SeriesMap.Valid.empty.foldl_merge hv).ne_nil_iff.mpr ⟨q, fun hn => hq ?_⟩
  rw [SeriesMap.lookup_foldl_merge hv, Option.or_eq_none_iff, overlay_eq_none] at hn
  exact hn.1 _ <| mem_map_of_mem <| mem_reverse.mpr ht'

-- The SSTables can be merged into a file of its own.
structure Mergeable (s : TimeShard F) : Prop where
  path : ∀ t ∈ s.sstables, t.path ≠ s.compactPath
  storable : s.contents.entries ≠ [] → F.Storable s.contents

theorem Intact.compact (h : s.Intact) (hs : s.memtable.data.entries ≠ [] → s.Flushable)
    (hm : 1 < (s.tables ++ s.pending).length → s.Mergeable) :
    ∃ s' m, s.compact = (s', .ok m) ∧ s.Kept s' ∧ s'.Consistent := by
  obtain ⟨s₁, m, hf, hk, ht, hpath, hts⟩ := h.flush hs
  have hc : s₁.tables.foldl SeriesMap.merge ∅ = s.contents := by rw [ht, contents_eq]
  have hlen : s₁.sstables.length = (s.tables ++ s.pending).length := by
    rw [← ht, tables, length_map]
  by_cases hl : s₁.sstables.length ≤ 1
  case pos => exact ⟨s₁, none, compactOn_of_le hf hl, hk, consistent_of_length_le hl⟩
  obtain ⟨hp, hm⟩ := hm (hlen ▸ Nat.lt_of_not_le hl)
  have hne : s.contents.entries ≠ [] := hc ▸ hk.intact.merged_ne_nil (by omega)
  obtain ⟨file, m, r, hcr, ho, hst⟩ := hm hne
  have hcom : s.compact = _ :=
    compactOn_of_done hf hl rfl (hc ▸ hk.intact.merge) hne (write_healthy hcr) ho
  have hfresh : s₁.nextPath true ∉ s₁.sstables.map (·.path) := fun hmem => by
    obtain ⟨t, ht, he⟩ := mem_map.mp hmem
    exact hp t (hts t ht (he.trans hpath)) (he.trans hpath)
  have hholds : SSTable.Holds (s₁.replace file r).dataDir ⟨s₁.nextPath true, r⟩ s.contents :=
    ⟨h.valid_contents, hne, file,
      (lookup_foldl_erase hfresh).trans (lookup_insert s₁.dataDir), ho, hst⟩
  have hmem : (s₁.replace file r).memtable = {} := hk.memtable
  obtain ⟨hi, htab⟩ := intact_single hmem rfl hholds
  refine ⟨_, _, hcom, ⟨hi, hmem, ?_, hk.startTime, hk.endTime, fun t ht ht' => ?_,
    fun hcomp path => ?_, fun hnum t ht => ?_⟩, consistent_of_length_le le_rfl⟩
  · funext q
    rw [contents_of_flushed hmem, htab, foldl_cons, foldl_nil,
      SeriesMap.lookup_merge h.valid_contents]
    exact Option.or_none
  · rw [mem_singleton.mp ht'] at ht
    exact (hp _ ht hpath).elim
  · rw [replace, mem_foldl_erase, AList.mem_insert, hk.complete hcomp path]
    simp only [mem_singleton, exists_eq_left, mem_map]
    constructor
    · rintro ⟨hno, he | ht⟩
      · exact he.symm
      · exact (hno ht).elim
    · rintro rfl
      exact ⟨fun hmem => hfresh (mem_map.mpr hmem), .inl rfl⟩
  · rw [mem_singleton.mp ht]
    exact Nat.lt_succ_self _

omit [Hashing] in
-- The tables still agree if the memtable that is moved to them has no other values.
theorem Consistent.flush (hc : s.Consistent) (ht : s'.tables = s.tables ++ s.pending)
    (ha : ∀ data ∈ s.tables, s.memtable.data.Agrees data) : s'.Consistent := by
  rw [Consistent, ht, map_append, pairwise_append]
  refine ⟨hc, ?_, fun f hf g hg => ?_⟩
  · rw [pending]
    split
    · exact .nil
    · exact pairwise_singleton _ _
  · obtain ⟨data, hd, rfl⟩ := mem_map.mp hf
    obtain ⟨data', hd', rfl⟩ := mem_map.mp hg
    rw [pending] at hd'
    split at hd'
    · cases hd'
    · rw [mem_singleton.mp hd']
      exact Std.Symm.symm _ _ (ha data hd).agree

theorem Intact.insert {metric : Metric} {p : DataPoint} (h : s.Intact) :
    { s with memtable := s.memtable.insert metric p }.Intact ∧
      ∀ q, { s with memtable := s.memtable.insert metric p }.contents.lookup q =
        if (metric.seriesKey, p.timestamp) = q then some p else s.contents.lookup q := by
  have hs : Sorted timestamp [p] := pairwise_singleton _ _
  have hi : { s with memtable := s.memtable.insert metric p }.Intact :=
    ⟨h.memtable.insertPoints rfl (cons_ne_nil _ _) hs, h.holds, h.paths⟩
  refine ⟨hi, fun q => ?_⟩
  have hl := @lookup_insertPoints s.memtable.data metric.seriesKey q.1 q.2 metric [p] _ hs
  obtain ⟨key, t⟩ := q
  rw [hi.lookup_contents, h.lookup_contents, MemTable.insert, hl, get_cons]
  by_cases hk : metric.seriesKey = key <;> by_cases ht : p.timestamp = t <;>
    simp [hk, ht, SortedList.get, tables]

theorem Intact.insertBatch {points : List (Metric × DataPoint)} (h : s.Intact) :
    { s with memtable := s.memtable.insertBatch points }.Intact ∧
      ∀ q, { s with memtable := s.memtable.insertBatch points }.contents.lookup q =
        ((History.of points).latest q).or (s.contents.lookup q) := by
  induction points generalizing s
  case nil => exact ⟨h, fun _ => rfl⟩
  case cons p points hi =>
    obtain ⟨hins, hl⟩ := @Intact.insert F s _ p.1 p.2 h
    obtain ⟨hint, hlook⟩ := hi hins
    refine ⟨hint, fun q => (hlook q).trans ?_⟩
    rw [hl, History.of, History.of, map_cons, reverse_cons, History.latest_append,
      History.latest_singleton, Option.or_assoc]
    split <;> rfl

section Load

variable {names : List FileName} {start : Timestamp}

-- What is left of the shard in its directory.
def stored (s : TimeShard F) : SeriesKey × Timestamp → Option DataPoint :=
  overlay (s.tables.map lookup)

theorem Consistent.lookup_contents (hc : s.Consistent) (h : s.Intact) (q : SeriesKey × Timestamp) :
    s.contents.lookup q = (s.memtable.data.lookup q).or (s.stored q) := by
  rw [← hc.overlay_layers h, layers, map_cons, overlay_cons]
  rfl

theorem Consistent.stored_eq (hc : s.Consistent) (h : s.Intact) (hm : s.memtable = {}) :
    s.stored = s.contents.lookup := by
  funext q
  rw [hc.lookup_contents h, hm]
  rfl

def reload (s : TimeShard F) (start d : Timestamp) (names : List FileName) : TimeShard F :=
  (new start d s.dataDir).loadSSTables names

theorem Intact.openTable (h : s.Intact) (ht : t ∈ s.sstables) : s.openTable t.path = .ok t := by
  obtain ⟨file, hf, ho, -⟩ := (h.holds t ht).stored
  exact openTable_eq hf ho

theorem Intact.perm_reload (h : s.Intact) (hc : s.Complete) (hn : names.Perm s.dataDir.keys) :
    (s.reload start d names).sstables.Perm s.sstables := by
  have hp : names.Perm (s.sstables.map (·.path)) := by
    refine hn.trans <| (perm_ext_iff_of_nodup s.dataDir.keys_nodup h.paths).mpr fun path => ?_
    rw [← AList.mem_keys, hc, mem_map]
  have hid : (s.sstables.map (·.path)).filterMap (fun path => (s.openTable path).toOption) =
      s.sstables := by
    rw [filterMap_map]
    refine (filterMap_congr fun t ht => ?_).trans filterMap_some
    rw [Function.comp_apply, h.openTable ht]
    rfl
  exact (hp.filterMap _).trans (.of_eq hid)

theorem Intact.reload (h : s.Intact) (hc : s.Complete) (hcon : s.Consistent)
    (hn : names.Perm s.dataDir.keys) : (s.reload start d names).Intact ∧
      (s.reload start d names).Complete ∧ (s.reload start d names).Consistent ∧
        (s.reload start d names).stored = s.stored := by
  have hp := @Intact.perm_reload F s _ names start d h hc hn
  have ht : ((s.reload start d names).tables.map lookup).Perm
    (s.tables.map lookup) := (hp.map _).map _
  refine ⟨⟨Valid.empty, fun t ht => h.holds t (hp.mem_iff.mp ht), ?_⟩, fun path => ?_,
    hcon.perm ht.symm (Std.Symm.symm _ _), (overlay_perm hcon ht.symm).symm⟩
  · exact (hp.map _).nodup_iff.mpr h.paths
  · simp only [hp.mem_iff]
    exact hc path

end Load

end TimeShard

end Tsdb
