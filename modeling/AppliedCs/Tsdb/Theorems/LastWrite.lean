import AppliedCs.Lib.Transition
import AppliedCs.Tsdb.Theorems.Shard

namespace Tsdb

open SortedList Overlay Transition

namespace ShardRun

variable [Hashing] {F : SSTableFormat}

structure State (F : SSTableFormat) where
  shard : TimeShard F
  written : History := []

inductive Event
  | insert (metric : Metric) (point : DataPoint)
  | insertBatch (points : List (Metric × DataPoint))
  | flush
  | compact

def step (s : State F) : Event → Option (State F)
  | .insert metric point =>
    let r := s.shard.insert metric point
    some {
      shard := r.1
      written := if r.2.isOk then .of [(metric, point)] ++ s.written else s.written }
  | .insertBatch points =>
    -- The shard ignores points that do not belong to it.
    let valid := points.filter fun p => s.shard.containsTimestamp p.2.timestamp
    some {
      shard := s.shard.insertBatch points
      written := .of valid ++ s.written }
  | .flush => some { s with shard := s.shard.flush.1 }
  | .compact => some { s with shard := s.shard.compact.1 }

-- A flush may not leave two values for one series and time in the SSTables.
def Careful (s : State F) : Event → Prop
  | .flush => ∀ data ∈ s.shard.tables, s.shard.memtable.data.Agrees data
  | _ => True

instance (s : State F) (e : Event) : Decidable (Careful s e) :=
  match e with
  | .flush => inferInstanceAs <|
    Decidable <| ∀ data ∈ s.shard.tables, s.shard.memtable.data.Agrees data
  | .insert _ _ | .insertBatch _ | .compact => .isTrue trivial

structure Inv (s : State F) : Prop where
  intact : s.shard.Intact
  consistent : s.shard.Consistent
  numbered : s.shard.Numbered
  latest : ∀ q, s.shard.contents.lookup q = s.written.latest q

variable {s s' : State F}

theorem Inv.insertBatch (h : Inv s) :
    Inv { shard := { s.shard with memtable := s.shard.memtable.insertBatch points }
          written := .of points ++ s.written } := by
  obtain ⟨hi, hl⟩ := @TimeShard.Intact.insertBatch F s.shard _ points h.intact
  exact ⟨hi, h.consistent, h.numbered, fun q => by rw [hl, h.latest, History.latest_append]⟩

theorem Inv.kept (h : Inv s) (hk : s.shard.Kept shard) (hc : shard.Consistent) :
    Inv { s with shard } :=
  ⟨hk.intact, hc, hk.numbered h.numbered, fun q => by rw [hk.lookup, h.latest]⟩

theorem Inv.flushable (h : Inv s) (hF : F.Faithful) (hne : s.shard.memtable.data.entries ≠ []) :
    s.shard.Flushable :=
  ⟨fun _ ht => h.numbered.ne_path ht le_rfl, hF h.intact.memtable hne⟩

theorem Inv.step (hF : F.Faithful) (h : Inv s) (hc : Careful s e)
    (he : ShardRun.step s e = some s') : Inv s' := by
  cases e <;> cases he
  case insert metric point =>
    simp only [TimeShard.insert]
    split
    case isTrue => exact h
    case isFalse => exact @Inv.insertBatch _ F s [(metric, point)] h
  case insertBatch points => exact h.insertBatch
  case flush =>
    obtain ⟨shard, m, hf, hk, ht, -⟩ := h.intact.flush (h.flushable hF)
    rw [hf]
    exact h.kept hk <| h.consistent.flush ht hc
  case compact =>
    obtain ⟨shard, m, hf, hk, hcons⟩ := h.intact.compact (h.flushable hF) fun _ =>
      ⟨fun t ht => h.numbered.ne_path ht (Nat.le_add_right _ _), hF h.intact.valid_contents⟩
    rw [hf]
    exact h.kept hk hcons

theorem Inv.queryRange (h : Inv s)
    (hab : a ≤ b ∨ ∀ p, (key, p) ∈ s.written → b < p.timestamp → ¬ p.timestamp < a) :
    ∃ ps, s.shard.queryRange key a b = .ok ps ∧ Sorted DataPoint.timestamp ps ∧
      ∀ t, SortedList.get DataPoint.timestamp ps t =
        if a ≤ t ∧ t ≤ b then s.written.latest (key, t) else none := by
  have hi : s.shard.Sliceable key a b := hab.imp_right fun hab t ht => by
    rw [h.latest, Option.ne_none_iff_exists'] at ht
    obtain ⟨p, hp⟩ := ht
    obtain ⟨hm, rfl⟩ := History.mem_of_latest hp
    exact hab p hm
  simpa only [h.latest] using h.intact.queryRange h.consistent hi

theorem inv_of_reaches (hF : F.Faithful)
    (r : Reaches step Careful { shard := .new start duration dir } s) : Inv s :=
  r.invariant {
    intact := ⟨SeriesMap.Valid.empty, by simp [TimeShard.new], .nil⟩
    consistent := .nil
    numbered := by simp [TimeShard.Numbered, TimeShard.new]
    latest := fun _ => rfl } (Inv.step hF)

end ShardRun

open ShardRun

theorem shard_last_write_wins [Hashing] {F : SSTableFormat} {start duration a b : Timestamp}
    {dir : Directory F} {s : State F} {key : SeriesKey} (hF : F.Faithful)
    (r : Reaches step Careful { shard := .new start duration dir } s)
    (hab : a ≤ b ∨ ∀ p, (key, p) ∈ s.written → b < p.timestamp → ¬ p.timestamp < a) :
    (∃ ps, s.shard.queryRange key a b = .ok ps ∧ Sorted DataPoint.timestamp ps ∧
      ∀ p, p ∈ ps ↔ a ≤ p.timestamp ∧ p.timestamp ≤ b ∧
        s.written.latest (key, p.timestamp) = some p) ∧
    ∀ e s', (e = .flush ∨ e = .compact) → Careful s e → step s e = some s' →
      s'.shard.queryRange key a b = s.shard.queryRange key a b := by
  have h := inv_of_reaches hF r
  obtain ⟨ps, hq, hs, hg⟩ := h.queryRange hab
  refine ⟨⟨ps, hq, hs, fun p => ?_⟩, fun e s' he hc hstep => ?_⟩
  · rw [hs.mem_iff, hg, Option.ite_none_right_eq_some, and_assoc]
  · have hw : s'.written = s.written := by obtain rfl | rfl := he <;> cases hstep <;> rfl
    obtain ⟨ps', hq', hs', hg'⟩ := (h.step hF hc hstep).queryRange (hw ▸ hab)
    rw [hq, hq', hs'.ext hs fun t => by rw [hg, hg', hw]]

section Sample

-- Files that hold the series as they are.
def SSTableFormat.plain : SSTableFormat where
  File := List Series
  Reader := List Series
  create series := if series.isEmpty
    then .error (.error (.storageError "Cannot create empty SSTable"))
    else .ok (series, ⟨0, 0, series.length, 0, 0⟩)
  «open» file := .ok file
  seriesKeys r := r.map (·.key)
  overlaps _ _ _ := true
  readSeries _ file key := .ok (file.bind (List.find? (·.key = key)))
  queryRange _ file key start stop :=
    (file.bind (List.find? (·.key = key))).elim (.ok []) (·.range start stop)

theorem plain_faithful [Hashing] : SSTableFormat.plain.Faithful := by
  intro data h hne
  have hv : data.values ≠ [] := by simpa [SortedMap.values] using hne
  have hfind (key : SeriesKey) : data.values.find? (·.key = key) = data.get? key := by
    rw [SortedMap.values, List.find?_map, SortedMap.get?, SortedList.get, ← List.head?_filter,
      ← List.head?_filter]
    refine congrArg (fun l : List _ => l.head?.map Prod.snd) <| List.filter_congr fun e he => ?_
    exact congrArg (fun k => decide (k = key)) (h (SortedMap.get?_eq_some.mpr he)).key
  refine ⟨data.values, _, data.values, if_neg (by simpa using hv), rfl, ?_⟩
  exact {
    keys := .of_eq h.map_key
    read := fun key => congrArg Except.ok (hfind key)
    query := fun {key start stop} hi => by
      show (data.values.find? (·.key = key)).elim _ _ = _
      rw [hfind]
      cases hs : data.get? key
      case none => rw [SeriesMap.points, hs]; rfl
      case some s =>
        rw [SeriesMap.points_of_get? hs] at hi ⊢
        exact (h hs).ordered.range_eq hi
    overlaps := fun _ _ _ => rfl }

local instance : Hashing := .sample

def cpuLoad : Metric :=
  ⟨"cpu", (∅ : Tags).insert "host" "a"⟩

def newShard : State .plain :=
  { shard := .new 0 3600 ∅ }

theorem shard_last_write_wins_compacted : ∃ s, Reaches step Careful newShard s ∧
    s.shard.sstables.length = 1 ∧ ∃ ps, s.shard.queryRange cpuLoad.seriesKey 0 100 = .ok ps ∧
      ⟨10, 3⟩ ∈ ps ∧ ⟨20, 2⟩ ∈ ps ∧ ⟨10, 1⟩ ∉ ps := by
  obtain ⟨s, r, hl, hw⟩ : ∃ s, Reaches step Careful newShard s ∧ s.shard.sstables.length = 1 ∧
      s.written = [(cpuLoad.seriesKey, ⟨10, 3⟩), (cpuLoad.seriesKey, ⟨20, 2⟩),
        (cpuLoad.seriesKey, ⟨10, 1⟩)] :=
    Reaches.exists_of_run [.insert cpuLoad ⟨10, 1⟩, .flush,
      .insertBatch [(cpuLoad, ⟨20, 2⟩), (cpuLoad, ⟨10, 3⟩)], .compact] (by decide +kernel)
  obtain ⟨⟨ps, hq, -, hp⟩, -⟩ := @shard_last_write_wins _ _ 0 3600 0 100 ∅ s cpuLoad.seriesKey
    plain_faithful r (.inl (by decide))
  refine ⟨s, r, hl, ps, hq, ?_⟩
  rw [hp, hp, hp, hw]
  decide

-- The second flush leaves the newer value behind the older one.
theorem older_write_wins : ∃ s, Reaches step anyEvent newShard s ∧
    s.written.latest (cpuLoad.seriesKey, 10) = some ⟨10, 2⟩ ∧
      s.shard.queryRange cpuLoad.seriesKey 10 10 = .ok [⟨10, 1⟩] :=
  Reaches.exists_of_run [.insert cpuLoad ⟨10, 1⟩, .flush, .insert cpuLoad ⟨10, 2⟩, .flush]
    (by decide +kernel)

end Sample

end Tsdb
