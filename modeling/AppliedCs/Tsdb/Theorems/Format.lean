import AppliedCs.Tsdb.Theorems.SeriesMap

namespace Tsdb

open SortedList SortedMap

namespace SSTableFormat

-- A reader of a file returns what has been written to it.
structure Stores (F : SSTableFormat) (data : SeriesMap) (file : F.File) (r : F.Reader) : Prop where
  keys : (F.seriesKeys r).Perm data.keys
  read : ∀ key, F.readSeries r (some file) key = .ok (data.get? key)
  query : ∀ {key start stop},
    (start ≤ stop ∨ ∀ p ∈ data.points key, stop < p.timestamp → ¬ p.timestamp < start) →
      F.queryRange r (some file) key start stop =
        .ok ((data.points key).filter fun p => start ≤ p.timestamp ∧ p.timestamp ≤ stop)
  overlaps : ∀ {key start stop p}, p ∈ data.points key → start ≤ p.timestamp →
    p.timestamp ≤ stop → F.overlaps r start stop

def Storable (F : SSTableFormat) (data : SeriesMap) : Prop :=
  ∃ file m r, F.create data.values = .ok (file, m) ∧ F.open file = .ok r ∧ F.Stores data file r

def Faithful [Hashing] (F : SSTableFormat) : Prop :=
  ∀ {data : SeriesMap}, data.Valid → data.entries ≠ [] → F.Storable data

end SSTableFormat

namespace SeriesMap

variable [Hashing] {data : SeriesMap}

theorem Valid.map_key (h : data.Valid) : data.values.map (·.key) = data.keys := by
  rw [values, List.map_map]
  exact List.map_congr_left fun p hp => (h (get?_eq_some.mpr hp)).key

-- The sizes fit the fields of the file and the values survive the compression.
structure Fits (data : SeriesMap) : Prop where
  blocks : ∀ s ∈ data.values, (SSTableBuilder.addSeries {} s).writer.length < UInt32.size
  file : (SSTable.create data.values).toOption.all (·.1.length < UInt64.size)
  lossless : ∀ s ∈ data.values, decompressPoints (compressPoints s.points) = .ok s.points

instance : Decidable data.Fits :=
  decidable_of_iff
    ((∀ s ∈ data.values, (SSTableBuilder.addSeries {} s).writer.length < UInt32.size) ∧
    (SSTable.create data.values).toOption.all (·.1.length < UInt64.size) ∧
      ∀ s ∈ data.values, decompressPoints (compressPoints s.points) = .ok s.points)
    ⟨fun h => ⟨h.1, h.2.1, h.2.2⟩, fun h => ⟨h.blocks, h.file, h.lossless⟩⟩

theorem Fits.writable (hf : data.Fits) (h : data.Valid) (hne : data.entries ≠ []) :
    SSTable.Writable data.values where
  ne_nil := by simpa [values] using hne
  points s hs := by
    obtain ⟨key, hs⟩ := mem_values.mp hs
    exact (h hs).ne_nil
  ordered s hs := by
    obtain ⟨key, hs⟩ := mem_values.mp hs
    exact (h hs).ordered
  keys := h.map_key ▸ data.nodup_keys
  blocks := hf.blocks
  file file m hc := by simpa [hc, Except.toOption] using hf.file

theorem Fits.storable (hf : data.Fits) (h : data.Valid) (hne : data.entries ≠ []) :
    SSTableFormat.bytes.Storable data := by
  have hw := hf.writable h hne
  obtain ⟨file, m, r, hc, hr, o⟩ := hw.opened
  have hk : r.seriesKeys = data.keys := by
    rw [SSTableReader.seriesKeys, o.index, SSTable.map_seriesKey_entries, h.map_key]
  have hnone {key} (hs : data.get? key = none) : r.index.find? (·.seriesKey = key) = none := by
    refine List.find?_eq_none.mpr fun e he hek => ?_
    have hm : key ∈ data.keys := hk ▸ List.mem_map.mpr ⟨e, he, of_decide_eq_true hek⟩
    rw [mem_keys, hs] at hm
    cases hm
  refine ⟨file, m, r, hc, hr, ?_⟩
  exact {
    keys := .of_eq hk
    read := fun key => by
      cases hs : data.get? key
      case none =>
        show r.readSeries file key = _
        rw [SSTableReader.readSeries, hnone hs]
      case some s =>
        have hv := mem_values.mpr ⟨key, hs⟩
        have ho := o.readSeries hw hv
        rw [(h hs).key, hf.lossless s hv] at ho
        show r.readSeries file key = _
        rw [ho, Except.map, (h hs).metric, ← (h hs).key]
    query := fun {key start stop} hi => by
      show r.queryRange file key start stop = _
      cases hs : data.get? key
      case none => rw [SSTableReader.queryRange, hnone hs, points, hs]; rfl
      case some s =>
        have hv := mem_values.mpr ⟨key, hs⟩
        rw [points_of_get? hs] at hi ⊢
        have ho := o.queryRange hw hv (hf.lossless s hv) hi
        rwa [(h hs).key] at ho
    overlaps := fun {key start stop p} hp h₁ h₂ => by
      cases hs : data.get? key
      case none => rw [points, hs] at hp; cases hp
      case some s =>
        rw [points_of_get? hs] at hp
        obtain ⟨hmin, hmax⟩ := o.bounds s (mem_values.mpr ⟨key, hs⟩) p hp
        exact decide_eq_true ⟨hmin.trans h₂, h₁.trans hmax⟩ }

end SeriesMap

namespace SSTable

variable {t : SSTable F}

def contents (dir : Directory F) (t : SSTable F) : SeriesMap :=
  (F.seriesKeys t.reader).foldl
    (fun data key => ((t.readSeries dir key).toOption.join).elim data (data.insert key)) ∅

structure Holds [Hashing] (dir : Directory F) (t : SSTable F) (data : SeriesMap) : Prop where
  valid : data.Valid
  ne_nil : data.entries ≠ []
  stored : ∃ file, dir.lookup t.path = some file ∧ F.open file = .ok t.reader ∧
    F.Stores data file t.reader

theorem Holds.readSeries [Hashing] (h : t.Holds dir data) (key : SeriesKey) :
    t.readSeries dir key = .ok (data.get? key) := by
  obtain ⟨file, hf, -, hs⟩ := h.stored
  rw [SSTable.readSeries, hf, hs.read]

theorem Holds.contents_eq [Hashing] (h : t.Holds dir data) : t.contents dir = data := by
  obtain ⟨file, hf, -, hs⟩ := h.stored
  have hget (keys : List SeriesKey) (m : SeriesMap) (key : SeriesKey) :
      (keys.foldl (fun data key => ((t.readSeries dir key).toOption.join).elim data
        (data.insert key)) m).get? key = if key ∈ keys then (data.get? key).or (m.get? key)
          else m.get? key := by
    induction keys generalizing m
    case nil => rfl
    case cons k keys hi =>
      rw [List.foldl_cons, hi, h.readSeries]
      by_cases hk : k = key
      case pos =>
        subst hk
        cases hd : data.get? k <;> simp [Except.toOption, get?_insert]
      case neg =>
        cases hd : data.get? k <;> simp [Except.toOption, get?_insert, hk, Ne.symm hk]
  refine ext_get? fun key => ?_
  rw [contents, hget]
  simp only [hs.keys.mem_iff, mem_keys]
  cases data.get? key <;> simp

theorem Holds.frame [Hashing] (h : t.Holds dir data)
    (hd : dir'.lookup t.path = dir.lookup t.path) : t.Holds dir' data :=
  ⟨h.valid, h.ne_nil, hd ▸ h.stored⟩

end SSTable

end Tsdb
