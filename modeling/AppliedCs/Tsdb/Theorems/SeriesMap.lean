import AppliedCs.Lib.Overlay
import AppliedCs.Tsdb.Shard
import AppliedCs.Tsdb.Theorems.SSTable

namespace Tsdb

open SortedList SortedMap DataPoint

theorem Series.foldl_insertSorted {points : List DataPoint} :
    points.foldl insertSorted s = ⟨s.key, s.metric,
      points.foldl (fun l p => SortedList.insert timestamp p l) s.points⟩ := by
  induction points generalizing s
  case nil => rfl
  case cons p points hi =>
    have hp : s.insertSorted p =
        { s with points := SortedList.insert timestamp p s.points } := by
      rw [← insertSorted_eq, insertSorted]
      split <;> rfl
    rw [List.foldl_cons, List.foldl_cons, hi, hp]

-- A series with points that stands under the key of its metric.
structure Series.Valid [Hashing] (s : Series) (k : SeriesKey) : Prop where
  key : s.key = k
  metric : s.metric.seriesKey = k
  ordered : s.Ordered
  ne_nil : s.points ≠ []

namespace SeriesMap

variable {data : SeriesMap} {key k : SeriesKey} {t : Timestamp} {metric : Metric}

def points (data : SeriesMap) (key : SeriesKey) : List DataPoint :=
  (data.get? key).elim [] (·.points)

-- A map as what it says about the series and times.
def lookup (data : SeriesMap) (q : SeriesKey × Timestamp) : Option DataPoint :=
  SortedList.get timestamp (data.points q.1) q.2

theorem points_of_get? (h : data.get? key = some s) : data.points key = s.points := by
  rw [points, h]
  rfl

@[simp]
theorem lookup_empty (q : SeriesKey × Timestamp) : lookup ∅ q = none :=
  rfl

theorem timestamp_of_lookup (h : data.lookup (key, t) = some p) : p.timestamp = t :=
  key_of_get h

theorem lookup_insertPoints [Hashing] (h : Sorted timestamp ps) :
    (data.insertPoints key metric ps).lookup (k, t) =
      if key = k then (SortedList.get timestamp ps t).or (data.lookup (k, t))
      else data.lookup (k, t) := by
  rw [lookup, points, insertPoints, get?_insert]
  by_cases hk : key = k
  case neg => rw [if_neg hk, if_neg hk]; rfl
  case pos =>
    subst hk
    rw [if_pos rfl, if_pos rfl, Option.elim_some, Series.foldl_insertSorted, h.get_foldl_insert,
      lookup, points]
    cases data.get? key <;> rfl

-- There is no series and time for which both maps have a point and the points differ.
def Agrees (data data' : SeriesMap) : Prop :=
  ∀ e ∈ data.entries, ∀ p ∈ e.2.points, ∀ p' ∈ data'.points e.1, p'.timestamp = p.timestamp → p' = p

instance {data' : SeriesMap} : Decidable (data.Agrees data') :=
  inferInstanceAs <| Decidable <| ∀ e ∈ data.entries, ∀ p ∈ e.2.points,
    ∀ p' ∈ data'.points e.1, p'.timestamp = p.timestamp → p' = p

theorem Agrees.agree (h : data.Agrees data') : Overlay.Agree data.lookup data'.lookup := by
  rintro ⟨key, t⟩ p p' hp hp'
  cases hs : data.get? key
  case none => rw [lookup, points, hs] at hp; cases hp
  case some s =>
    have hm := mem_of_get hp
    rw [points_of_get? hs] at hm
    refine (h _ (get?_eq_some.mp hs) p hm p' (mem_of_get hp') ?_).symm
    rw [timestamp_of_lookup hp, timestamp_of_lookup hp']

variable [Hashing]

def Valid (data : SeriesMap) : Prop :=
  ∀ ⦃key s⦄, data.get? key = some s → s.Valid key

theorem Valid.empty : Valid ∅ :=
  fun _ _ h => by cases h

theorem Valid.sorted (h : data.Valid) (key : SeriesKey) : Sorted timestamp (data.points key) := by
  cases hs : data.get? key
  case none => rw [points, hs]; exact .nil
  case some s => rw [points_of_get? hs]; exact (h hs).ordered

theorem Valid.mem_points (h : data.Valid) :
    p ∈ data.points key ↔ data.lookup (key, p.timestamp) = some p :=
  (h.sorted key).mem_iff

theorem Valid.ne_nil_iff (h : data.Valid) : data.entries ≠ [] ↔ ∃ q, data.lookup q ≠ none := by
  constructor
  · intro hne
    obtain ⟨⟨key, s⟩, hp⟩ := List.exists_mem_of_ne_nil _ hne
    have hs := SortedMap.get?_eq_some.mpr hp
    obtain ⟨p, hp⟩ := List.exists_mem_of_ne_nil _ (h hs).ne_nil
    refine ⟨(key, p.timestamp), ?_⟩
    rw [h.mem_points.mp (points_of_get? hs ▸ hp)]
    exact Option.some_ne_none p
  · rintro ⟨q, hq⟩ hnil
    rw [show data = ∅ from SortedMap.ext hnil] at hq
    exact hq rfl

theorem Valid.insertPoints (h : data.Valid) (hk : metric.seriesKey = key) (hp : ps ≠ [])
    (hs : Sorted timestamp ps) : (data.insertPoints key metric ps).Valid := by
  intro k s hg
  rw [SeriesMap.insertPoints, get?_insert] at hg
  split at hg
  case isFalse => exact h hg
  case isTrue he =>
    subst he
    rw [Series.foldl_insertSorted] at hg
    cases hg
    obtain ⟨p, hp⟩ := List.exists_mem_of_ne_nil _ hp
    refine ⟨?_, ?_, Sorted.foldl_insert ?_, List.ne_nil_of_mem <| mem_of_get <|
      hs.get_foldl_insert.trans <| congrArg (Option.or · _) (hs.get_of_mem hp)⟩ <;>
        cases hd : data.get? key
    · exact hk
    · exact (h hd).key
    · exact hk
    · exact (h hd).metric
    · exact .nil
    · exact (h hd).ordered

section Merge

variable {m : SeriesMap} {keys : List SeriesKey}

def mergeKey (data m : SeriesMap) (key : SeriesKey) : SeriesMap :=
  match data.get? key with
  | none => m
  | some s => m.insertPoints key s.metric s.points

-- The points of the second map take the place of those of the first.
def merge (m data : SeriesMap) : SeriesMap :=
  data.keys.foldl (mergeKey data) m

def mergeSeries (old : Option Series) : Option Series → Option Series
  | none => old
  | some s => some <| s.points.foldl Series.insertSorted <| old.getD (Series.new s.metric)

theorem get?_mergeKey : (mergeKey data m k).get? key =
    if k = key then mergeSeries (m.get? key) (data.get? key) else m.get? key := by
  rw [mergeKey]
  by_cases hk : k = key
  case pos =>
    subst hk
    rw [if_pos rfl]
    cases data.get? k
    case none => rfl
    case some s => exact get?_insert.trans <| if_pos rfl
  case neg =>
    rw [if_neg hk]
    cases data.get? k
    case none => rfl
    case some s => exact get?_insert.trans <| if_neg hk

theorem get?_foldl_mergeKey (h : keys.Nodup) : (keys.foldl (mergeKey data) m).get? key =
    if key ∈ keys then mergeSeries (m.get? key) (data.get? key) else m.get? key := by
  induction keys generalizing m
  case nil => rfl
  case cons k keys hi =>
    obtain ⟨hk, h⟩ := List.nodup_cons.mp h
    rw [List.foldl_cons, hi h, get?_mergeKey]
    by_cases hkey : k = key
    case pos =>
      subst hkey
      rw [if_neg hk, if_pos List.mem_cons_self, if_pos rfl]
    case neg => simp only [hkey, Ne.symm hkey, if_false, List.mem_cons, false_or]

theorem foldl_mergeKey_perm (h : keys.Perm keys') (hk : keys.Nodup) :
    keys.foldl (mergeKey data) m = keys'.foldl (mergeKey data) m :=
  ext_get? fun key => by
    rw [get?_foldl_mergeKey hk, get?_foldl_mergeKey (h.nodup_iff.mp hk)]
    simp only [h.mem_iff]

theorem get?_merge : (m.merge data).get? key = mergeSeries (m.get? key) (data.get? key) := by
  rw [merge, get?_foldl_mergeKey data.nodup_keys]
  split
  case isTrue => rfl
  case isFalse hk =>
    rw [mem_keys, Option.not_isSome_iff_eq_none] at hk
    rw [hk]
    rfl

theorem lookup_merge (h : data.Valid) (q : SeriesKey × Timestamp) :
    (m.merge data).lookup q = (data.lookup q).or (m.lookup q) := by
  obtain ⟨key, t⟩ := q
  rw [lookup, points, get?_merge]
  cases hs : data.get? key
  case none => simp [lookup, points, hs, mergeSeries, SortedList.get]
  case some s =>
    rw [mergeSeries, Option.elim_some, Series.foldl_insertSorted, (h hs).ordered.get_foldl_insert,
      lookup, lookup, points_of_get? hs, points]
    cases m.get? key <;> rfl

theorem Valid.merge (hm : m.Valid) (h : data.Valid) : (m.merge data).Valid := by
  rw [SeriesMap.merge]
  generalize data.keys = keys
  induction keys generalizing m
  case nil => exact hm
  case cons key keys hi =>
    refine hi ?_
    rw [mergeKey]
    split
    · exact hm
    case h_2 s hs => exact hm.insertPoints (h hs).metric (h hs).ne_nil (h hs).ordered

end Merge

end SeriesMap

end Tsdb
