import AppliedCs.Tsdb.Aggregation
import AppliedCs.Tsdb.Theorems.ShardManager
import AppliedCs.Lib.Fallible

namespace Tsdb

open SortedList F64 Fallible Arithmetic List

def bucketStarts (interval stop : Timestamp) : ℕ → Timestamp → List Timestamp
  | 0, _ => []
  | rounds + 1, bucketStart =>
    if bucketStart < stop then
      bucketStart :: bucketStarts interval stop rounds (bucketStart + interval)
    else []

-- A query whose buckets do not overflow.
structure IntervalFits (interval stop : Timestamp) : Prop where
  pos : 0 < interval
  add : stop.toInt + interval.toInt ≤ Int64.maxValue.toInt

section Buckets

section

variable (h : IntervalFits interval stop)

include h

theorem IntervalFits.toInt_pos : 0 < interval.toInt := by
  simpa [Int64.lt_iff_toInt_lt] using h.pos

theorem IntervalFits.toInt_add (hb : b < stop) :
    (b + interval).toInt = b.toInt + interval.toInt := by
  have hlt := Int64.lt_iff_toInt_lt.mp hb
  have hmax := h.add
  have hmin : Int64.minValue.toInt ≤ b.toInt := Int64.minValue_le_toInt b
  have hpos := h.toInt_pos
  have hv : Int64.maxValue.toInt = 9223372036854775807 := rfl
  have hw : Int64.minValue.toInt = -9223372036854775808 := rfl
  rw [Int64.toInt_add]
  exact Int.bmod_eq_of_le (by omega) (by omega)

theorem IntervalFits.lt_add (hb : b < stop) : b < b + interval := by
  have hpos := h.toInt_pos
  rw [Int64.lt_iff_toInt_lt, h.toInt_add hb]
  omega

end

def Enough (stop b : Timestamp) (rounds : ℕ) : Prop :=
  stop.toInt - b.toInt ≤ rounds

theorem Enough.succ (he : Enough stop b (rounds + 1)) (h : IntervalFits interval stop)
    (hb : b < stop) : Enough stop (b + interval) rounds := by
  have hpos := h.toInt_pos
  rw [Enough, h.toInt_add hb]
  rw [Enough] at he
  omega

theorem Enough.not_zero (he : Enough stop b 0) : ¬ b < stop := by
  rw [Int64.lt_iff_toInt_lt]
  rw [Enough] at he
  omega

section

variable (h : IntervalFits interval stop) (hs : s ∈ bucketStarts interval stop rounds b)

include h hs

theorem le_of_mem_bucketStarts : b ≤ s ∧ s < stop := by
  induction rounds generalizing b
  case zero => cases hs
  case succ rounds hi =>
    rw [bucketStarts] at hs
    split_ifs at hs with hb
    · cases hs
      case head => exact ⟨le_rfl, hb⟩
      case tail hs => exact ⟨(h.lt_add hb).le.trans (hi hs).1, (hi hs).2⟩
    · cases hs

theorem bucketStarts_disjoint (hs' : s' ∈ bucketStarts interval stop rounds b)
    (ht : s ≤ t ∧ t < s + interval) (ht' : s' ≤ t ∧ t < s' + interval) : s = s' := by
  induction rounds generalizing b
  case zero => cases hs
  case succ rounds hi =>
    rw [bucketStarts] at hs hs'
    split_ifs at hs hs' with hb
    · cases hs <;> cases hs'
      case head.head => rfl
      case tail.tail hs hs' => exact hi hs hs'
      case head.tail hs' =>
        exact absurd ht.2 (not_lt.mpr ((le_of_mem_bucketStarts h hs').1.trans ht'.1))
      case tail.head hs =>
        exact absurd ht'.2 (not_lt.mpr ((le_of_mem_bucketStarts h hs).1.trans ht.1))
    · cases hs

end

-- The end of the range is in a bucket only if the last bucket goes beyond it.
theorem covered_iff (h : IntervalFits interval stop) (he : Enough stop b rounds) (hb : b ≤ t)
    (ht : t ≤ stop) : (∃ s ∈ bucketStarts interval stop rounds b, s ≤ t ∧ t < s + interval) ↔
      ¬ interval.toInt ∣ stop.toInt - b.toInt ∨ t < stop := by
  induction rounds generalizing b
  case zero =>
    obtain rfl := le_antisymm (hb.trans ht) (not_lt.mp he.not_zero)
    simp [bucketStarts, not_lt.mpr hb]
  case succ rounds hi =>
    rw [bucketStarts]
    by_cases hlt : b < stop
    case neg =>
      obtain rfl := le_antisymm (hb.trans ht) (not_lt.mp hlt)
      simp [not_lt.mpr hb]
    have hadd := h.toInt_add hlt
    have hlt' := Int64.lt_iff_toInt_lt.mp hlt
    simp only [if_pos hlt, exists_mem_cons_iff]
    by_cases hin : t < b + interval
    case pos =>
      refine iff_of_true (.inl ⟨hb, hin⟩) ?_
      rcases ht.lt_or_eq with hts | rfl
      · exact .inr hts
      · rw [Int64.lt_iff_toInt_lt] at hin
        exact .inl fun hd => by have := Int.le_of_dvd (by omega) hd; omega
    have hdvd : interval.toInt ∣ stop.toInt - b.toInt ↔
        interval.toInt ∣ stop.toInt - (b + interval).toInt := by
      rw [hadd, show stop.toInt - (b.toInt + interval.toInt) =
        stop.toInt - b.toInt - interval.toInt by omega]
      exact ⟨fun hd => Int.dvd_sub hd (Int.dvd_refl _),
        fun hd => Int.sub_add_cancel (stop.toInt - b.toInt) _ ▸ Int.dvd_add hd (Int.dvd_refl _)⟩
    rw [hdvd, ← hi (he.succ h hlt) (not_lt.mp hin)]
    exact or_iff_right fun hc => hin hc.2

-- The points that the rounds collect, also those of empty buckets.
def bucketsOf (points : List DataPoint) (interval : Timestamp) (starts : List Timestamp) :
    List (List DataPoint) :=
  starts.map fun s => points.filter (inBucket s (s + interval))

theorem filter_split (hp : Sorted DataPoint.timestamp points) (hbc : b ≤ c) :
    points.filter (b ≤ ·.timestamp) =
      points.filter (inBucket b c) ++ points.filter (c ≤ ·.timestamp) := by
  induction points
  case nil => rfl
  case cons p points hi =>
    obtain ⟨hlt, hps⟩ := pairwise_cons.mp hp
    have hcons := hi hps
    by_cases hc : c ≤ p.timestamp
    case pos =>
      -- everything behind the point is beyond the bucket, too
      have hnone : (p :: points).filter (inBucket b c) = [] := by
        refine filter_eq_nil_iff.mpr fun q hq => ?_
        have hcq : c ≤ q.timestamp := by
          cases hq
          case head => exact hc
          case tail hq => exact hc.trans (hlt q hq).le
        simp [inBucket, not_lt.mpr hcq]
      rw [hnone, nil_append]
      refine filter_congr fun q hq => ?_
      have hcq : c ≤ q.timestamp := by
        cases hq
        case head => exact hc
        case tail hq => exact hc.trans (hlt q hq).le
      simp [hcq, hbc.trans hcq]
    case neg =>
      have hpc := not_le.mp hc
      by_cases hbp : b ≤ p.timestamp <;> simp [inBucket, hbp, hc, hpc] <;>
        simpa [inBucket] using hcons

theorem flatten_bucketsOf (h : IntervalFits interval stop) (hp : Sorted DataPoint.timestamp points)
    (hc : ∀ p ∈ points, b ≤ p.timestamp →
      ∃ s ∈ bucketStarts interval stop rounds b, s ≤ p.timestamp ∧ p.timestamp < s + interval) :
    (bucketsOf points interval (bucketStarts interval stop rounds b)).flatten =
      points.filter (b ≤ ·.timestamp) := by
  induction rounds generalizing b
  case zero =>
    refine (filter_eq_nil_iff.mpr fun p hm hb => ?_).symm
    obtain ⟨s, hs, -⟩ := hc p hm (of_decide_eq_true hb)
    cases hs
  case succ rounds hi =>
    by_cases hlt : b < stop
    case neg =>
      simp only [bucketStarts, if_neg hlt] at hc ⊢
      refine (filter_eq_nil_iff.mpr fun p hm hb => ?_).symm
      obtain ⟨s, hs, -⟩ := hc p hm (of_decide_eq_true hb)
      cases hs
    simp only [bucketStarts, if_pos hlt] at hc ⊢
    rw [bucketsOf, map_cons, flatten_cons, ← bucketsOf,
      filter_split hp (h.lt_add hlt).le, hi fun p hm hb => ?_]
    obtain ⟨s, hs, ht⟩ := hc p hm ((h.lt_add hlt).le.trans hb)
    cases hs
    case head => exact absurd ht.2 (not_lt.mpr hb)
    case tail hs => exact ⟨s, hs, ht⟩

end Buckets

namespace F64

variable {m : Value} {values : List Value} {groups : List (List Value)}

theorem lt_iff : lt a b ↔ isNan a = false ∧ isNan b = false ∧ rank a < rank b := by
  simp [lt]

theorem rank_le_infinity (h : isNan a = false) : rank a ≤ rank infinity := by
  have hmask : (a &&& 0x7FFFFFFFFFFFFFFF#64).toNat = a.toNat % 9223372036854775808 := by
    exact Nat.and_two_pow_sub_one_eq_mod _ 63
  have hle : (a &&& 0x7FFFFFFFFFFFFFFF#64).toNat ≤ 0x7FF0000000000000 := by
    simpa [isNan, infinity, BitVec.lt_def] using h
  have hinf : rank infinity = 0x7FF0000000000000 := by decide
  rw [rank]
  split_ifs with hm
  · omega
  · have hlt : 2 * a.toNat < 18446744073709551616 :=
      BitVec.msb_eq_false_iff_two_mul_lt.mp (Bool.eq_false_iff.mpr hm)
    omega

def minStep (m v : Value) : Value :=
  if lt v m then v else m

-- The least value, which is the first one of those that are equal. A NaN is passed over.
def minOf (m : Value) (values : List Value) : Value :=
  values.foldl minStep m

theorem isNan_minOf (h : isNan m = false) : isNan (minOf m values) = false := by
  induction values generalizing m
  case nil => exact h
  case cons v values hi =>
    refine hi ?_
    rw [minStep]
    split_ifs with hlt
    · exact (lt_iff.mp hlt).1
    · exact h

theorem minStep_assoc (hm : isNan m = false) (hx : isNan x = false) :
    minStep (minStep m v) x = minStep m (minStep (minStep infinity v) x) := by
  have h := @rank_le_infinity
  have hinf : isNan infinity = false := by decide
  simp only [minStep, lt_iff]
  grind

theorem minOf_eq (hm : isNan m = false) : minOf m values = minStep m (minOf infinity values) := by
  induction values generalizing m
  case nil =>
    have h := rank_le_infinity hm
    simp only [minOf, foldl_nil, minStep, lt_iff]
    grind
  case cons v values hi =>
    have hstep {m : Value} (hm : isNan m = false) : isNan (minStep m v) = false :=
      @isNan_minOf m [v] hm
    have hinf : isNan infinity = false := by decide
    have hx := @isNan_minOf infinity values hinf
    calc minOf m (v :: values)
      _ = minStep (minStep m v) (minOf infinity values) := hi (hstep hm)
      _ = minStep m (minStep (minStep infinity v) (minOf infinity values)) := minStep_assoc hm hx
      _ = minStep m (minOf infinity (v :: values)) :=
        congrArg (minStep m) (hi (hstep hinf)).symm

theorem minOf_flatten (hm : isNan m = false) :
    minOf m (groups.map (minOf infinity)) = minOf m groups.flatten := by
  induction groups generalizing m
  case nil => rfl
  case cons values groups hi =>
    rw [map_cons, flatten_cons, minOf, foldl_cons, ← minOf, ← minOf_eq hm,
      hi (isNan_minOf hm), minOf, minOf, minOf, foldl_append]

end F64

theorem enough_start (start stop : Timestamp) :
    Enough stop start (stop.toInt - start.toInt).toNat :=
  Int.self_le_toNat _

section Aggregate

variable [Arithmetic] {aggregation : Aggregation} {points : List DataPoint}
  {interval stop start : Timestamp}

namespace Aggregator

variable {a : Aggregator}

theorem aggregation_addAll : (a.addAll points).aggregation = a.aggregation := by
  induction points generalizing a
  case nil => rfl
  case cons _ _ hi => exact hi

theorem count_addAll : (a.addAll points).count = a.count + points.length := by
  induction points generalizing a
  case nil => rfl
  case cons p points hi =>
    rw [addAll, foldl_cons, ← addAll, hi, length_cons, Nat.add_comm points.length, ← Nat.add_assoc]
    rfl

theorem min_addAll : (a.addAll points).min = minOf a.min (points.map (·.value)) := by
  induction points generalizing a
  case nil => rfl
  case cons _ _ hi => exact hi

theorem result_count (h : points ≠ []) :
    ((new .count).addAll points).result = .ok (ofNat points.length) := by
  have hc := @count_addAll _ points (new .count)
  rw [result, aggregation_addAll, if_neg, hc]
  · simp [new]
  · rw [hc]
    simpa [new] using h

theorem result_min (h : points ≠ []) :
    ((new .min).addAll points).result = .ok (minOf infinity (points.map (·.value))) := by
  have hc := @count_addAll _ points (new .min)
  rw [result, aggregation_addAll, if_neg, min_addAll]
  · rfl
  · rw [hc]
    simpa [new] using h

end Aggregator

open Aggregator

def bucketOf (points : List DataPoint) (interval s : Timestamp) : List DataPoint :=
  points.filter (inBucket s (s + interval))

theorem aggregateBucket_eq : aggregateBucket points aggregation b (b + interval) =
    if bucketOf points interval b = [] then .ok [] else
      ((new aggregation).addAll (bucketOf points interval b)).result.map fun v => [(b, v)] := by
  have hc := @count_addAll _ (bucketOf points interval b) (new aggregation)
  rw [aggregateBucket, ← bucketOf]
  by_cases h : bucketOf points interval b = []
  case pos => rw [if_pos h, if_neg (by rw [h]; exact lt_irrefl 0)]
  case neg => rw [if_neg h, if_pos (by rw [hc]; exact Nat.add_pos_right _ (length_pos_iff.mpr h))]

theorem aggregateFrom_of_lt (h : IntervalFits interval stop) (hb : b < stop) :
    aggregateFrom points aggregation interval stop (rounds + 1) b = (do
      let bucket ← aggregateBucket points aggregation b (b + interval)
      return bucket ++ (← aggregateFrom points aggregation interval stop rounds
        (b + interval))) := by
  rw [aggregateFrom, if_pos hb]
  exact if_neg (not_lt.mpr (h.lt_add hb).le)

theorem aggregateFrom_of_le (hb : ¬ b < stop) :
    aggregateFrom points aggregation interval stop rounds b = .ok [] := by
  cases rounds <;> exact if_neg hb

-- The buckets that come out are those with points in them.
theorem map_fst_of_aggregateFrom (h : IntervalFits interval stop) (he : Enough stop b rounds)
    (hr : aggregateFrom points aggregation interval stop rounds b = .ok buckets) :
    buckets.map Prod.fst =
      (bucketStarts interval stop rounds b).filter (bucketOf points interval · ≠ []) := by
  induction rounds generalizing b buckets
  case zero =>
    rw [aggregateFrom_of_le he.not_zero] at hr
    cases hr
    rfl
  case succ rounds hi =>
    by_cases hb : b < stop
    case neg =>
      rw [aggregateFrom_of_le hb] at hr
      cases hr
      rw [bucketStarts, if_neg hb]
      rfl
    rw [aggregateFrom_of_lt h hb, aggregateBucket_eq] at hr
    obtain ⟨bucket, hbucket, hr⟩ := bind_eq_ok_iff.mp hr
    obtain ⟨rest, hrest, he'⟩ := bind_eq_ok_iff.mp hr
    cases he'
    rw [bucketStarts, if_pos hb, map_append, hi (he.succ h hb) hrest]
    split_ifs at hbucket with hne
    · cases hbucket
      rw [filter_cons_of_neg (by simpa using hne)]
      rfl
    · obtain ⟨v, -, rfl⟩ := map_eq_ok_iff.mp hbucket
      rw [filter_cons_of_pos (by simpa using hne)]
      rfl

theorem aggregateFrom_eq (h : IntervalFits interval stop) (he : Enough stop b rounds)
    (hf : ∀ ps, ps ≠ [] → ((new aggregation).addAll ps).result = .ok (f ps)) : ∃ buckets,
      aggregateFrom points aggregation interval stop rounds b = .ok buckets ∧
      buckets.map Prod.snd = ((bucketsOf points interval
        (bucketStarts interval stop rounds b)).filter (· ≠ [])).map f := by
  induction rounds generalizing b
  case zero => exact ⟨[], aggregateFrom_of_le he.not_zero, rfl⟩
  case succ rounds hi =>
    by_cases hb : b < stop
    case neg =>
      refine ⟨[], aggregateFrom_of_le hb, ?_⟩
      rw [bucketStarts, if_neg hb]
      rfl
    obtain ⟨buckets, hr, hm⟩ := hi (he.succ h hb)
    rw [aggregateFrom_of_lt h hb, aggregateBucket_eq, hr, bucketStarts, if_pos hb, bucketsOf,
      map_cons, ← bucketsOf, ← bucketOf]
    by_cases hne : bucketOf points interval b = []
    case pos =>
      refine ⟨buckets, ?_, ?_⟩
      · rw [if_pos hne]
        rfl
      · rw [filter_cons_of_neg (by simpa using hne), hm]
    case neg =>
      refine ⟨(b, f (bucketOf points interval b)) :: buckets, ?_, ?_⟩
      · rw [if_neg hne, hf _ hne]
        rfl
      · rw [filter_cons_of_pos (by simpa using hne), map_cons, map_cons, hm]

variable {F : SSTableFormat} {e : QueryExecutor F}

-- Every point is in one of the buckets that come out, and the numbers of their points and their
-- least values are those of all points.
structure Partitions (e : QueryExecutor F) (key : SeriesKey) (start stop interval : Timestamp)
    (points : List DataPoint) : Prop where
  existsUnique : ∀ {aggregation buckets},
    e.downsample key start stop interval aggregation = .ok buckets →
      ∀ p ∈ points, ∃! s, s ∈ buckets.map Prod.fst ∧ inBucket s (s + interval) p
  count : ∃ buckets, ∃ counts : List ℕ, e.downsample key start stop interval .count = .ok buckets ∧
    buckets.map Prod.snd = counts.map ofNat ∧
    e.aggregate key start stop .count = .ok (ofNat counts.sum)
  min : ∃ buckets, e.downsample key start stop interval .min = .ok buckets ∧
    e.aggregate key start stop .min = .ok (minOf infinity (buckets.map Prod.snd))

theorem downsample_eq (hq : e.storage.queryRange key start stop = .ok points) (hne : points ≠ [])
    (h : IntervalFits interval stop) : e.downsample key start stop interval aggregation =
      aggregateFrom points aggregation interval stop (stop.toInt - start.toInt).toNat start := by
  have hcond : ¬ (points.isEmpty ∨ interval ≤ 0) := by simp [hne, h.pos]
  rw [QueryExecutor.downsample, hq, ok_bind, aggregateWithInterval, if_neg hcond]

theorem aggregate_eq (hq : e.storage.queryRange key start stop = .ok points) :
    e.aggregate key start stop aggregation = ((new aggregation).addAll points).result := by
  rw [QueryExecutor.aggregate, hq, ok_bind]

-- The buckets together hold these points, one after the other.
def Covers (start stop interval : Timestamp) (points : List DataPoint) : Prop :=
  (bucketsOf points interval
    (bucketStarts interval stop (stop.toInt - start.toInt).toNat start)).flatten = points

section

variable (hc : Covers start stop interval points) (hne : points ≠ [])
  (hq : e.storage.queryRange key start stop = .ok points) (h : IntervalFits interval stop)

include hc hne hq h

theorem Covers.count :
    ∃ buckets, ∃ counts : List ℕ, e.downsample key start stop interval .count = .ok buckets ∧
      buckets.map Prod.snd = counts.map ofNat ∧
      e.aggregate key start stop .count = .ok (ofNat counts.sum) := by
  obtain ⟨buckets, hb, hm⟩ :=
    @aggregateFrom_eq _ .count points _ _ _ _ _ h (enough_start start stop) fun ps => result_count
  rw [Covers] at hc
  generalize bucketsOf points interval _ = groups at hc hm
  refine ⟨buckets, (groups.filter (· ≠ [])).map length, (downsample_eq hq hne h).trans hb, ?_, ?_⟩
  · rw [hm, map_map]
    rfl
  · rw [aggregate_eq hq, result_count hne, ← length_flatten, flatten_filter_ne_nil, hc]

theorem Covers.min : ∃ buckets, e.downsample key start stop interval .min = .ok buckets ∧
      e.aggregate key start stop .min = .ok (minOf infinity (buckets.map Prod.snd)) := by
  obtain ⟨buckets, hb, hm⟩ :=
    @aggregateFrom_eq _ .min points _ _ _ _ _ h (enough_start start stop) fun ps => result_min
  rw [Covers] at hc
  generalize bucketsOf points interval _ = groups at hc hm
  refine ⟨buckets, (downsample_eq hq hne h).trans hb, ?_⟩
  have hmin : buckets.map Prod.snd =
      ((groups.filter (· ≠ [])).map (map (·.value))).map (minOf infinity) := by
    rw [hm, map_map]
    rfl
  rw [aggregate_eq hq, result_min hne, hmin, minOf_flatten (by decide), ← map_flatten,
    flatten_filter_ne_nil, hc]

end

-- A point at the end of the range is left out if the end is also the end of a bucket.
theorem downsample_partitions_iff (hq : e.storage.queryRange key start stop = .ok points)
    (hs : Sorted DataPoint.timestamp points)
    (hr : ∀ p ∈ points, start ≤ p.timestamp ∧ p.timestamp ≤ stop) (h : IntervalFits interval stop) :
    Partitions e key start stop interval points ↔ points ≠ [] ∧
      (¬ interval.toInt ∣ stop.toInt - start.toInt ∨ ∀ p ∈ points, p.timestamp ≠ stop) := by
  have he := enough_start start stop
  constructor
  · intro hp
    have hne : points ≠ [] := by
      rintro rfl
      obtain ⟨_, counts, -, -, hc⟩ := hp.count
      rw [aggregate_eq hq] at hc
      have hnan := isNan_ofNat counts.sum
      rw [← Except.ok.inj hc] at hnan
      cases hnan
    refine ⟨hne, or_iff_not_imp_right.mpr fun hend => ?_⟩
    obtain ⟨p, hm, rfl⟩ := by simpa using hend
    obtain ⟨buckets, -, hd, -⟩ := hp.count
    obtain ⟨s, hb, -⟩ := hp.existsUnique hd p hm
    rw [downsample_eq hq hne h] at hd
    rw [map_fst_of_aggregateFrom h he hd] at hb
    have hin : s ≤ p.timestamp ∧ p.timestamp < s + interval := by simpa [inBucket] using hb.2
    have hc := (covered_iff h he (hr p hm).1 le_rfl).mp ⟨s, (mem_filter.mp hb.1).1, hin⟩
    exact hc.resolve_right (lt_irrefl _)
  · rintro ⟨hne, hend⟩
    have hcov : ∀ p ∈ points, start ≤ p.timestamp → ∃ s ∈ bucketStarts interval stop
        (stop.toInt - start.toInt).toNat start, s ≤ p.timestamp ∧ p.timestamp < s + interval := by
      intro p hm _
      refine (covered_iff h he (hr p hm).1 (hr p hm).2).mpr <| hend.imp_right fun hend => ?_
      exact lt_of_le_of_ne (hr p hm).2 (hend p hm)
    have hall : points.filter (start ≤ ·.timestamp) = points :=
      filter_eq_self.mpr fun p hm => decide_eq_true (hr p hm).1
    have hcovers : Covers start stop interval points := (flatten_bucketsOf h hs hcov).trans hall
    refine ⟨fun {aggregation buckets} hd p hm => ?_, hcovers.count hne hq h, hcovers.min hne hq h⟩
    · rw [downsample_eq hq hne h] at hd
      rw [map_fst_of_aggregateFrom h he hd]
      obtain ⟨s, hmem, hin⟩ := hcov p hm (hr p hm).1
      have hbucket : inBucket s (s + interval) p := by simpa [inBucket] using hin
      have hfull : bucketOf points interval s ≠ [] :=
        ne_nil_of_mem (mem_filter.mpr ⟨hm, hbucket⟩)
      refine ⟨s, ⟨mem_filter.mpr ⟨hmem, by simpa using hfull⟩, hbucket⟩, ?_⟩
      rintro s' ⟨hmem', hin'⟩
      exact bucketStarts_disjoint h (mem_filter.mp hmem').1 hmem
        (by simpa [inBucket] using hin') hin

end Aggregate

theorem StorageEngine.exists_queryRange [Hashing] {e : StorageEngine F} (h : e.shards.Sound)
    (hc : e.closed = false) (hle : start ≤ stop) :
    ∃ points, e.queryRange key start stop = .ok points ∧
      Sorted DataPoint.timestamp points ∧
      ∀ p ∈ points, start ≤ p.timestamp ∧ p.timestamp ≤ stop := by
  obtain ⟨points, hq, hs, hg⟩ := h.queryRange (.inl hle)
  refine ⟨points, ?_, hs, fun p hp => ?_⟩
  · rw [queryRange, checkOpen, if_neg (by simp [hc]), ok_bind, hq]
  · have hget := hs.get_of_mem hp
    rw [hg] at hget
    exact (ite_eq_iff.mp hget).elim (·.1) (fun h => nomatch h.2)

section Sample

-- A number of points up to a thousand as a double: the exponent, and the bits behind the first one.
def smallDouble (n : ℕ) : Value :=
  .ofNat 64 <| if n = 0 then 0 else ((1022 + n.log2) <<< 52) + n <<< (52 - n.log2)

-- For examples, in which only the numbers of points matter.
local instance smallCounts : Arithmetic where
  add _ _ := 0
  sub _ _ := 0
  mul _ _ := 0
  div _ _ := 0
  square _ := 0
  sqrt _ := 0
  ofNat n := smallDouble (min n 1000)
  ofInt64 _ := 0
  roundToNat _ := 0
  isNan_ofNat n := by
    have h : ∀ n ≤ 1000, isNan (smallDouble n) = false := by decide +kernel
    exact h _ (Nat.min_le_right ..)

local instance sampleHashing : Hashing := Hashing.sample

def oneAtTen : QueryExecutor .bytes :=
  ⟨(StorageEngine.write (.new 3600) "cpu" ∅ 10 1).1⟩

def cpuKey : SeriesKey :=
  Metric.seriesKey ⟨"cpu", ∅⟩

-- The range ends with a bucket at the time of the only point.
theorem downsample_drops_last_point : oneAtTen.storage.queryRange cpuKey 0 10 = .ok [⟨10, 1⟩] ∧
    oneAtTen.aggregate cpuKey 0 10 .count = .ok 0x3FF0000000000000 ∧
    oneAtTen.downsample cpuKey 0 10 5 .count = .ok [] := by
  decide +kernel

def threePoints : QueryExecutor .bytes :=
  ⟨((oneAtTen.storage.write "cpu" ∅ 20 2).1.write "cpu" ∅ 30 3).1⟩

-- The last bucket reaches beyond the end of the range.
theorem downsample_partitions_unaligned :
    Partitions threePoints cpuKey 0 30 8 [⟨10, 1⟩, ⟨20, 2⟩, ⟨30, 3⟩] := by
  refine (downsample_partitions_iff (by decide +kernel) (by decide) (by decide) ?_).mpr ?_
  · exact ⟨by decide, by decide⟩
  · exact ⟨by decide, .inl (by decide)⟩

end Sample

end Tsdb
