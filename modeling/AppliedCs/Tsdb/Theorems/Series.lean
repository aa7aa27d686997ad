import AppliedCs.Tsdb.Types

namespace Tsdb

open SortedList List DataPoint

namespace Series

variable {s : Series}

def Ordered (s : Series) : Prop :=
  Sorted timestamp s.points

theorem insertSorted_eq :
    (s.insertSorted point).points = SortedList.insert timestamp point s.points := by
  obtain ⟨key, metric, points⟩ := s
  have h : (Series.insertSorted ⟨key, metric, points⟩ point).points =
      if (points[partitionPoint (·.timestamp < point.timestamp) points]?).any
        (·.timestamp = point.timestamp)
      then points.set (partitionPoint (·.timestamp < point.timestamp) points) point
      else points.insertIdx (partitionPoint (·.timestamp < point.timestamp) points) point := by
    rw [Series.insertSorted]
    split <;> rfl
  rw [h]
  clear h
  induction points
  case nil => rfl
  case cons p points hi =>
    rw [SortedList.insert]
    by_cases hlt : p.timestamp < point.timestamp
    case pos =>
      have hidx : partitionPoint (·.timestamp < point.timestamp) (p :: points) =
          partitionPoint (·.timestamp < point.timestamp) points + 1 := by
        simp [partitionPoint, hlt]
      rw [if_neg hlt.asymm, if_neg hlt.ne', ← hi, hidx]
      simp only [getElem?_cons_succ, set_cons_succ, insertIdx_succ_cons]
      split <;> rfl
    have hidx : partitionPoint (·.timestamp < point.timestamp) (p :: points) = 0 := by
      simp [partitionPoint, hlt]
    rw [hidx]
    by_cases heq : p.timestamp = point.timestamp
    case pos => simp [heq]
    case neg =>
      have hgt : point.timestamp < p.timestamp := lt_of_le_of_ne (not_lt.mp hlt) (Ne.symm heq)
      simp [heq, hgt]

theorem take_partitionPoint (p : DataPoint → Bool) (points : List DataPoint) :
    points.take (partitionPoint p points) = points.takeWhile p :=
  (prefix_iff_eq_take.mp (List.takeWhile_prefix p)).symm

theorem drop_partitionPoint (p : DataPoint → Bool) (points : List DataPoint) :
    points.drop (partitionPoint p points) = points.dropWhile p := by
  have h := takeWhile_append_dropWhile (p := p) (l := points)
  calc points.drop (partitionPoint p points)
    _ = (points.takeWhile p ++ points.dropWhile p).drop (points.takeWhile p).length := by
      rw [h]; rfl
    _ = points.dropWhile p := drop_left

theorem Ordered.first_le (h : s.Ordered) (hp : point ∈ s.points) :
    ∃ t, s.firstTimestamp = some t ∧ t ≤ point.timestamp := by
  rw [Ordered] at h
  rw [firstTimestamp]
  cases hs : s.points
  case nil => rw [hs] at hp; cases hp
  case cons p points =>
    rw [hs] at h hp
    refine ⟨p.timestamp, rfl, ?_⟩
    cases hp
    case head => exact le_rfl
    case tail hp => exact ((pairwise_cons.mp h).1 point hp).le

theorem Ordered.le_last (h : s.Ordered) (hp : point ∈ s.points) :
    ∃ t, s.lastTimestamp = some t ∧ point.timestamp ≤ t := by
  have hne := ne_nil_of_mem hp
  rw [lastTimestamp, getLast?_eq_some_getLast hne]
  refine ⟨_, rfl, ?_⟩
  obtain ⟨points, hs⟩ : ∃ points, s.points = points ++ [s.points.getLast hne] :=
    ⟨_, (dropLast_append_getLast hne).symm⟩
  rw [Ordered, hs] at h
  rw [hs, mem_append, mem_singleton] at hp
  obtain hp | hp := hp
  · exact ((pairwise_append.mp h).2.2 point hp _ mem_cons_self).le
  · exact hp ▸ le_rfl

section Range

variable {points : List DataPoint}

theorem takeWhile_lt (h : Sorted timestamp points) :
    points.takeWhile (·.timestamp < start) = points.filter (·.timestamp < start) :=
  h.takeWhile_eq fun _ _ hab hb => decide_eq_true <| hab.trans (of_decide_eq_true hb)

theorem takeWhile_le (h : Sorted timestamp points) :
    points.takeWhile (·.timestamp ≤ stop) = points.filter (·.timestamp ≤ stop) :=
  h.takeWhile_eq fun _ _ hab hb => decide_eq_true <| hab.le.trans (of_decide_eq_true hb)

theorem dropWhile_lt (h : Sorted timestamp points) :
    points.dropWhile (·.timestamp < start) = points.filter (start ≤ ·.timestamp) := by
  rw [h.dropWhile_eq fun _ _ hab hb => decide_eq_true <| hab.trans (of_decide_eq_true hb)]
  grind

-- An inverted range has to be free of points for the slice to be well formed.
theorem Ordered.range_eq (h : s.Ordered)
    (hi : start ≤ stop ∨ ∀ p ∈ s.points, stop < p.timestamp → ¬ p.timestamp < start) :
    s.range start stop =
      .ok (s.points.filter fun p => start ≤ p.timestamp ∧ p.timestamp ≤ stop) := by
  rw [Series.range]
  by_cases hle : start ≤ stop
  case pos =>
    -- The points before the start are also among those up to the end.
    have hsub : s.points.filter (·.timestamp < start) =
        (s.points.filter (·.timestamp ≤ stop)).filter (·.timestamp < start) := by
      rw [filter_filter]
      grind
    have hidx : partitionPoint (·.timestamp < start) s.points =
        partitionPoint (·.timestamp < start) (s.points.filter (·.timestamp ≤ stop)) := by
      rw [partitionPoint, partitionPoint, takeWhile_lt h, takeWhile_lt (h.filter _), ← hsub]
    rw [take_partitionPoint, takeWhile_le h, hidx, drop_partitionPoint, dropWhile_lt (h.filter _),
      filter_filter, if_pos]
    · simp
    · rw [partitionPoint, partitionPoint, takeWhile_lt (h.filter _), takeWhile_le h]
      exact length_filter_le _ _
  case neg =>
    have hidx : partitionPoint (·.timestamp < start) s.points =
        partitionPoint (·.timestamp ≤ stop) s.points := by
      rw [partitionPoint, partitionPoint, takeWhile_lt h, takeWhile_le h]
      refine congrArg length <| filter_congr fun p hp => ?_
      grind
    rw [hidx, if_pos le_rfl, drop_of_length_le (by simp)]
    refine congrArg Except.ok (filter_eq_nil_iff.mpr fun p _ => ?_).symm
    grind

end Range

end Series

end Tsdb
