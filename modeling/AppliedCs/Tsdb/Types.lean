import AppliedCs.Lib.Codec
import AppliedCs.Lib.SortedList
import AppliedCs.Tsdb.Gorilla
import Mathlib.Data.String.Basic

instance Int64.instLinearOrder : LinearOrder Int64 where
  le_refl := Int64.le_refl
  le_trans _ _ _ := Int64.le_trans
  lt_iff_le_not_ge _ _ := by simpa [Int64.not_le] using Int64.le_of_lt
  le_antisymm _ _ := Int64.le_antisymm
  le_total := Int64.le_total
  toDecidableLE := inferInstance
  toDecidableEq := inferInstance
  toDecidableLT := inferInstance

instance UInt64.instLinearOrder : LinearOrder UInt64 where
  le_refl := UInt64.le_refl
  le_trans _ _ _ := UInt64.le_trans
  lt_iff_le_not_ge _ _ := by simpa [UInt64.not_le] using UInt64.le_of_lt
  le_antisymm _ _ := UInt64.le_antisymm
  le_total := UInt64.le_total
  toDecidableLE := inferInstance
  toDecidableEq := inferInstance
  toDecidableLT := inferInstance

namespace Tsdb

abbrev Timestamp := Int64

abbrev SeriesKey := UInt64

-- The hash functions of the crates that are used, on the strings and bytes they are fed with.
class Hashing where
  fnv : List String → SeriesKey
  crc32 : List UInt8 → UInt32

-- The 64-bit FNV-1a hash of strings, each of which is followed by a byte of its own.
def Hashing.fnv1a (strings : List String) : UInt64 :=
  (strings.flatMap fun s => s.toByteArray.data.toList ++ [0xFF]).foldl
    (fun hash byte => (hash ^^^ byte.toUInt64) * 0x100000001B3) 0xCBF29CE484222325

abbrev Hashing.sample : Hashing where
  fnv := fnv1a
  crc32 := Codec.crc32

@[ext]
structure DataPoint where
  timestamp : Timestamp
  value : Value
  deriving DecidableEq, Repr

abbrev Tags := SortedMap String String

structure Metric where
  name : String
  tags : Tags
  deriving DecidableEq

def Metric.seriesKey [Hashing] (metric : Metric) : SeriesKey :=
  Hashing.fnv (metric.name :: metric.tags.entries.flatMap fun (k, v) => [k, v])

-- The number of points in front for which `p` holds, as found by a binary search.
def partitionPoint (p : DataPoint → Bool) (points : List DataPoint) : Nat :=
  (points.takeWhile p).length

structure Series where
  key : SeriesKey
  metric : Metric
  points : List DataPoint
  deriving DecidableEq

namespace Series

def new [Hashing] (metric : Metric) : Series :=
  { key := metric.seriesKey, metric, points := [] }

variable (s : Series)

def insertSorted (point : DataPoint) : Series :=
  let idx := partitionPoint (·.timestamp < point.timestamp) s.points
  if (s.points[idx]?).any (·.timestamp = point.timestamp) then
    { s with points := s.points.set idx point }
  else
    { s with points := s.points.insertIdx idx point }

-- A slice whose start lies behind its end makes the call panic.
def range (start stop : Timestamp) : Result (List DataPoint) :=
  let startIdx := partitionPoint (·.timestamp < start) s.points
  let endIdx := partitionPoint (·.timestamp ≤ stop) s.points
  if startIdx ≤ endIdx then .ok ((s.points.take endIdx).drop startIdx) else .error .panic

def firstTimestamp : Option Timestamp :=
  s.points.head?.map (·.timestamp)

def lastTimestamp : Option Timestamp :=
  s.points.getLast?.map (·.timestamp)

end Series

end Tsdb
