import AppliedCs.Tsdb.Database

namespace Tsdb

namespace F64

def infinity : Value := 0x7FF0000000000000#64

def negInfinity : Value := 0xFFF0000000000000#64

def nan : Value := 0x7FF8000000000000#64

def isNan (v : Value) : Bool :=
  infinity < v &&& 0x7FFFFFFFFFFFFFFF#64

-- Both zeros have the rank zero.
def rank (v : Value) : ℤ :=
  if v.msb then -(v &&& 0x7FFFFFFFFFFFFFFF#64).toNat else v.toNat

def lt (a b : Value) : Bool :=
  ¬ isNan a ∧ ¬ isNan b ∧ rank a < rank b

-- The rounded operations.
class Arithmetic where
  add : Value → Value → Value
  sub : Value → Value → Value
  mul : Value → Value → Value
  div : Value → Value → Value
  square : Value → Value
  sqrt : Value → Value
  ofNat : ℕ → Value
  ofInt64 : Int64 → Value
  roundToNat : Value → ℕ
  isNan_ofNat : ∀ n, isNan (ofNat n) = false

end F64

inductive Aggregation
  | sum
  | avg
  | min
  | max
  | count
  | first
  | last
  | stdDev
  | variance
  | percentile (p : UInt8)
  | rate
  | delta
  deriving DecidableEq, Repr

structure Aggregator where
  aggregation : Aggregation
  sum : Value := 0
  count : ℕ := 0
  min : Value := F64.infinity
  max : Value := F64.negInfinity
  first : Option (Timestamp × Value) := none
  last : Option (Timestamp × Value) := none
  values : List Value := []
  sumSquared : Value := 0
  deriving DecidableEq

namespace Aggregator

open F64 Arithmetic

def new (aggregation : Aggregation) : Aggregator :=
  { aggregation }

variable [Arithmetic]

def add (a : Aggregator) (point : DataPoint) : Aggregator :=
  { a with
    sum := Arithmetic.add a.sum point.value
    sumSquared := Arithmetic.add a.sumSquared (mul point.value point.value)
    count := a.count + 1
    min := if lt point.value a.min then point.value else a.min
    max := if lt a.max point.value then point.value else a.max
    first := if a.first.all (point.timestamp < ·.1) then some (point.timestamp, point.value)
                  else a.first
    last := if a.last.all (·.1 < point.timestamp) then some (point.timestamp, point.value)
                  else a.last
    values := match a.aggregation with
      | .percentile _ | .stdDev | .variance => a.values ++ [point.value]
      | _ => a.values }

def addAll (a : Aggregator) (points : List DataPoint) : Aggregator :=
  points.foldl add a

def varianceOf (a : Aggregator) : Value :=
  let mean := div a.sum (ofNat a.count)
  div ((a.values.map fun v => square (sub v mean)).foldl Arithmetic.add 0) (ofNat a.count)

-- The comparison of a sort panics if it meets a NaN.
def sortValues (values : List Value) : Result (List Value) :=
  if values.length ≥ 2 ∧ values.any isNan then .error .panic
  else .ok (values.mergeSort (rank · ≤ rank ·))

def result (a : Aggregator) : Result Value :=
  if a.count = 0 then .ok nan
  else
    match a.aggregation with
    | .sum => .ok a.sum
    | .avg => .ok (div a.sum (ofNat a.count))
    | .min => .ok a.min
    | .max => .ok a.max
    | .count => .ok (ofNat a.count)
    | .first => .ok ((a.first.map (·.2)).getD nan)
    | .last => .ok ((a.last.map (·.2)).getD nan)
    | .stdDev => .ok (sqrt a.varianceOf)
    | .variance => .ok a.varianceOf
    | .percentile p => do
      let values ← sortValues a.values
      let idx := roundToNat (mul (div (ofNat p.toNat) 0x4059000000000000#64)
        (ofNat (values.length - 1)))
      return values[idx]?.getD nan
    | .rate =>
      match a.first, a.last with
      | some (firstTs, firstVal), some (lastTs, lastVal) =>
        if lastTs > firstTs then
          .ok (div (sub lastVal firstVal)
            (div (ofInt64 (lastTs - firstTs)) 0x41CDCD6500000000#64))
        else .ok 0
      | _, _ => .ok nan
    | .delta =>
      match a.first, a.last with
      | some (_, firstVal), some (_, lastVal) => .ok (sub lastVal firstVal)
      | _, _ => .ok nan

end Aggregator

section Buckets

variable [F64.Arithmetic]

def inBucket (bucketStart bucketEnd : Timestamp) (point : DataPoint) : Bool :=
  point.timestamp ≥ bucketStart ∧ point.timestamp < bucketEnd

-- Nothing comes out for a bucket without points.
def aggregateBucket (points : List DataPoint) (aggregation : Aggregation)
    (bucketStart bucketEnd : Timestamp) : Result (List (Timestamp × Value)) :=
  let aggregator :=
    (Aggregator.new aggregation).addAll (points.filter (inBucket bucketStart bucketEnd))
  if aggregator.count > 0 then aggregator.result.map fun v => [(bucketStart, v)] else .ok []

-- The end of a bucket must not overflow. Each round moves on by at least one, which bounds their
-- number.
def aggregateFrom (points : List DataPoint) (aggregation : Aggregation)
    (interval stop : Timestamp) : ℕ → Timestamp → Result (List (Timestamp × Value))
  | 0, bucketStart => if bucketStart < stop then .error .panic else .ok []
  | rounds + 1, bucketStart =>
    if bucketStart < stop then
      let bucketEnd := bucketStart + interval
      if bucketEnd < bucketStart then .error .panic
      else do
        let bucket ← aggregateBucket points aggregation bucketStart bucketEnd
        return bucket ++ (← aggregateFrom points aggregation interval stop rounds bucketEnd)
    else .ok []

def aggregateWithInterval (points : List DataPoint) (aggregation : Aggregation)
    (interval start stop : Timestamp) : Result (List (Timestamp × Value)) :=
  if points.isEmpty ∨ interval ≤ 0 then .ok []
  else aggregateFrom points aggregation interval stop (stop.toInt - start.toInt).toNat start

structure QueryExecutor (F : SSTableFormat) where
  storage : StorageEngine F

namespace QueryExecutor

def aggregate (e : QueryExecutor F) (seriesKey : SeriesKey) (start stop : Timestamp)
    (aggregation : Aggregation) : Result Value := do
  let points ← e.storage.queryRange seriesKey start stop
  ((Aggregator.new aggregation).addAll points).result

def downsample (e : QueryExecutor F) (seriesKey : SeriesKey) (start stop interval : Timestamp)
    (aggregation : Aggregation) : Result (List (Timestamp × Value)) := do
  let points ← e.storage.queryRange seriesKey start stop
  aggregateWithInterval points aggregation interval start stop

end QueryExecutor

end Buckets

end Tsdb
