import AppliedCs.Tsdb.SSTable

-- Reading an SSTable, with all operations that can panic: slices, unsigned subtractions and the
-- allocation of vectors. Signed sums wrap around.
namespace Tsdb.Checked

open Codec SSTableReader

-- The index that the binary search of the standard library finds. On points that are not
-- partitioned it can be any.
class Search where
  partitionPoint : (DataPoint → Bool) → List DataPoint → ℕ
  le_length : ∀ p points, partitionPoint p points ≤ points.length
  partitioned : ∀ p points, (points.dropWhile p).all (!p ·) →
                     partitionPoint p points = (points.takeWhile p).length

-- No vector has more than `isize::MAX` bytes.
def maxBytes : ℕ := 9223372036854775807

def withCapacity (count size : ℕ) : Result Unit :=
  if count * size ≤ maxBytes then .ok () else .error .panic

def decompressTimestamps (data : Bytes) : Result (List Timestamp) :=
  if data.isEmpty then .ok []
  else do
    let count ← decodeVarint data
    let rest ← sliceFrom data count.2
    withCapacity count.1.toNat 8
    DeltaDecoder.decodeAll {} rest count.1.toNat

def decompressValues (data : Bytes) (count : ℕ) : Result (List Value) := do
  withCapacity count 8
  GorillaDecoder.decodeAll {} data count

-- If the end of the timestamps overflows, it lies before their start, which makes the slice panic
-- just like an end behind the data.
def decompressPoints (data : Bytes) : Result (List DataPoint) :=
  match data with
  | [] => .ok []
  | byte :: _ => do
    let compressionType ← CompressionType.tryFrom byte
    if compressionType ≠ .deltaGorilla then
      let name := compressionType.debug
      .error (.error (.invalidFormat s!"Unsupported compression type: {name}"))
    else
      let countData ← sliceFrom data 1
      let count ← decodeVarint countData
      let offset := 1 + count.2
      let lenData ← sliceFrom data offset
      let tsLen ← decodeVarint lenData
      let offset := offset + tsLen.2
      let stop := offset + tsLen.1.toNat
      let tsData ← slice data offset stop
      let timestamps ← decompressTimestamps tsData
      let valueData ← sliceFrom data stop
      let values ← decompressValues valueData count.1.toNat
      return (timestamps.zip values).map fun (timestamp, value) => { timestamp, value }

-- The lengths in front of names and tags are checked, so that only the points can panic.
def readBlock [Hashing] (data : Bytes) : Result Series := do
  let block ← blockPoints data
  let points ← decompressPoints block.2
  return { Series.new block.1 with points }

def readSeries [Hashing] (r : SSTableReader) (file : Bytes) (seriesKey : SeriesKey) :
    Result (Option Series) :=
  match r.index.find? (·.seriesKey = seriesKey) with
  | none => .ok none
  | some entry => do
    let data ← entryData file entry
    let series ← readBlock data
    return some series

def range [Search] (points : List DataPoint) (start stop : Timestamp) : Result (List DataPoint) :=
  slice points (Search.partitionPoint (·.timestamp < start) points)
    (Search.partitionPoint (·.timestamp ≤ stop) points)

def queryRange [Hashing] [Search] (r : SSTableReader) (file : Bytes) (seriesKey : SeriesKey)
    (start stop : Timestamp) : Result (List DataPoint) :=
  match r.index.find? (·.seriesKey = seriesKey) with
  | none => .ok []
  | some entry =>
    if entry.maxTimestamp < start ∨ entry.minTimestamp > stop then .ok []
    else do
      match ← readSeries r file seriesKey with
      | some series => range series.points start stop
      | none => return []

end Tsdb.Checked
