import AppliedCs.Tsdb.SSTable
import Mathlib.Data.List.AList

namespace Tsdb

abbrev SeriesMap := SortedMap SeriesKey Series

-- The series of the key is created if it is missing.
def SeriesMap.insertPoints [Hashing] (data : SeriesMap) (key : SeriesKey) (metric : Metric)
    (points : List DataPoint) : SeriesMap :=
  data.insert key <| points.foldl Series.insertSorted <| (data.get? key).getD (Series.new metric)

structure MemTable where
  data : SeriesMap := ∅
  deriving DecidableEq

namespace MemTable

def insert [Hashing] (m : MemTable) (metric : Metric) (point : DataPoint) : MemTable :=
  ⟨SeriesMap.insertPoints m.data metric.seriesKey metric [point]⟩

def insertBatch [Hashing] (m : MemTable) (points : List (Metric × DataPoint)) : MemTable :=
  points.foldl (fun m p => m.insert p.1 p.2) m

def queryRange (m : MemTable) (seriesKey : SeriesKey) (start stop : Timestamp) :
    Result (List DataPoint) :=
  match m.data.get? seriesKey with
  | some series => series.range start stop
  | none => .ok []

end MemTable

-- The shards use SSTable files only through these functions. A reader opens the file under its
-- path for every series that it reads, which fails if the file is gone.
structure SSTableFormat where
  File : Type
  Reader : Type
  create : List Series → Result (File × SSTableMeta)
  «open» : File → Result Reader
  seriesKeys : Reader → List SeriesKey
  overlaps : Reader → Timestamp → Timestamp → Bool
  readSeries : Reader → Option File → SeriesKey → Result (Option Series)
  queryRange : Reader → Option File → SeriesKey → Timestamp → Timestamp → Result (List DataPoint)

-- There is nothing to read in a file that is gone.
def SSTableFormat.bytes [Hashing] : SSTableFormat where
  File := Codec.Bytes
  Reader := SSTableReader
  create := SSTable.create
  «open» := SSTableReader.open
  seriesKeys := SSTableReader.seriesKeys
  overlaps := SSTableReader.overlaps
  readSeries r file := r.readSeries (file.getD [])
  queryRange r file := r.queryRange (file.getD [])

-- The name is `shard_{start}_{end}_{counter}.sst`, with `_compacted` behind the counter if it is
-- the result of a compaction.
structure FileName where
  startTime : Timestamp
  endTime : Timestamp
  counter : ℕ
  compacted : Bool
  deriving DecidableEq

abbrev Directory (F : SSTableFormat) :=
  AList fun _ : FileName => F.File

structure SSTable (F : SSTableFormat) where
  path : FileName
  reader : F.Reader

namespace SSTable

def readSeries (t : SSTable F) (dir : Directory F) : SeriesKey → Result (Option Series) :=
  F.readSeries t.reader (dir.lookup t.path)

def queryRange (t : SSTable F) (dir : Directory F) :
    SeriesKey → Timestamp → Timestamp → Result (List DataPoint) :=
  F.queryRange t.reader (dir.lookup t.path)

end SSTable

structure TimeShard (F : SSTableFormat) where
  startTime : Timestamp
  endTime : Timestamp
  memtable : MemTable := {}
  sstables : List (SSTable F) := []
  dataDir : Directory F
  sstableCounter : ℕ := 0

-- What comes of writing a file. A failed attempt may leave a part of the file, nothing, or a file
-- that was there before.
inductive Written (F : SSTableFormat)
  | done (file : F.File) (tableMeta : SSTableMeta)
  | failed (e : Failure) (left : Option F.File)

-- What the file system does during a call. Reading the SSTables may fail as a whole.
structure Disk (F : SSTableFormat) where
  write : FileName → List Series → Written F
  reopen : FileName → F.File → Result F.Reader
  readError : Option Failure

def Directory.put {F : SSTableFormat} (dir : Directory F) (path : FileName) :
    Option F.File → Directory F
  | some file => dir.insert path file
  | none => dir.erase path

-- Only a file that cannot be finished is removed.
def Disk.healthy (F : SSTableFormat) : Disk F where
  write _ data :=
    match F.create data with
    | .error e => .failed e none
    | .ok (file, tableMeta) => .done file tableMeta
  reopen _ := F.open
  readError := none

namespace TimeShard

-- The directory may exist already.
def new (startTime duration : Timestamp) (dataDir : Directory F) : TimeShard F :=
  { startTime, endTime := startTime + duration, dataDir }

variable (s : TimeShard F)

def containsTimestamp (timestamp : Timestamp) : Bool :=
  timestamp ≥ s.startTime ∧ timestamp < s.endTime

section Insert

variable [Hashing]

def insert (s : TimeShard F) (metric : Metric) (point : DataPoint) : TimeShard F × Result Unit :=
  if ¬ s.containsTimestamp point.timestamp then
    let timestamp := point.timestamp
    let startTime := s.startTime
    let endTime := s.endTime
    (s, .error (.error (.storageError
      s!"Timestamp {timestamp} is outside shard range [{startTime}, {endTime})")))
  else
    ({ s with memtable := s.memtable.insert metric point }, .ok ())

def insertBatch (s : TimeShard F) (points : List (Metric × DataPoint)) : TimeShard F :=
  let validPoints := points.filter fun p => s.containsTimestamp p.2.timestamp
  { s with memtable := s.memtable.insertBatch validPoints }

end Insert

section Query

variable (dir : Directory F) (seriesKey : SeriesKey) (start stop : Timestamp)

def queryTables : List (SSTable F) → Result (List DataPoint)
  | [] => .ok []
  | t :: sstables => do
    let points ← if F.overlaps t.reader start stop
      then t.queryRange dir seriesKey start stop else .ok []
    let rest ← queryTables sstables
    return points ++ rest

def queryRange (s : TimeShard F) : Result (List DataPoint) := do
  let points ← s.memtable.queryRange seriesKey start stop
  let tables ← queryTables s.dataDir seriesKey start stop s.sstables
  return SortedList.ofList DataPoint.timestamp (points ++ tables)

end Query

def nextPath (compacted : Bool) : FileName :=
  { startTime := s.startTime, endTime := s.endTime, counter := s.sstableCounter, compacted }

-- Opens the file for querying.
def openTable (path : FileName) : Result (SSTable F) :=
  match s.dataDir.lookup path with
  | none => .error (.error .io)
  | some file => do
    let reader ← F.open file
    return { path, reader }

section Flush

variable (disk : Disk F)

def writeTable (path : FileName) (data : SeriesMap) : TimeShard F × Result (F.File × SSTableMeta) :=
  match disk.write path data.values with
  | .failed e left => ({ s with dataDir := s.dataDir.put path left }, .error e)
  | .done file tableMeta =>
    ({ s with dataDir := s.dataDir.insert path file }, .ok (file, tableMeta))

-- The memtable is empty also if the call fails.
def flushOn : TimeShard F × Result (Option SSTableMeta) :=
  let data := s.memtable.data
  let s := { s with memtable := {} }
  if data.entries.isEmpty then (s, .ok none)
  else
    let path := s.nextPath false
    let s := { s with sstableCounter := s.sstableCounter + 1 }
    match s.writeTable disk path data with
    | (s, .error e) => (s, .error e)
    | (s, .ok (file, tableMeta)) =>
      match disk.reopen path file with
      | .error e => (s, .error e)
      | .ok reader =>
        ({ s with sstables := s.sstables ++ [⟨path, reader⟩] }, .ok (some tableMeta))

end Flush

def flush : TimeShard F × Result (Option SSTableMeta) :=
  s.flushOn (.healthy F)

section Compact

variable [Hashing]

def mergeSeries (dir : Directory F) (t : SSTable F) (merged : SeriesMap) (key : SeriesKey) :
    Result SeriesMap := do
  match ← t.readSeries dir key with
  | none => return merged
  | some series => return SeriesMap.insertPoints merged key series.metric series.points

def mergeTable (dir : Directory F) (merged : SeriesMap) (t : SSTable F) : Result SeriesMap :=
  (F.seriesKeys t.reader).foldlM (mergeSeries dir t) merged

def merge (s : TimeShard F) : Result SeriesMap :=
  s.sstables.foldlM (mergeTable s.dataDir) ∅

def mergeOn (disk : Disk F) (s : TimeShard F) : Result SeriesMap :=
  match disk.readError with
  | some e => .error e
  | none => s.merge

def compactOn (disk : Disk F) (s : TimeShard F) : TimeShard F × Result (Option SSTableMeta) :=
  match s.flushOn disk with
  | (s, .error e) => (s, .error e)
  | (s, .ok _) =>
    if s.sstables.length ≤ 1 then (s, .ok none)
    else
      match s.mergeOn disk with
      | .error e => (s, .error e)
      | .ok merged =>
        if merged.entries.isEmpty then (s, .ok none)
        else
          let path := s.nextPath true
          let s := { s with sstableCounter := s.sstableCounter + 1 }
          match s.writeTable disk path merged with
          | (s, .error e) => (s, .error e)
          | (s, .ok (file, tableMeta)) =>
            let oldPaths := s.sstables.map (·.path)
            let s := { s with sstables := [] }
            match disk.reopen path file with
            | .error e => (s, .error e)
            | .ok reader =>
              let dataDir := oldPaths.foldl (fun dir path => dir.erase path) s.dataDir
              ({ s with sstables := [⟨path, reader⟩], dataDir }, .ok (some tableMeta))

def compact (s : TimeShard F) : TimeShard F × Result (Option SSTableMeta) :=
  s.compactOn (.healthy F)

end Compact

-- The names are those in the directory, in an order that is up to the file system. Files that
-- cannot be opened are left out.
def loadSSTables (names : List FileName) : TimeShard F :=
  { s with sstables := s.sstables ++ names.filterMap fun path => (s.openTable path).toOption }

end TimeShard

end Tsdb
