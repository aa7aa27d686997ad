import AppliedCs.Tsdb.ShardManager
import AppliedCs.Tsdb.Wal

namespace Tsdb

structure StorageEngine (F : SSTableFormat) where
  shards : ShardManager F
  seriesIndex : SortedMap SeriesKey Metric := ∅
  closed : Bool := false

def Row.point (row : Row) : Metric × DataPoint :=
  (⟨row.1, row.2.1⟩, ⟨row.2.2.1, row.2.2.2⟩)

-- The directories of the shards, with their files in the order in which they are listed.
abbrev ShardDirs (F : SSTableFormat) := List (Timestamp × Directory F × List FileName)

namespace StorageEngine

def new (shardDuration : Timestamp) : StorageEngine F :=
  { shards := .new shardDuration }

def «open» (shardDuration : Timestamp) (dirs : ShardDirs F) : StorageEngine F :=
  let engine : StorageEngine F := new shardDuration
  { engine with shards := (engine.shards.loadExisting dirs).1 }

variable (e : StorageEngine F)

def checkOpen : Result Unit :=
  if e.closed then .error (.error .databaseClosed) else .ok ()

section Write

variable [Hashing] (e : StorageEngine F)

def register (metric : Metric) : StorageEngine F :=
  match e.seriesIndex.get? metric.seriesKey with
  | some _ => e
  | none => { e with seriesIndex := e.seriesIndex.insert metric.seriesKey metric }

def write (metric : String) (tags : Tags) (timestamp : Timestamp)
    (value : Value) : StorageEngine F × Result Unit :=
  match e.checkOpen with
  | .error err => (e, .error err)
  | .ok () =>
    let metric := ⟨metric, tags⟩
    let e := e.register metric
    let r := e.shards.insert metric ⟨timestamp, value⟩
    ({ e with shards := r.1 }, r.2)

def writeBatch (points : List Row) : StorageEngine F × Result Unit :=
  match e.checkOpen with
  | .error err => (e, .error err)
  | .ok () =>
    let batch := points.map Row.point
    let e := batch.foldl (fun e p => e.register p.1) e
    let r := e.shards.insertBatch batch
    ({ e with shards := r.1 }, r.2)

end Write

def queryRange (e : StorageEngine F) (seriesKey : SeriesKey) (start stop : Timestamp) :
    Result (List DataPoint) := do
  let _ ← e.checkOpen
  e.shards.queryRange seriesKey start stop

def flush : StorageEngine F × Result Unit :=
  match e.checkOpen with
  | .error err => (e, .error err)
  | .ok () =>
    let r := e.shards.flushAll
    ({ e with shards := r.1 }, r.2.map fun _ => ())

def compact [Hashing] (e : StorageEngine F) : StorageEngine F × Result Unit :=
  match e.checkOpen with
  | .error err => (e, .error err)
  | .ok () =>
    let r := e.shards.compactAll
    ({ e with shards := r.1 }, r.2.map fun _ => ())

-- Only the first call flushes.
def close : StorageEngine F × Result Unit :=
  if e.closed then (e, .ok ())
  else
    let r := e.shards.flushAll
    ({ e with shards := r.1, closed := true }, r.2.map fun _ => ())

end StorageEngine

structure DatabaseConfig where
  enableWal : Bool := true
  -- An hour in nanoseconds.
  shardDuration : Timestamp := 60 * 60 * 1000000000

structure TimeSeriesDB (F : SSTableFormat) where
  storage : StorageEngine F
  wal : Option WriteAheadLog
  config : DatabaseConfig

namespace TimeSeriesDB

variable {F : SSTableFormat} [Hashing]

def replayEntry (storage : StorageEngine F) : WalEntry → Result (StorageEngine F)
  | .write metricName tags timestamp value =>
    let r := storage.write metricName tags timestamp value
    r.2.map fun _ => r.1
  | .writeBatch points =>
    let r := storage.writeBatch points
    r.2.map fun _ => r.1
  | .checkpoint _ => .ok storage

def replayWal (db : TimeSeriesDB F) (wal : WriteAheadLog) : Result (TimeSeriesDB F × ℕ) := do
  let p ← wal.replay replayEntry db.storage
  return ({ db with storage := p.1 }, p.2)

-- On the directories of the shards and of the log that an earlier session has left behind.
def «open» (config : DatabaseConfig) (dirs : ShardDirs F) (walDir : SortedMap ℕ Codec.Bytes) :
    Result (TimeSeriesDB F) := do
  let storage := StorageEngine.open config.shardDuration dirs
  let wal ← (if config.enableWal then (WriteAheadLog.new walDir).map some else .ok none)
  let db : TimeSeriesDB F := { storage, wal, config }
  match wal with
  | none => return db
  | some wal =>
    let p ← db.replayWal wal
    return p.1

def write (db : TimeSeriesDB F) (metric : String) (tags : Tags) (timestamp : Timestamp)
    (value : Value) : TimeSeriesDB F × Result Unit :=
  let wal := db.wal.map fun wal => (wal.append (.write metric tags timestamp value)).1
  let r := db.storage.write metric tags timestamp value
  ({ db with wal, storage := r.1 }, r.2)

def writeBatch (db : TimeSeriesDB F) (points : List Row) : TimeSeriesDB F × Result Unit :=
  if points.isEmpty then (db, .ok ())
  else
    let wal := db.wal.map fun wal => (wal.append (.writeBatch points)).1
    let r := db.storage.writeBatch points
    ({ db with wal, storage := r.1 }, r.2)

omit [Hashing] in
def queryRange (db : TimeSeriesDB F) (seriesKey : SeriesKey) (start stop : Timestamp) :
    Result (List DataPoint) :=
  db.storage.queryRange seriesKey start stop

-- The log is synced, which changes nothing that is kept here.
def flush (db : TimeSeriesDB F) : TimeSeriesDB F × Result Unit :=
  let r := db.storage.flush
  ({ db with storage := r.1 }, r.2)

def compact (db : TimeSeriesDB F) : TimeSeriesDB F × Result Unit :=
  let r := db.storage.compact
  ({ db with storage := r.1 }, r.2)

def close (db : TimeSeriesDB F) : TimeSeriesDB F × Result Unit :=
  match db.flush with
  | (db, .error e) => (db, .error e)
  | (db, .ok ()) =>
    let r := db.storage.close
    ({ db with wal := db.wal.map (·.close), storage := r.1 }, r.2)

-- A new database on what this one leaves behind.
def reopen (db : TimeSeriesDB F) (names : Timestamp → List FileName) : Result (TimeSeriesDB F) :=
  TimeSeriesDB.open db.config (db.storage.shards.shards.entries.map fun e =>
    (e.1, e.2.dataDir, names e.1)) (db.wal.elim ∅ (·.dir))

end TimeSeriesDB

end Tsdb
