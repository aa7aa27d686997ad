import AppliedCs.Tsdb.Shard

namespace Tsdb

structure ShardManager (F : SSTableFormat) where
  shardDuration : Timestamp
  shards : SortedMap Timestamp (TimeShard F) := ∅

namespace ShardManager

def new (shardDuration : Timestamp) : ShardManager F :=
  { shardDuration }

-- Rounds towards zero. The division panics if it overflows or if the duration is zero.
def shardStartTime (shardDuration timestamp : Timestamp) : Result Timestamp :=
  if shardDuration = 0 ∨ timestamp = Int64.minValue ∧ shardDuration = -1 then .error .panic
  else .ok (timestamp / shardDuration * shardDuration)

variable (m : ShardManager F)

-- The directories that exist belong to shards that have been loaded.
def getOrCreateShard (timestamp : Timestamp) : Result (ShardManager F) := do
  let startTime ← shardStartTime m.shardDuration timestamp
  match m.shards.get? startTime with
  | some _ => return m
  | none =>
    let shard := .new startTime m.shardDuration ∅
    return { m with shards := m.shards.insert startTime shard }

section Insert

variable [Hashing]

-- The shard is created also if it does not take the point.
def insert (m : ShardManager F) (metric : Metric) (point : DataPoint) :
    ShardManager F × Result Unit :=
  match shardStartTime m.shardDuration point.timestamp, m.getOrCreateShard point.timestamp with
  | .ok startTime, .ok m =>
    match m.shards.get? startTime with
    | none => (m, .ok ())
    | some shard =>
      let r := shard.insert metric point
      ({ m with shards := m.shards.insert startTime r.1 }, r.2)
  | .error e, _ | _, .error e => (m, .error e)

def groupByShard (m : ShardManager F) (points : List (Metric × DataPoint)) :
    Result (SortedMap Timestamp (List (Metric × DataPoint))) :=
  points.foldlM (fun byShard p => do
    let startTime ← shardStartTime m.shardDuration p.2.timestamp
    return byShard.insert startTime <| (byShard.get? startTime).getD [] ++ [p]) ∅

def insertGroups (m : ShardManager F) :
    List (Timestamp × List (Metric × DataPoint)) → ShardManager F × Result Unit
  | [] => (m, .ok ())
  | group :: groups =>
    match m.getOrCreateShard group.1 with
    | .error e => (m, .error e)
    | .ok m =>
      match m.shards.get? group.1 with
      | none => insertGroups m groups
      | some shard =>
        insertGroups { m with shards := m.shards.insert group.1 (shard.insertBatch group.2) } groups

def insertBatch (m : ShardManager F) (points : List (Metric × DataPoint)) :
    ShardManager F × Result Unit :=
  match m.groupByShard points with
  | .error e => (m, .error e)
  | .ok byShard => m.insertGroups byShard.entries

end Insert

section Query

variable (seriesKey : SeriesKey) (start stop : Timestamp)

def queryShards : List (TimeShard F) → Result (List DataPoint)
  | [] => .ok []
  | shard :: shards => do
    let points ← (if shard.endTime ≥ start ∧ shard.startTime ≤ stop
      then shard.queryRange seriesKey start stop else .ok [])
    let rest ← queryShards shards
    return points ++ rest

def queryRange (m : ShardManager F) : Result (List DataPoint) := do
  let points ← queryShards seriesKey start stop m.shards.values
  return SortedList.ofList DataPoint.timestamp points

end Query

-- The shards are handled one after the other until a call fails.
def forEach (call : TimeShard F → TimeShard F × Result (Option SSTableMeta)) (m : ShardManager F) :
    List Timestamp → ShardManager F × Result (List SSTableMeta)
  | [] => (m, .ok [])
  | startTime :: startTimes =>
    match m.shards.get? startTime with
    | none => forEach call m startTimes
    | some shard =>
      let r := call shard
      let m := { m with shards := m.shards.insert startTime r.1 }
      match r.2 with
      | .error e => (m, .error e)
      | .ok tableMeta =>
        let rest := forEach call m startTimes
        (rest.1, rest.2.map (tableMeta.toList ++ ·))

def flushAll : ShardManager F × Result (List SSTableMeta) :=
  m.forEach TimeShard.flush m.shards.keys

def compactAll [Hashing] (m : ShardManager F) : ShardManager F × Result (List SSTableMeta) :=
  m.forEach TimeShard.compact m.shards.keys

-- The directories of the shards are deleted.
def dropBefore (timestamp : Timestamp) : ShardManager F × ℕ :=
  let oldKeys := m.shards.keys.filter (· + m.shardDuration ≤ timestamp)
  ({ m with shards := m.shards.filter fun start => ¬ start + m.shardDuration ≤ timestamp },
    oldKeys.length)

-- The directories by the start times in their names, each with its files in the order in which
-- they are listed.
def loadExisting (dirs : List (Timestamp × Directory F × List FileName)) : ShardManager F × ℕ :=
  (dirs.foldl (fun m dir =>
    let shard := (TimeShard.new dir.1 m.shardDuration dir.2.1).loadSSTables dir.2.2
    { m with shards := m.shards.insert dir.1 shard }) m, dirs.length)

-- A new manager on the directory that this one leaves behind.
def restart (names : Timestamp → List FileName) : ShardManager F :=
  ((new m.shardDuration).loadExisting <|
    m.shards.entries.map fun e => (e.1, e.2.dataDir, names e.1)).1

end ShardManager

end Tsdb
