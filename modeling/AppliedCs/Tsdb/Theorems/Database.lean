import AppliedCs.Tsdb.Database
import AppliedCs.Tsdb.Theorems.Restart
import AppliedCs.Tsdb.Theorems.Wal

namespace Tsdb

open SortedList Transition ShardManager WriteAheadLog WalEntry List

theorem ShardManager.Flushed.flushAll [Hashing] {m : ShardManager F} (hf : m.Flushed m')
    (h : m.Sound) : ∃ m'' xs, m'.flushAll = (m'', .ok xs) ∧ m'.Flushed m'' :=
  (hf.sound h).1.flushAll fun hs => by
    obtain ⟨_, -, hk, -⟩ := hf.kept hs
    rw [hk.memtable]
    exact ⟨fun hne => (hne rfl).elim, fun _ _ _ he => by cases he⟩

namespace WalEntry

def points : WalEntry → List (Metric × DataPoint)
  | write metricName tags timestamp value => [Row.point (metricName, tags, timestamp, value)]
  | writeBatch rows => rows.map Row.point
  | checkpoint _ => []

-- A single point has to be taken by its shard, of a batch the others are skipped.
def Insertable (d : Timestamp) : WalEntry → Prop
  | write _ _ timestamp _ => accepts d timestamp
  | writeBatch rows => ∀ row ∈ rows, (shardStartTime d row.2.2.1).isOk
  | checkpoint _ => True

instance {d : Timestamp} : DecidablePred (Insertable d)
  | write _ _ timestamp _ => inferInstanceAs <| Decidable <| accepts d timestamp
  | writeBatch rows =>
    inferInstanceAs <| Decidable <| ∀ row ∈ rows, (shardStartTime d row.2.2.1).isOk
  | checkpoint _ => .isTrue trivial

-- What the entries of a log have inserted, the last one first.
def history [Hashing] (d : Timestamp) (log : List WalEntry) : History :=
  log.reverse.flatMap fun e => accepted d e.points

end WalEntry

namespace StorageEngine

variable [Hashing] {F : SSTableFormat} {e : StorageEngine F}

@[simp]
theorem shards_register (metric : Metric) : (e.register metric).shards = e.shards := by
  rw [register]
  split <;> rfl

@[simp]
theorem closed_register (metric : Metric) : (e.register metric).closed = e.closed := by
  rw [register]
  split <;> rfl

theorem foldl_register {points : List (Metric × DataPoint)} :
    (points.foldl (fun e p => e.register p.1) e).shards = e.shards ∧
      (points.foldl (fun e p => e.register p.1) e).closed = e.closed := by
  induction points generalizing e
  case nil => exact ⟨rfl, rfl⟩
  case cons p ps hi =>
    rw [foldl_cons, hi.1, hi.2]
    exact ⟨shards_register _, closed_register _⟩

-- The points have been added, to the memtables only.
structure Extended (e : StorageEngine F) (written : History) (e' : StorageEngine F) : Prop where
  closed : e'.closed = false
  shardDuration : e'.shards.shardDuration = e.shards.shardDuration
  sound : e'.shards.Sound
  files : e'.shards.files = e.shards.files
  lookup : ∀ q, e'.shards.lookup q = (written.latest q).or (e.shards.lookup q)

theorem Extended.refl (ho : e.closed = false) (h : e.shards.Sound) : e.Extended [] e :=
  ⟨ho, rfl, h, rfl, fun _ => rfl⟩

theorem Extended.trans (h : e.Extended written e') (h' : e'.Extended written' e'') :
    e.Extended (written' ++ written) e'' where
  closed := h'.closed
  shardDuration := h'.shardDuration.trans h.shardDuration
  sound := h'.sound
  files := h'.files.trans h.files
  lookup q := by rw [h'.lookup, h.lookup, History.latest_append, Option.or_assoc]

theorem write_eq (ho : e.closed = false) (h : e.shards.Sound)
    (hi : Insertable e.shards.shardDuration (.write metric tags timestamp value)) :
    ∃ e', e.write metric tags timestamp value = (e', .ok ()) ∧
      e.Extended (accepted e.shards.shardDuration
        (points (.write metric tags timestamp value))) e' := by
  obtain ⟨m, r, hm, ⟨_, ha⟩, hs, hl, hr⟩ :=
    @Sound.insert _ F e.shards ⟨metric, tags⟩ ⟨timestamp, value⟩ h
  simp only [write, checkOpen, ho, if_neg Bool.false_ne_true, shards_register, hm, hr.mpr hi]
  exact ⟨_, rfl, (closed_register _).trans ho, ha.duration, hs, ha.files, hl⟩

theorem writeBatch_eq (ho : e.closed = false) (h : e.shards.Sound)
    (hi : Insertable e.shards.shardDuration (.writeBatch rows)) :
    ∃ e', e.writeBatch rows = (e', .ok ()) ∧
      e.Extended (accepted e.shards.shardDuration (points (.writeBatch rows))) e' := by
  obtain ⟨m, hm, ha⟩ := @insertBatch_after _ F e.shards (rows.map Row.point) fun p hp => by
    obtain ⟨row, hrow, rfl⟩ := mem_map.mp hp
    have := hi row hrow
    cases hst : shardStartTime e.shards.shardDuration row.2.2.1
    case ok start => exact ⟨start, hst⟩
    case error _ => rw [hst] at this; cases this
  obtain ⟨hr, hc⟩ := @foldl_register _ F e (rows.map Row.point)
  simp only [writeBatch, checkOpen, ho, if_neg Bool.false_ne_true, hr, hm]
  exact ⟨_, rfl, hc.trans ho, ha.duration, (ha.sound h).1, ha.files, (ha.sound h).2⟩

end StorageEngine

namespace TimeSeriesDB

open StorageEngine

variable [Hashing] {F : SSTableFormat} {e : StorageEngine F}

theorem replayEntry_eq (ho : e.closed = false) (h : e.shards.Sound)
    (hi : entry.Insertable e.shards.shardDuration) : ∃ e', replayEntry e entry = .ok e' ∧
      e.Extended (accepted e.shards.shardDuration entry.points) e' := by
  cases entry
  case write =>
    obtain ⟨e', hw, he⟩ := write_eq ho h hi
    exact ⟨e', by rw [replayEntry, hw]; rfl, he⟩
  case writeBatch =>
    obtain ⟨e', hw, he⟩ := writeBatch_eq ho h hi
    exact ⟨e', by rw [replayEntry, hw]; rfl, he⟩
  case checkpoint => exact ⟨e, rfl, .refl ho h⟩

theorem foldlM_replayEntry (ho : e.closed = false) (h : e.shards.Sound)
    (hi : ∀ entry ∈ log, entry.Insertable e.shards.shardDuration) :
    ∃ e', log.foldlM replayEntry e = .ok e' ∧
      e.Extended (history e.shards.shardDuration log) e' := by
  induction log generalizing e
  case nil => exact ⟨e, rfl, .refl ho h⟩
  case cons entry log hr =>
    obtain ⟨e₁, h₁, he₁⟩ := replayEntry_eq ho h (hi entry mem_cons_self)
    obtain ⟨e₂, h₂, he₂⟩ := hr he₁.closed he₁.sound fun entry' hmem =>
      he₁.shardDuration ▸ hi entry' (mem_cons_of_mem entry hmem)
    refine ⟨e₂, by rw [foldlM_cons, h₁, ok_bind, h₂], ?_⟩
    have ht := he₁.trans he₂
    rw [he₁.shardDuration] at ht
    rw [history, reverse_cons, flatMap_append, flatMap_singleton]
    exact ht

end TimeSeriesDB

namespace DatabaseRun

open StorageEngine

-- The points that have been taken, the last one first.
structure State (F : SSTableFormat) where
  db : TimeSeriesDB F
  written : History := []

inductive Event
  | write (metric : String) (tags : Tags) (timestamp : Timestamp) (value : Value)
  | writeBatch (points : List Row)
  | flush
  | compact
  | reopen (names : Timestamp → List FileName)

theorem checkOpen_eq {e : StorageEngine F} (h : e.closed = false) : e.checkOpen = .ok () := by
  rw [checkOpen, h]
  rfl

section Inv

variable [Hashing] {F : SSTableFormat}

def step (s : State F) : Event → Option (State F)
  | .write metric tags timestamp value =>
    some {
      db := (s.db.write metric tags timestamp value).1
      written := accepted s.db.config.shardDuration
        (write metric tags timestamp value).points ++ s.written }
  | .writeBatch points =>
    some {
      db := (s.db.writeBatch points).1
      written := accepted s.db.config.shardDuration (writeBatch points).points ++ s.written }
  | .flush => some { s with db := s.db.flush.1 }
  | .compact => some { s with db := s.db.compact.1 }
  | .reopen names =>
    let db := s.db.close.1
    if db.storage.shards.Listed names then
      (db.reopen names).toOption.map fun db => { s with db }
    else none

-- The log leads to the same points as the shards.
structure Logged (s : State F) (wal : WriteAheadLog) (log : List WalEntry) : Prop where
  enabled : s.db.wal = some wal
  logged : wal.Logged log
  small : ∀ e ∈ log, Small e
  insertable : ∀ e ∈ log, e.Insertable s.db.config.shardDuration
  written : history s.db.config.shardDuration log = s.written

structure Inv (s : State F) : Prop where
  enableWal : s.db.config.enableWal
  shardDuration : s.db.storage.shards.shardDuration = s.db.config.shardDuration
  closed : s.db.storage.closed = false
  sound : s.db.storage.shards.Sound
  complete : s.db.storage.shards.Complete
  lookup : s.db.storage.shards.lookup = s.written.latest
  logged : ∃ wal log, Logged s wal log

variable {s : State F}

theorem Inv.checkOpen (h : Inv s) : s.db.storage.checkOpen = .ok () :=
  checkOpen_eq h.closed

theorem Inv.extend {e : StorageEngine F} {entry : WalEntry} {wal : WriteAheadLog}
    {log : List WalEntry}
    (h : Inv s) (hl : Logged s wal log) (hs : Small entry)
    (hi : entry.Insertable s.db.config.shardDuration)
    (he : s.db.storage.Extended (accepted s.db.config.shardDuration entry.points) e) : Inv {
      db := { s.db with wal := some (wal.append entry).1, storage := e }
      written := accepted s.db.config.shardDuration entry.points ++ s.written } where
  enableWal := h.enableWal
  shardDuration := he.shardDuration.trans h.shardDuration
  closed := he.closed
  sound := he.sound
  complete := (files_congr he.shardDuration he.files).2 h.complete
  lookup := by
    funext q
    rw [he.lookup, h.lookup, History.latest_append]
  logged := by
    refine ⟨_, log ++ [entry], rfl, hl.logged.append entry, ?_, ?_, ?_⟩
    · simpa [or_imp, forall_and] using ⟨hl.small, hs⟩
    · simpa [or_imp, forall_and] using ⟨hl.insertable, hi⟩
    · rw [history, reverse_append, flatMap_append, ← hl.written]
      simp [history]

theorem Inv.flushed (h : Inv s) (hf : s.db.storage.shards.Flushed m) :
    Inv { s with db := { s.db with storage := { s.db.storage with shards := m } } } where
  enableWal := h.enableWal
  shardDuration := hf.shardDuration.trans h.shardDuration
  closed := h.closed
  sound := (hf.sound h.sound).1
  complete := hf.complete h.complete
  lookup := (hf.sound h.sound).2.trans h.lookup
  logged :=
    have ⟨wal, log, hl⟩ := h.logged
    ⟨wal, log, hl.enabled, hl.logged, hl.small, hl.insertable, hl.written⟩

-- What a database makes of the files of shards and of a log that leads to the same points.
theorem inv_open {config : DatabaseConfig} {m : ShardManager F} {names : Timestamp → List FileName}
    {dir : SortedMap ℕ Codec.Bytes} {log : List WalEntry} (hw : config.enableWal)
    (hd : m.shardDuration = config.shardDuration) (hm : m.Sound) (hc : m.Complete)
    (hn : m.Listed names) (hl : m.stored = (history config.shardDuration log).latest)
    (hlog : WriteAheadLog.Stored dir log) (hs : ∀ e ∈ log, WriteAheadLog.Small e)
    (hi : ∀ e ∈ log, e.Insertable config.shardDuration) (hk : dir.keys.foldl max 0 + 1 < 10 ^ 10) :
    ∃ db, TimeSeriesDB.open config
        (m.shards.entries.map fun e => (e.1, e.2.dataDir, names e.1)) dir =
      .ok db ∧ Inv { db, written := history config.shardDuration log } := by
  obtain ⟨wal, hwal, hlogged, hnum⟩ := @hlog.withOptions _ _ _ (64 * 1024 * 1024)
    (hlog.readable hs)
  obtain ⟨hsound, hcomp, hlook, -⟩ := hm.restart hc hn
  have hdur : (m.restart names).shardDuration = config.shardDuration :=
    shardDuration_restart.trans hd
  have hengine : (StorageEngine.open config.shardDuration
      (m.shards.entries.map fun e => (e.1, e.2.dataDir, names e.1)) : StorageEngine F) =
        { shards := m.restart names } := by
    rw [← hd]
    rfl
  obtain ⟨e, he, hx⟩ := @TimeSeriesDB.foldlM_replayEntry _ F { shards := m.restart names } log rfl
    hsound (hdur ▸ hi)
  have hreplay := @hlogged.stored.replay _ _ _ _ TimeSeriesDB.replayEntry
    ({ shards := m.restart names } : StorageEngine F) hs fun k hk' =>
      (hlogged.keys_le k hk').trans_lt (hnum ▸ hk)
  rw [he] at hreplay
  refine ⟨{ storage := e, wal := some wal, config }, ?_, ?_⟩
  · simp only [TimeSeriesDB.open, hw, if_true, WriteAheadLog.new, hwal, Except.map,
      ok_bind, hengine, TimeSeriesDB.replayWal, hreplay]
    rfl
  · have hfiles := files_congr hx.shardDuration hx.files
    refine ⟨hw, hx.shardDuration.trans hdur, hx.closed, hx.sound, hfiles.2 hcomp, ?_,
      wal, log, rfl, hlogged, hs, hi, rfl⟩
    -- The points of the log are inserted again on top of those in the tables.
    funext q
    rw [hx.lookup, hlook, hl, hdur, Option.or_self]

-- The second flush of a call to close finds nothing to do.
theorem Inv.close (h : Inv s) (hm : s.db.storage.shards.flushAll = (m, .ok xs))
    (hf : s.db.storage.shards.Flushed m) :
    ∃ m', m.Flushed m' ∧ s.db.close = ({ s.db with
      wal := s.db.wal.map (·.close)
      storage := { s.db.storage with shards := m', closed := true } }, .ok ()) := by
  obtain ⟨m', xs', hm', hf'⟩ := hf.flushAll h.sound
  refine ⟨m', hf', ?_⟩
  simp only [TimeSeriesDB.close, TimeSeriesDB.flush, StorageEngine.flush, h.checkOpen, hm,
    Except.map, StorageEngine.close, h.closed, if_neg Bool.false_ne_true, hm']

theorem Inv.reopen (h : Inv s) (hf : s.db.storage.shards.Flushed m) (hf' : m.Flushed m')
    (hn : m'.Listed names) (hk : ∀ wal ∈ s.db.wal, wal.segmentNumber + 1 < 10 ^ 10) :
    ∃ db, TimeSeriesDB.reopen { s.db with
      wal := s.db.wal.map (·.close)
      storage := { s.db.storage with shards := m', closed := true } } names = .ok db ∧
        Inv { s with db } := by
  obtain ⟨wal, log, hl⟩ := h.logged
  obtain ⟨hs, hlook⟩ := hf.sound h.sound
  have hstored : m'.stored = (history s.db.config.shardDuration log).latest := by
    rw [hf'.stored_eq hs, hlook, h.lookup, hl.written]
  have hmax : wal.dir.keys.foldl max 0 + 1 < 10 ^ 10 :=
    (Nat.succ_le_succ <| foldl_max_le (Nat.zero_le _) hl.logged.keys_le).trans_lt
      (hk wal hl.enabled)
  have hopen := @inv_open _ F s.db.config m' names wal.dir log h.enableWal
    (hf'.shardDuration.trans (hf.shardDuration.trans h.shardDuration)) (hf'.sound hs).1
    (hf'.complete (hf.complete h.complete)) hn hstored hl.logged.stored hl.small hl.insertable hmax
  rw [hl.written] at hopen
  rw [TimeSeriesDB.reopen, hl.enabled]
  exact hopen

theorem Inv.queryRange_eq {db : TimeSeriesDB F} (h : Inv s) (h' : Inv { s with db })
    (hr : a ≤ b ∨ ∀ p, (key, p) ∈ s.written → b < p.timestamp → ¬ p.timestamp < a) :
    db.queryRange key a b = s.db.queryRange key a b := by
  have hr' : a ≤ b ∨ ∀ t, s.written.latest (key, t) ≠ none → b < t → ¬ t < a := by
    refine hr.imp_right fun hr t ht => ?_
    obtain ⟨p, hp⟩ := Option.ne_none_iff_exists'.mp ht
    obtain ⟨hmem, heq⟩ := History.mem_of_latest hp
    cases show p.timestamp = t from heq
    exact hr p hmem
  obtain ⟨ps, hq, hsort, hg⟩ := h.sound.queryRange (h.lookup.symm ▸ hr')
  obtain ⟨ps', hq', hsort', hg'⟩ := h'.sound.queryRange (h'.lookup.symm ▸ hr')
  have heq : ps' = ps := hsort'.ext hsort fun t => by rw [hg, hg', h.lookup, h'.lookup]
  simp only [TimeSeriesDB.queryRange, StorageEngine.queryRange, h.checkOpen, ok_bind, hq]
  rw [h'.checkOpen, ok_bind, hq', heq]

end Inv

section Bytes

variable [Hashing] {s s' : State .bytes}

def Flushable (s : State .bytes) : Prop :=
  ManagerRun.Careful { manager := s.db.storage.shards } .flushAll

instance (s : State .bytes) : Decidable (Flushable s) :=
  inferInstanceAs <| Decidable <| ManagerRun.Careful { manager := s.db.storage.shards } .flushAll

-- Every point is taken by its shard and fits into a frame of the log, the tables can be written as
-- for a manager of shards, and there are not more segments than the names of their files can order.
def Careful (s : State .bytes) : Event → Prop
  | .write metric tags timestamp value =>
    let entry := write metric tags timestamp value
    Small entry ∧ entry.Insertable s.db.config.shardDuration
  | .writeBatch points =>
    let entry := writeBatch points
    Small entry ∧ entry.Insertable s.db.config.shardDuration
  | .flush => Flushable s
  | .compact => ManagerRun.Careful { manager := s.db.storage.shards } .compactAll
  | .reopen _ => Flushable s ∧ ∀ wal ∈ s.db.wal, wal.segmentNumber + 1 < 10 ^ 10

instance (s : State .bytes) (e : Event) : Decidable (Careful s e) :=
  match e with
  | .write metric tags timestamp value => inferInstanceAs <| Decidable <|
    Small (.write metric tags timestamp value) ∧
      Insertable s.db.config.shardDuration (.write metric tags timestamp value)
  | .writeBatch points => inferInstanceAs <| Decidable <| Small (.writeBatch points) ∧
    Insertable s.db.config.shardDuration (.writeBatch points)
  | .flush => inferInstanceAs <| Decidable <| Flushable s
  | .compact => inferInstanceAs <| Decidable <|
    ManagerRun.Careful { manager := s.db.storage.shards } .compactAll
  | .reopen _ => inferInstanceAs <| Decidable <|
    Flushable s ∧ ∀ wal ∈ s.db.wal, wal.segmentNumber + 1 < 10 ^ 10

theorem Inv.manager (h : Inv s) : ManagerRun.Inv { manager := s.db.storage.shards } :=
  ⟨h.sound, h.complete, fun hp => by cases hp⟩

theorem Inv.step (h : Inv s) (hc : Careful s e) (he : DatabaseRun.step s e = some s') : Inv s' := by
  cases e
  case write metric tags timestamp value =>
    cases he
    obtain ⟨wal, log, hl⟩ := h.logged
    obtain ⟨e, hw, hx⟩ := write_eq h.closed h.sound (h.shardDuration.symm ▸ hc.2)
    simp only [TimeSeriesDB.write, hw, hl.enabled]
    exact h.extend hl hc.1 hc.2 (h.shardDuration ▸ hx)
  case writeBatch points =>
    cases he
    by_cases hp : points.isEmpty
    case pos =>
      cases List.isEmpty_iff.mp hp
      exact h
    case neg =>
      obtain ⟨wal, log, hl⟩ := h.logged
      obtain ⟨e, hw, hx⟩ := writeBatch_eq h.closed h.sound (h.shardDuration.symm ▸ hc.2)
      simp only [TimeSeriesDB.writeBatch, if_neg hp, hw, hl.enabled]
      exact h.extend hl hc.1 hc.2 (h.shardDuration ▸ hx)
  case flush =>
    cases he
    obtain ⟨m, xs, hm, hf⟩ := h.manager.flushAll hc
    simp only [TimeSeriesDB.flush, StorageEngine.flush, h.checkOpen, hm]
    exact h.flushed hf
  case compact =>
    cases he
    obtain ⟨m, xs, hm, hf⟩ := h.manager.compactAll hc
    simp only [TimeSeriesDB.compact, StorageEngine.compact, h.checkOpen, hm]
    exact h.flushed hf
  case reopen names =>
    obtain ⟨m, xs, hm, hf⟩ := h.manager.flushAll hc.1
    obtain ⟨m', hf', hclose⟩ := h.close hm hf
    simp only [DatabaseRun.step, hclose, Option.ite_none_right_eq_some] at he
    obtain ⟨db, hr, hi⟩ := h.reopen hf hf' he.1 hc.2
    rw [hr] at he
    cases he.2
    exact hi

theorem inv_new {config : DatabaseConfig} {db : TimeSeriesDB .bytes} (hw : config.enableWal)
    (h : TimeSeriesDB.open config [] ∅ = .ok db) : Inv { db } := by
  obtain ⟨db', h', hi⟩ :=
    @inv_open _ .bytes config (.new config.shardDuration) (fun _ => []) ∅ [] hw
    rfl (fun _ _ hs => by cases hs) (complete_of_shards fun hs => by cases hs)
    (fun _ he => by cases he) (funext fun q => by
      cases hq : shardStartTime config.shardDuration q.2 <;>
        simp [stored, ShardManager.new, hq] <;> rfl)
    stored_empty (fun _ he => by cases he) (fun _ he => by cases he) (by decide)
  cases h.symm.trans h'
  exact hi

end Bytes

end DatabaseRun

open DatabaseRun

theorem reopen_equals_memory [Hashing] {config : DatabaseConfig} {db₀ : TimeSeriesDB .bytes}
    {s : State .bytes} {names : Timestamp → List FileName} (hw : config.enableWal)
    (h₀ : TimeSeriesDB.open config [] ∅ = .ok db₀) (r : Reaches step Careful { db := db₀ } s)
    (hc : Careful s (.reopen names)) :
    ∃ db₁, s.db.close = (db₁, .ok ()) ∧ (db₁.storage.shards.Listed names →
      ∃ db₂, db₁.reopen names = .ok db₂ ∧ ∀ key a b,
        (a ≤ b ∨ ∀ p, (key, p) ∈ s.written → b < p.timestamp → ¬ p.timestamp < a) →
          db₂.queryRange key a b = s.db.queryRange key a b) := by
  have h := r.invariant (inv_new hw h₀) Inv.step
  obtain ⟨m, xs, hm, hf⟩ := h.manager.flushAll hc.1
  obtain ⟨m', hf', hclose⟩ := h.close hm hf
  refine ⟨_, hclose, fun hn => ?_⟩
  obtain ⟨db₂, hr, h₂⟩ := h.reopen hf hf' hn hc.2
  exact ⟨db₂, hr, fun key a b => h.queryRange_eq h₂⟩

section Sample

local instance : Hashing := .sample

def hourly : DatabaseConfig :=
  { shardDuration := 3600 }

def hourlyDb : TimeSeriesDB .bytes where
  storage := .new 3600
  wal := some {
    dir := SortedMap.insert ∅ 1 [0x31, 0x4C, 0x41, 0x57]
    writer := true
    segmentNumber := 1
    maxSegmentSize := 67108864
    currentSize := 4 }
  config := hourly

def bothFiles (_ : Timestamp) : List FileName :=
  [⟨0, 3600, 0, false⟩, ⟨0, 3600, 1, false⟩]

-- A point that is flushed, one that is only in the log, and one that is skipped in a batch.
theorem reopen_equals_memory_two : ∃ s, Reaches step Careful { db := hourlyDb } s ∧
    s.db.queryRange cpuLoad.seriesKey 0 100 = .ok [atTen, atTwenty] ∧
      ∃ db₁ db₂, s.db.close = (db₁, .ok ()) ∧ db₁.reopen bothFiles = .ok db₂ ∧
        db₂.queryRange cpuLoad.seriesKey 0 100 = s.db.queryRange cpuLoad.seriesKey 0 100 := by
  obtain ⟨s, r, hq, hc, hn⟩ : ∃ s, Reaches step Careful { db := hourlyDb } s ∧
      s.db.queryRange cpuLoad.seriesKey 0 100 = .ok [atTen, atTwenty] ∧
        Careful s (.reopen bothFiles) ∧ s.db.close.1.storage.shards.Listed bothFiles :=
    Reaches.exists_of_run [.write cpuLoad.name cpuLoad.tags 10 atTen.value, .flush,
      .writeBatch [(cpuLoad.name, cpuLoad.tags, -1, 0),
        (cpuLoad.name, cpuLoad.tags, 20, atTwenty.value)]]
      (by decide +kernel)
  obtain ⟨db₁, hclose, hr⟩ := @reopen_equals_memory _ hourly hourlyDb s bothFiles rfl rfl r hc
  rw [hclose] at hn
  obtain ⟨db₂, hopen, hsame⟩ := hr hn
  exact ⟨s, r, hq, db₁, db₂, hclose, hopen, hsame _ 0 100 (.inl (by decide))⟩

-- The point is refused, but it is in the log.
theorem refused_write_prevents_reopen : ∃ s, Reaches step anyEvent { db := hourlyDb } s ∧
    (hourlyDb.write cpuLoad.name cpuLoad.tags (-1) 0).2 =
      .error (.error (.storageError "Timestamp -1 is outside shard range [0, 3600)")) ∧
    s.db.close.2 = .ok () ∧ (s.db.close.1.reopen fun _ => []).toOption.isNone :=
  Reaches.exists_of_run [.write cpuLoad.name cpuLoad.tags (-1) 0] (by decide +kernel)

end Sample

end Tsdb
