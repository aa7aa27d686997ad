import AppliedCs.Cache.Theorems.Commands
import AppliedCs.Cache.Theorems.Resp
import AppliedCs.Lib.Records
import AppliedCs.Lib.Transition

namespace Cache

open Codec Effect Transition CommandExecutor RespValue AOF Server List Option

section

variable {F : Type} [Environment] [Score F]

-- A server with its connections, each of which has selected a database.
structure Session (F : Type) where
  server : Server F
  selected : ℕ → ℕ

inductive Event
  | command (connection : ℕ) (now : Moment) (value : RespValue)
  | sync
  -- What has not been written to the file is lost.
  | restart (now : Moment) (databases : ℕ)

namespace Session

def start (server : Server F) : Session F where
  server
  selected _ := 0

def step (s : Session F) : Event → Option (Session F)
  | .command connection now value => do
    let r ← s.server.executeCommand now value (s.selected connection)
    let selected := match r.2.2 with
      | some index => Function.update s.selected connection index
      | none => s.selected
    return { server := r.1, selected }
  | .sync =>
    some { s with server := { s.server with aof := s.server.aof.sync } }
  | .restart now databases => do
    let server ← new now { file := s.server.aof.file, policy := s.server.aof.policy } databases
    return start server

end Session

-- The first database changes places with another one.
def Server.SwapsFirst (s : Server F) (args : List RespValue) : Prop :=
  ∃ first second a b, args = [first, second] ∧ indexOf first = some a ∧ indexOf second = some b ∧
    a < s.databases.length ∧ b < s.databases.length ∧ a ≠ b ∧ (a = 0 ∨ b = 0)

-- A command that comes from a client does not set an expiry, is not given up after it has begun to
-- change the database, and changes no other database than the first, which stays where it is.
def Careful (s : Session F) : Event → Prop
  | .command connection _ value => value.Valid ∧ ∀ cmd args, parts value = some (cmd, args) →
      ¬ SetsTtl cmd args ∧ Readable F cmd args ∧
      (isWriteCommand cmd → s.server.dbIndex (s.selected connection) = 0) ∧
      (cmd = "SWAPDB" → ¬ s.server.SwapsFirst args)
  | _ => True

section Replay

-- What the file holds: commands that have the same effect when they are repeated.
def Loggable (F : Type) [Score F] (value : RespValue) : Prop :=
  value.Valid ∧ ∃ cmd args, parts value = some (cmd, args) ∧ isWriteCommand cmd ∧
    ¬ SetsTtl cmd args ∧ Readable F cmd args

def replayAll (now : Moment) (values : List RespValue) : Action F Unit :=
  values.forM (replayValue now)

theorem timeless_replayValue (h : Loggable F value) : Timeless (F := F) (replayValue · value) := by
  obtain ⟨-, cmd, args, hp, hw, ht, hr⟩ := h
  simp only [replayValue, hp]
  exact (steady_execute ht hr hw).agrees.bind fun _ => .pure _

theorem timeless_replayAll (h : ∀ value ∈ values, Loggable F value) :
    Timeless (F := F) (replayAll · values) := by
  induction values
  case nil => exact .pure ()
  case cons value values hi =>
    have ⟨hv, hvs⟩ := forall_mem_cons.mp h
    exact (timeless_replayValue hv).bind fun _ => hi hvs

theorem replayAll_append (now : Moment) (l₁ l₂ : List RespValue) :
    replayAll (F := F) now (l₁ ++ l₂) = replayAll now l₁ >>= fun _ => replayAll now l₂ :=
  forM_append

-- The rounds of the loop are as many as there are commands in the file, or more.
theorem replay_flatMap (hv : ∀ value ∈ values, value.Valid) {p : RespParser}
    (hp : p.buffer = values.flatMap serialize) (hr : values.length ≤ rounds) :
    replay (F := F) now p rounds = replayAll now values := by
  induction values generalizing p rounds
  case nil =>
    have hnone := RespParser.streams.empty p hp
    cases rounds
    case zero => rfl
    case succ =>
      simp only [replay, hnone]
      rfl
  case cons value values hi =>
    obtain ⟨rounds, rfl⟩ := Nat.exists_eq_add_of_le' (Nat.le_trans (Nat.succ_pos _) hr)
    have ⟨hv, hvs⟩ := forall_mem_cons.mp hv
    obtain ⟨p', hread, hrest⟩ := RespParser.streams.read p value _ hv hp
    simp only [replay, hread, hi hvs hrest (Nat.le_of_succ_le_succ hr)]
    rfl

theorem load_flatMap (hv : ∀ value ∈ values, value.Valid) {aof : AOF}
    (hf : aof.file = values.flatMap serialize) :
    aof.load (F := F) now = ((replayAll now values).run {}).map (·.2) := by
  have hlen := length_le_flatMap serialize_pos values []
  rw [append_nil] at hlen
  rw [load, replay_flatMap hv hf (hf ▸ hlen)]

end Replay

-- The file and the buffer hold commands that make the first database out of an empty one.
structure Logged (s : Server F) (written pending : List RespValue) (db : Database F) : Prop where
  file : s.aof.file = written.flatMap serialize
  buffer : s.aof.buffer = pending.flatMap serialize
  loggable : ∀ value ∈ written ++ pending, Loggable F value
  first : s.databases[0]? = some db
  replayed : ∀ now, (replayAll now (written ++ pending)).run {} = some ((), db)

namespace Logged

variable {s : Server F} {written : List RespValue} {db : Database F}

variable (h : Logged s written pending db)

include h

theorem lasting (now : Moment) : db.Lasting :=
  (timeless_replayAll h.loggable now now {} rfl).2 _ (h.replayed now)

theorem load_sync (now : Moment) : s.aof.sync.load now = some db := by
  have hf : s.aof.sync.file = (written ++ pending).flatMap serialize := by
    rw [flatMap_append, ← h.file, ← h.buffer]
    rfl
  rw [load_flatMap (fun value hv => (h.loggable value hv).1) hf, h.replayed now]
  rfl

theorem flush (ha : s'.aof = s.aof.flush)
    (hd : s'.databases[0]? = some db) : Logged s' (written ++ pending) [] db where
  file := by rw [ha, flatMap_append, ← h.file, ← h.buffer]; rfl
  buffer := by rw [ha]; rfl
  loggable := by rw [append_nil]; exact h.loggable
  first := hd
  replayed := by rw [append_nil]; exact h.replayed

theorem congr (ha : s'.aof = s.aof)
    (hd : s'.databases[0]? = s.databases[0]?) : Logged s' written pending db where
  file := ha ▸ h.file
  buffer := ha ▸ h.buffer
  loggable := h.loggable
  first := hd ▸ h.first
  replayed := h.replayed

-- A command was executed that turned the first database into `db'`, and is in the buffer.
theorem buffered (hl : Loggable F value) (hx : (replayValue now value).run db = some ((), db'))
    (hf : s'.aof.file = s.aof.file) (hb : s'.aof.buffer = s.aof.buffer ++ value.serialize)
    (hd : s'.databases[0]? = some db') : Logged s' written (pending ++ [value]) db' where
  file := hf ▸ h.file
  buffer := by rw [hb, h.buffer, flatMap_append, flatMap_singleton]
  loggable := by
    rw [← append_assoc]
    exact forall_mem_append.mpr ⟨h.loggable, forall_mem_singleton.mpr hl⟩
  first := hd
  replayed := by
    intro now'
    have hlast : (replayValue now' value).run db = some ((), db') :=
      (timeless_replayValue hl now' now db (h.lasting now)).1.trans hx
    have hone : (replayAll now' [value]).run db = some ((), db') := by
      change ((replayValue now' value).run db).bind _ = _
      rw [hlast]
      rfl
    rw [← append_assoc, replayAll_append]
    change ((replayAll now' (written ++ pending)).run {}).bind _ = _
    rw [h.replayed now']
    exact hone

theorem append (hne : items ≠ []) (hl : Loggable F (.array (some items)))
    (hx : (AOF.replayValue now (.array (some items))).run db = some ((), db'))
    (ha : s'.aof = s.aof.append items) (hd : s'.databases[0]? = some db') :
    ∃ written pending, Logged s' written pending db' := by
  let aof := { s.aof with buffer := s.aof.buffer ++ (array (some items)).serialize }
  have hbuf : Logged ⟨s'.databases, aof⟩ written (pending ++ [.array (some items)]) db' :=
    h.buffered hl hx rfl rfl hd
  have hcases : s'.aof = aof ∨ s'.aof = aof.flush := by
    rw [ha, AOF.append, if_neg (by simpa using hne)]
    dsimp only
    split
    · exact .inr rfl
    · split
      case isTrue => exact .inr rfl
      case isFalse => exact .inl rfl
  cases hcases
  case inl heq => exact ⟨_, _, hbuf.congr heq rfl⟩
  case inr heq => exact ⟨_, _, hbuf.flush heq hd⟩

end Logged

namespace Server

variable {s : Server F} {selected : Option ℕ}

-- A command is answered by the server itself, or executed on a database.
theorem executeCommand_cases
    (h : s.executeCommand now value selectedDb = some (s', reply, selected)) :
    s' = s ∨ (∃ args, parts value = some ("SWAPDB", args) ∧ s.cmdSwapdb args = (s', reply)) ∨
    ∃ cmd name args, value = .array (some (name :: args)) ∧ parts value = some (cmd, args) ∧
      s.executeDb now cmd name args selectedDb = some (s', reply) := by
  unfold executeCommand at h
  split at h
  case h_2 =>
    cases h
    exact .inl rfl
  case h_1 name args hv =>
    obtain rfl : value = .array (some (name :: args)) := by
      cases value
      case array => exact congrArg array hv
      all_goals cases hv
    have hparts : ∀ cmd, name.asStr.map Environment.toUppercase = some cmd →
        parts (.array (some (name :: args))) = some (cmd, args) := by
      intro cmd hcmd
      obtain ⟨text, htext, rfl⟩ := map_eq_some_iff.mp hcmd
      simp [parts, intoArray, htext]
    split at h
    case h_1 | h_2 =>
      cases h
      exact .inl rfl
    case h_3 hcmd =>
      cases h
      exact .inr <| .inl ⟨args, hparts _ hcmd, rfl⟩
    case h_4 cmd _ _ hcmd =>
      obtain ⟨r, hr, he⟩ := map_eq_some_iff.mp h
      cases he
      exact .inr <| .inr ⟨cmd, name, args, rfl, hparts _ hcmd, hr⟩

omit [Environment] [Score F] in
theorem cmdSwapdb_first (h : ¬ s.SwapsFirst args) :
    (s.cmdSwapdb args).1.aof = s.aof ∧ (s.cmdSwapdb args).1.databases[0]? = s.databases[0]? := by
  unfold cmdSwapdb
  split
  case h_2 => exact ⟨rfl, rfl⟩
  case h_1 first second =>
    split
    case h_2 => exact ⟨rfl, rfl⟩
    case h_1 a b ha hb =>
      split
      case isTrue => exact ⟨rfl, rfl⟩
      case isFalse hlen =>
        refine ⟨rfl, ?_⟩
        split
        case isTrue => rfl
        case isFalse hne =>
          obtain ⟨hla, hlb⟩ := not_or.mp hlen
          have hz : ¬ (a = 0 ∨ b = 0) := fun hz =>
            h ⟨first, second, a, b, rfl, ha, hb, not_le.mp hla, not_le.mp hlb, hne, hz⟩
          obtain ⟨hza, hzb⟩ := not_or.mp hz
          unfold swap
          split
          · rw [getElem?_set_ne hzb, getElem?_set_ne hza]
          · rfl

-- What a command does to one database, and whether it is logged.
theorem executeDb_cases (h : s.executeDb now cmd name args selectedDb = some (s', reply)) :
    ∃ db db', s.databases[s.dbIndex selectedDb]? = some db ∧
      (execute now cmd args).run db = some (reply, db') ∧
      s'.databases = s.databases.set (s.dbIndex selectedDb) db' ∧
      s'.aof =
        if isWriteCommand cmd && !reply.isError then s.aof.append (name :: args) else s.aof := by
  obtain ⟨db, hdb, h⟩ := bind_eq_some_iff.mp h
  obtain ⟨⟨reply', db'⟩, hx, h⟩ := bind_eq_some_iff.mp h
  split at h
  case isTrue hl =>
    cases h
    exact ⟨db, db', hdb, hx, rfl, (if_pos hl).symm⟩
  case isFalse hl =>
    cases h
    exact ⟨db, db', hdb, hx, rfl, (if_neg hl).symm⟩

end Server

namespace Logged

variable {s' : Server F} {written : List RespValue} {db : Database F}

theorem executeDb (h : Logged s written pending db)
    (hx : s.executeDb now cmd name args selectedDb = some (s', reply))
    (hv : (array (some (name :: args))).Valid)
    (hp : parts (.array (some (name :: args))) = some (cmd, args)) (ht : ¬ SetsTtl cmd args)
    (hr : Readable F cmd args) (hw : isWriteCommand cmd → s.dbIndex selectedDb = 0) :
    ∃ written pending db, Logged s' written pending db := by
  obtain ⟨db₁, db₂, hdb, hrun, hset, haof⟩ := executeDb_cases hx
  have hlen : 0 < s.databases.length := (List.getElem?_eq_some_iff.mp h.first).1
  by_cases hwrite : isWriteCommand cmd
  case neg =>
    -- The database is only looked at, whichever it is.
    rw [if_neg (by simp [hwrite])] at haof
    refine ⟨written, pending, db, h.congr haof ?_⟩
    rw [hset]
    by_cases hz : s.dbIndex selectedDb = 0
    case neg => exact getElem?_set_ne hz
    rw [hz, h.first] at hdb
    cases hdb
    have := readOnly_execute hwrite now args db (h.lasting now) _ hrun
    simp only at this
    rw [hz, getElem?_set_self hlen, this, h.first]
  rw [hw hwrite] at hdb hset
  rw [h.first] at hdb
  cases hdb
  have hfirst : s'.databases[0]? = some db₂ := by rw [hset, getElem?_set_self hlen]
  have hsteady := steady_execute (F := F) ht hr hwrite
  by_cases hfail : reply.isError
  case pos =>
    rw [if_neg (by simp [hfail])] at haof
    have heq : db₂ = db := hsteady.atomic now db (h.lasting now) _ hrun hfail
    exact ⟨written, pending, db, h.congr haof (by rw [hfirst, heq, h.first])⟩
  rw [if_pos (by simp [hwrite, hfail])] at haof
  have hloggable : Loggable F (.array (some (name :: args))) := ⟨hv, cmd, args, hp, hwrite, ht, hr⟩
  have hreplay : (replayValue now (.array (some (name :: args)))).run db = some ((), db₂) := by
    simp only [replayValue, hp]
    change ((execute now cmd args).run db).bind _ = _
    rw [hrun]
    rfl
  have ⟨written, pending, h⟩ := h.append (cons_ne_nil _ _) hloggable hreplay haof hfirst
  exact ⟨written, pending, db₂, h⟩

theorem restart (h : Logged s written pending db) {policy : FsyncPolicy} {databases : ℕ}
    (hn : new now { file := s.aof.file, policy } databases = some s') :
    ∃ db, Logged s' written [] db := by
  obtain ⟨loaded, hload, hs⟩ := bind_eq_some_iff.mp hn
  cases hs
  have hwritten : ∀ value ∈ written, Loggable F value := fun value hv =>
    h.loggable value (mem_append_left _ hv)
  have hl : load now { file := s.aof.file, policy } = _ :=
    load_flatMap (F := F) (fun value hv => (hwritten value hv).1) h.file
  rw [hl] at hload
  obtain ⟨p, hrun, rfl⟩ := map_eq_some_iff.mp hload
  refine ⟨p.2, h.file, rfl, by rwa [append_nil], rfl, fun now' => ?_⟩
  rw [append_nil, (timeless_replayAll hwritten now' now {} rfl).1]
  exact hrun

end Logged

theorem Session.logged_step {s' : Session F}
    (h : ∃ written pending db, Logged s.server written pending db) (hc : Careful s e)
    (hs : s.step e = some s') : ∃ written pending db, Logged s'.server written pending db := by
  obtain ⟨written, pending, db, h⟩ := h
  cases e
  case sync =>
    cases hs
    exact ⟨_, _, db, h.flush rfl h.first⟩
  case restart now databases =>
    obtain ⟨server, hn, hs⟩ := bind_eq_some_iff.mp hs
    cases hs
    have ⟨db, h⟩ := h.restart hn
    exact ⟨written, [], db, h⟩
  case command connection now value =>
    obtain ⟨⟨server, reply, selected⟩, hx, hs⟩ := bind_eq_some_iff.mp hs
    cases hs
    obtain ⟨hv, hparts⟩ := hc
    rcases executeCommand_cases hx with rfl | ⟨args, hp, hx⟩ | ⟨cmd, name, args, rfl, hp, hx⟩
    · exact ⟨written, pending, db, h⟩
    · have ⟨ha, hd⟩ := cmdSwapdb_first ((hparts _ _ hp).2.2.2 rfl)
      rw [hx] at ha hd
      exact ⟨written, pending, db, h.congr ha hd⟩
    · have ⟨ht, hr, hw, _⟩ := hparts _ _ hp
      exact h.executeDb hx hv hp ht hr hw

theorem aof_durable {policy : FsyncPolicy} {databases : ℕ} {server : Server F}
    (hn : new now { policy } databases = some server) {s : Session F}
    (r : Reaches Session.step Careful (.start server) s) :
    ∃ db, s.server.databases[0]? = some db ∧ ∀ now, s.server.aof.sync.load now = some db := by
  have h₀ : ∃ written pending db, Logged (Session.start server).server written pending db := by
    cases hn
    exact ⟨[], [], {}, rfl, rfl, by simp, rfl, fun _ => rfl⟩
  have ⟨written, pending, db, h⟩ := r.invariant
    (P := fun s => ∃ written pending db, Logged s.server written pending db) h₀ Session.logged_step
  exact ⟨db, h.first, h.load_sync⟩

end

-- Texts in capital letters, and numbers that are not used.
abbrev Environment.sample : Environment where
  toUppercase := id
  toLowercase := id
  fromUtf8Lossy := fun _ => ""
  cluster := fun _ _ => .ok

local instance serverSample : Environment := .sample

local instance scoreSample : Score Unit where
  parse := fun _ => none
  format := fun _ => ""
  zero := ()
  infinity := ()
  negInfinity := ()
  add := fun _ _ => ()
  eq := fun _ _ => true
  lt := fun _ _ => false
  le := fun _ _ => true
  partitionPoint := fun _ => 0

def request (texts : List String) : RespValue :=
  .array (some (texts.map .bulk))

theorem careful_set (s : Session Unit) (h : s.server.databases.length = 1) :
    Careful s (.command 0 sampleMoment (request ["SET", "k", "v"])) := by
  refine ⟨?_, fun cmd args hp => ?_⟩
  · simp only [request, Valid, ValidAll, bulk, map]
    decide +kernel
  · have hs : (bulk "SET").asStr = some "SET" := Text.fromUTF8?_asBytes ..
    obtain ⟨rfl, rfl⟩ := hp
    refine ⟨?_, ⟨fun h => absurd h (by decide), fun h => absurd h (by decide)⟩, fun _ => ?_,
      fun h => absurd h (by decide)⟩
    · rintro (h | ⟨-, h⟩)
      · exact absurd h (by decide)
      · simp [Strings.setOptions, Except.toOption] at h
    · simp [dbIndex, h]

theorem aof_durable_set : ∃ s : Session Unit, Reaches Session.step Careful (.start ⟨[{}], {}⟩) s ∧
    ∃ db, s.server.databases[0]? = some db ∧ (db.data.lookup "k").isSome ∧
      s.server.aof.sync.load sampleMoment = some db := by
  have hstep : (Session.step (.start ⟨[({} : Database Unit)], {}⟩)
      (.command 0 sampleMoment (request ["SET", "k", "v"]))).any (fun s =>
        s.server.databases[0]?.any fun db => (db.data.lookup "k").isSome) := by
    decide +kernel
  obtain ⟨s, hs, hk⟩ := Option.any_eq_true .. |>.mp hstep
  have r : Reaches Session.step Careful (.start ⟨[{}], {}⟩) s :=
    .single ⟨_, careful_set _ rfl, hs⟩
  have hnew : new sampleMoment {} 1 = some ⟨[({} : Database Unit)], {}⟩ := rfl
  have ⟨db, hdb, hload⟩ := aof_durable hnew r
  rw [hdb] at hk
  exact ⟨s, r, db, hdb, hk, hload _⟩

-- What a connection writes to its second database is loaded into the first.
theorem other_database_replayed : ∃ s : Session Unit,
    Reaches Session.step anyEvent (.start ⟨[{}, {}], {}⟩) s ∧
    s.server.databases[0]? = some ({} : Database Unit) ∧
    (s.server.aof.sync.load (F := Unit) sampleMoment).any (fun db => (db.data.lookup "k").isSome) :=
  Reaches.exists_of_run
    [Event.command 0 sampleMoment (request ["SELECT", "1"]),
      Event.command 0 sampleMoment (request ["SET", "k", "v"])]
    (by decide +kernel)

-- A command that only reads, or that is answered with an error, leaves the databases and the log
-- as they were.
theorem rejected_leaves_no_trace [Environment] [Score F] {s s' : Server F} {selected : Option ℕ}
    (hx : s.executeCommand now value selectedDb = some (s', reply, selected))
    (hl : ∀ db ∈ s.databases, db.Lasting)
    (h : ∀ cmd args, parts value = some (cmd, args) → ¬ SetsTtl cmd args ∧ Readable F cmd args ∧
      (isWriteCommand cmd ∨ cmd = "SWAPDB" → reply.isError)) :
    s'.databases = s.databases ∧ s'.aof = s.aof := by
  rcases executeCommand_cases hx with rfl | ⟨args, hp, hx⟩ | ⟨cmd, name, args, rfl, hp, hx⟩
  · exact ⟨rfl, rfl⟩
  · have he := (h _ _ hp).2.2 (.inr rfl)
    unfold cmdSwapdb at hx
    split at hx <;> (try split at hx) <;> (try split at hx) <;> cases hx
    case h_1.isFalse => cases he
    all_goals exact ⟨rfl, rfl⟩
  obtain ⟨ht, hr, he⟩ := h _ _ hp
  obtain ⟨db, db', hdb, hrun, hset, haof⟩ := executeDb_cases hx
  have hlast := hl db (mem_of_getElem? hdb)
  have heq : db' = db := by
    by_cases hw : isWriteCommand cmd
    case pos => exact (steady_execute ht hr hw).atomic now db hlast _ hrun (he (.inl hw))
    case neg => exact readOnly_execute hw now args db hlast _ hrun
  obtain ⟨_, rfl⟩ := List.getElem?_eq_some_iff.mp hdb
  rw [heq, set_getElem_self] at hset
  exact ⟨hset, by rw [haof, if_neg (by simpa using fun hw => he (.inl hw))]⟩

-- A list command finds a text.
theorem rejected_leaves_no_trace_wrong_type :
    let s : Server Unit := ⟨[{ data := .singleton "k" (.string (.raw [])) }], {}⟩
    ∃ p ∈ s.executeCommand sampleMoment (request ["LPUSH", "k", "v"]) 0,
      p.2.1.isError ∧ p.1.databases = s.databases ∧ p.1.aof = s.aof := by
  intro s
  have hx :
      (s.executeCommand sampleMoment (request ["LPUSH", "k", "v"]) 0).any (·.2.1.isError) := by
    decide +kernel
  obtain ⟨p, hp, he⟩ := (Option.any_eq_true ..).mp hx
  refine ⟨p, hp, he, ?_⟩
  refine rejected_leaves_no_trace hp (by simp [s, Database.Lasting]) fun cmd args hc => ?_
  have hs : (bulk "LPUSH").asStr = some "LPUSH" := Text.fromUTF8?_asBytes ..
  have hparts : parts (request ["LPUSH", "k", "v"]) = some ("LPUSH", [bulk "k", bulk "v"]) :=
    congrArg (·.map fun name => (name, [bulk "k", bulk "v"])) hs
  cases hparts.symm.trans hc
  exact ⟨by simp [SetsTtl, ttlCommands], by simp [Readable], fun _ => he⟩

end Cache
