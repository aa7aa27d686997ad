import AppliedCs.Cache.Commands.Collections
import AppliedCs.Cache.Commands.Keys
import AppliedCs.Cache.Commands.ZSets

namespace Cache

open Codec

variable {F : Type} [Environment] [Score F]

namespace CommandExecutor

-- What is done for a command at some time.
abbrev Handler (F : Type) := Moment → Command F

def stringCommands : List (String × Handler F) :=
  [("GET", Strings.get), ("SET", (Strings.set ·)), ("SETNX", Strings.setnx),
    ("SETEX", Strings.setex), ("PSETEX", Strings.psetex), ("MGET", Strings.mget),
    ("MSET", fun _ => Strings.mset), ("APPEND", Strings.append), ("STRLEN", Strings.strlen),
    ("INCR", Strings.incr), ("INCRBY", Strings.incrby), ("DECR", Strings.decr),
    ("DECRBY", Strings.decrby), ("GETSET", Strings.getset)]

def listCommands : List (String × Handler F) :=
  [("LPUSH", Lists.lpush), ("RPUSH", Lists.rpush), ("LPOP", Lists.lpop), ("RPOP", Lists.rpop),
    ("LLEN", Lists.llen), ("LRANGE", Lists.lrange), ("LINDEX", Lists.lindex), ("LSET", Lists.lset)]

def setCommands : List (String × Handler F) :=
  [("SADD", Sets.sadd), ("SREM", Sets.srem), ("SMEMBERS", Sets.smembers),
    ("SISMEMBER", Sets.sismember), ("SCARD", Sets.scard), ("SINTER", Sets.sinter),
    ("SUNION", Sets.sunion), ("SDIFF", Sets.sdiff)]

def hashCommands : List (String × Handler F) :=
  [("HSET", Hashes.hset), ("HGET", Hashes.hget), ("HDEL", Hashes.hdel), ("HEXISTS", Hashes.hexists),
    ("HLEN", Hashes.hlen), ("HGETALL", Hashes.hgetall), ("HKEYS", Hashes.hkeys),
    ("HVALS", Hashes.hvals), ("HMSET", Hashes.hmset), ("HMGET", Hashes.hmget)]

def zsetCommands : List (String × Handler F) :=
  [("ZADD", (ZSets.zadd ·)), ("ZREM", ZSets.zrem), ("ZSCORE", ZSets.zscore), ("ZCARD", ZSets.zcard),
    ("ZRANGE", ZSets.zrange), ("ZRANK", ZSets.zrank), ("ZCOUNT", (ZSets.zcount ·)),
    ("ZINCRBY", ZSets.zincrby)]

def keyCommands : List (String × Handler F) :=
  [("DEL", fun _ => Keys.del), ("EXISTS", Keys.exists), ("EXPIRE", Keys.expire),
    ("EXPIREAT", Keys.expireat), ("PEXPIRE", Keys.pexpire), ("TTL", Keys.ttl), ("PTTL", Keys.pttl),
    ("PERSIST", fun _ => Keys.persist), ("TYPE", Keys.keyType), ("KEYS", Keys.keys),
    ("DBSIZE", fun _ => Keys.dbsize), ("FLUSHDB", fun _ => Keys.flushdb), ("RENAME", Keys.rename),
    ("RENAMENX", Keys.renamenx)]

def otherCommands : List (String × Handler F) :=
  [("PING", fun _ => ServerCommands.ping), ("ECHO", fun _ => ServerCommands.echo),
    ("INFO", fun _ => ServerCommands.info), ("COMMAND", fun _ => ServerCommands.command),
    ("PUBLISH", fun _ => ServerCommands.publish), ("PUBSUB", fun _ => ServerCommands.pubsub),
    ("MULTI", fun _ => ServerCommands.multi), ("EXEC", fun _ => ServerCommands.exec),
    ("DISCARD", fun _ => ServerCommands.discard), ("WATCH", fun _ => ServerCommands.watch),
    ("UNWATCH", fun _ => ServerCommands.unwatch),
    ("CLUSTER", fun _ args => return Environment.cluster "CLUSTER" args),
    ("READONLY", fun _ args => return Environment.cluster "READONLY" args),
    ("READWRITE", fun _ args => return Environment.cluster "READWRITE" args)]

def commands : List (String × Handler F) :=
  stringCommands ++ listCommands ++ setCommands ++ hashCommands ++ zsetCommands ++ keyCommands ++
    otherCommands

def execute (now : Moment) (cmd : String) : Command F := fun args =>
  match commands.lookup cmd with
  | some handler => handler now args
  | none => return .error s!"ERR unknown command '{cmd}'"

end CommandExecutor

inductive FsyncPolicy
  | always
  | everySecond
  | no
  deriving DecidableEq

-- The file and what has not been written to it.
structure AOF where
  file : Bytes := []
  buffer : Bytes := []
  policy : FsyncPolicy := .everySecond

namespace AOF

def flush (aof : AOF) : AOF :=
  { aof with file := aof.file ++ aof.buffer, buffer := [] }

def append (aof : AOF) (command : List RespValue) : AOF :=
  if command.isEmpty then aof
  else
    let aof := { aof with buffer := aof.buffer ++ (RespValue.array (some command)).serialize }
    match aof.policy with
    | .always => aof.flush
    | _ => if aof.buffer.length > 4096 then aof.flush else aof

def sync (aof : AOF) : AOF :=
  aof.flush

-- The name of the command and its arguments.
def parts (value : RespValue) : Option (String × List RespValue) :=
  match value.intoArray with
  | some (name :: args) => name.asStr.map fun name => (Environment.toUppercase name, args)
  | _ => none

-- The reply is not looked at.
def replayValue (now : Moment) (value : RespValue) : Action F Unit :=
  match parts value with
  | none => return ()
  | some p => do
    let _ ← CommandExecutor.execute now p.1 p.2

-- Each round takes a byte or more.
def replay (now : Moment) (parser : RespParser) : ℕ → Action F Unit
  | 0 => return ()
  | rounds + 1 =>
    match parser.parse with
    | .ok (some (value, parser)) => do
      replayValue now value
      replay now parser rounds
    | _ => return ()

def load (now : Moment) (aof : AOF) : Option (Database F) :=
  ((replay now (RespParser.new.feed aof.file) aof.file.length).run {}).map (·.2)

end AOF

def writeCommands : List String :=
  ["SET", "SETNX", "SETEX", "PSETEX", "MSET", "APPEND", "GETSET", "INCR", "INCRBY", "DECR",
    "DECRBY", "LPUSH", "RPUSH", "LPOP", "RPOP", "LSET", "SADD", "SREM", "HSET", "HMSET", "HDEL",
    "ZADD", "ZREM", "ZINCRBY", "DEL", "EXPIRE", "EXPIREAT", "PEXPIRE", "PERSIST", "FLUSHDB",
    "RENAME", "RENAMENX"]

def isWriteCommand (cmd : String) : Bool :=
  cmd ∈ writeCommands

def parseUsize (s : String) : Option ℕ :=
  let digits :=
    match s.toList with
    | '+' :: digits => digits
    | digits => digits
  (parseDigits digits).bind fun n => if n < UInt64.size then some n else none

def indexOf (v : RespValue) : Option ℕ :=
  v.asStr.bind parseUsize

-- Without a limit for the memory, and with an append-only file.
structure Server (F : Type) where
  databases : List (Database F)
  aof : AOF

namespace Server

-- The file is loaded into the first database.
def new (now : Moment) (aof : AOF) (databases : ℕ) : Option (Server F) := do
  let loaded ← aof.load now
  return { databases := loaded :: List.replicate (databases - 1) {}, aof }

variable (s : Server F)

def cmdSelect (args : List RespValue) : RespValue × Option ℕ :=
  match args with
  | [arg] =>
    match indexOf arg with
    | none => (.error "ERR value is not an integer or out of range", none)
    | some index =>
      if index ≥ s.databases.length then (.error "ERR DB index is out of range", none)
      else (.ok, some index)
  | _ => (wrongArguments "select", none)

def swap (databases : List (Database F)) (a b : ℕ) : List (Database F) :=
  match databases[a]?, databases[b]? with
  | some dbA, some dbB => (databases.set a dbB).set b dbA
  | _, _ => databases

def cmdSwapdb (args : List RespValue) : Server F × RespValue :=
  match args with
  | [first, second] =>
    match indexOf first, indexOf second with
    | some a, some b =>
      if a ≥ s.databases.length ∨ b ≥ s.databases.length then
        (s, .error "ERR DB index is out of range")
      else ({ s with databases := if a = b then s.databases else swap s.databases a b }, .ok)
    | _, _ => (s, .error "ERR invalid first DB index")
  | _ => (s, wrongArguments "swapdb")

-- Which database a connection uses that has selected this one.
def dbIndex (selectedDb : ℕ) : ℕ :=
  min selectedDb (s.databases.length - 1)

def executeDb (now : Moment) (cmd : String) (name : RespValue) (args : List RespValue)
    (selectedDb : ℕ) : Option (Server F × RespValue) := do
  let index := s.dbIndex selectedDb
  let db ← s.databases[index]?
  let r ← (CommandExecutor.execute now cmd args).run db
  let databases := s.databases.set index r.2
  -- Writes that have succeeded are logged.
  if isWriteCommand cmd && !r.1.isError then
    return ({ databases, aof := s.aof.append (name :: args) }, r.1)
  else return ({ s with databases }, r.1)

-- The server, the reply, and the database that the connection uses from now on.
def executeCommand (now : Moment) (command : RespValue) (selectedDb : ℕ) :
    Option (Server F × RespValue × Option ℕ) :=
  match command.intoArray with
  | some (name :: args) =>
    match name.asStr.map Environment.toUppercase with
    | none => some (s, .error "ERR invalid command", none)
    | some "SELECT" =>
      let r := s.cmdSelect args
      some (s, r.1, r.2)
    | some "SWAPDB" =>
      let r := s.cmdSwapdb args
      some (r.1, r.2, none)
    | some cmd =>
      (s.executeDb now cmd name args selectedDb).map fun r => (r.1, r.2, none)
  | _ => some (s, .error "ERR wrong number of arguments", none)

end Server

end Cache
