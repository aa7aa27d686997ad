import AppliedCs.Cache.Commands.Strings

namespace Cache

variable {F : Type} (now : Moment)

namespace Keys

-- How many of the keys the action holds of.
def countKeys (name : String) (action : String → Action F Bool) : Command F := fun args =>
  if args.isEmpty then return wrongArguments name
  else do
    let answers ← (args.filterMap RespValue.asStr).mapM action
    return count (answers.count true)

def del : Command F := countKeys "del" Database.delete

def «exists» : Command F := countKeys "exists" (Database.exists now)

def timeOf (v : RespValue) : Option ℕ :=
  v.asInt.bind fun i => if i ≥ 0 then some i.toInt.toNat else none

def expireIn (name : String) (unit : ℕ) : Command F :=
  keyed name (· == 2) fun key args =>
    argument timeOf args 0 "ERR invalid expire time" fun time => do
      return truth (← Database.expire now key (time * unit))

def expire : Command F := expireIn now "expire" Strings.seconds

def pexpire : Command F := expireIn now "pexpire" Strings.milliseconds

def expireat : Command F :=
  keyed "expireat" (· == 2) fun key args =>
    argument timeOf args 0 "ERR invalid expire time" fun timestamp =>
      if timestamp ≤ now.unixTime then do
        let _ ← Database.delete key
        return truth true
      else do
        return truth (← Database.expire now key ((timestamp - now.unixTime) * Strings.seconds))

def remaining (name : String) (unit : ℕ) : Command F :=
  keyed name (· == 1) fun key _ => do
    return .integer (← Database.ttl now key unit)

def ttl : Command F := remaining now "ttl" Strings.seconds

def pttl : Command F := remaining now "pttl" Strings.milliseconds

def persist : Command F :=
  keyed "persist" (· == 1) fun key _ => do
    return truth (← Database.persist key)

def keyType : Command F :=
  keyed "type" (· == 1) fun key _ => do
    return .simpleString ((← Database.keyType now key).getD "none")

def keys : Command F := fun args =>
  if args.length == 1 then
    argument RespValue.asStr args 0 "ERR invalid pattern" fun pattern => do
      return .array (some ((← Database.keys now pattern).map RespValue.bulk))
  else return wrongArguments "keys"

def dbsize : Command F := fun _ db =>
  some (count db.len, db)

def flushdb : Command F := fun _ => do
  Database.flush
  return .ok

-- Only strings can be renamed.
def move (key newkey : String) (reply : RespValue) : Action F RespValue := do
  match ← Database.getString now key with
  | none => return .error "ERR no such key"
  | some value => do
    let _ ← Database.delete key
    Database.setString newkey value
    return reply

def rename : Command F :=
  keyed "rename" (· == 2) fun key args =>
    argument RespValue.asStr args 0 "ERR invalid new key" fun newkey =>
      move now key newkey .ok

def renamenx : Command F :=
  keyed "renamenx" (· == 2) fun key args =>
    argument RespValue.asStr args 0 "ERR invalid new key" fun newkey => do
      if ← Database.exists now newkey then return truth false
      else move now key newkey (truth true)

end Keys

namespace ServerCommands

def ping : Command F := fun args =>
  match args with
  | [] => return .simpleString "PONG"
  | arg :: _ =>
    return (arg.asBytes.map fun data => .bulkString (some data)).getD (.simpleString "PONG")

def echo : Command F := fun args =>
  match args with
  | [arg] => return bulkOrNull arg.asBytes
  | _ => return wrongArguments "echo"

def info : Command F := fun _ db =>
  let keys := db.len
  let expires := db.expires.keys.card
  let text := "# Server\r\nredis_version:0.1.0\r\nredis_mode:standalone\r\n\r\n# Keyspace\r\n" ++
    s!"db0:keys={keys},expires={expires}\r\n"
  some (.bulk text, db)

def command : Command F := fun _ =>
  return .array (some (["GET", "SET", "SETNX", "SETEX", "PSETEX", "MGET", "MSET", "APPEND",
    "STRLEN", "INCR", "INCRBY", "DECR", "DECRBY", "GETSET", "DEL", "EXISTS", "EXPIRE", "EXPIREAT",
    "PEXPIRE", "TTL", "PTTL", "PERSIST", "TYPE", "KEYS", "DBSIZE", "FLUSHDB", "RENAME", "RENAMENX",
    "PING", "ECHO", "INFO", "COMMAND"].map RespValue.bulk))

-- Nobody is subscribed.
def publish : Command F := fun args =>
  if args.length < 2 then return wrongArguments "publish" else return count 0

def pubsub [Environment] : Command F := fun args =>
  match args with
  | [] => return wrongArguments "pubsub"
  | .bulkString (some subcommand) :: args =>
    let subcommand := Environment.toUppercase (Environment.fromUtf8Lossy subcommand)
    match subcommand with
    | "CHANNELS" => return .array (some [])
    | "NUMSUB" =>
      return .array (some (args.flatMap fun
        | .bulkString (some channel) => [.bulkString (some channel), count 0]
        | _ => []))
    | "NUMPAT" => return count 0
    | _ => return .error s!"ERR Unknown PUBSUB subcommand '{subcommand}'"
  | _ => return .error "ERR invalid subcommand"

def multi : Command F := fun _ => return .ok

def exec : Command F := fun _ => return .error "ERR EXEC without MULTI"

def discard : Command F := fun _ => return .error "ERR DISCARD without MULTI"

def watch : Command F := fun args =>
  if args.isEmpty then return wrongArguments "watch" else return .ok

def unwatch : Command F := fun _ => return .ok

end ServerCommands

end Cache
