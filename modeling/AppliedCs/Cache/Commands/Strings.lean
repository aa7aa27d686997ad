import AppliedCs.Cache.Commands.Basic

namespace Cache.Strings

open Codec

variable {F : Type} (now : Moment)

def get : Command F :=
  keyed "get" (· == 1) fun key _ => do
    return bulkOrNull (← Database.getString now key)

def seconds : ℕ := 1000000000

def milliseconds : ℕ := 1000000

def expireTime (v : RespValue) : Option ℕ :=
  v.asInt.bind fun i => if i > 0 then some i.toInt.toNat else none

structure SetOptions where
  expire : Option ℕ := none
  nx : Bool := false
  xx : Bool := false

-- Options that are no texts are passed over.
def setOptions [Environment] (options : SetOptions) : List RespValue → Except RespValue SetOptions
  | [] => .ok options
  | opt :: args =>
    match opt.asStr.map Environment.toUppercase with
    | none => setOptions options args
    | some "EX" => expiry seconds args
    | some "PX" => expiry milliseconds args
    | some "NX" => setOptions { options with nx := true } args
    | some "XX" => setOptions { options with xx := true } args
    | some _ => .error (.error "ERR syntax error")
where
  expiry (unit : ℕ) : List RespValue → Except RespValue SetOptions
    | [] => .error (.error "ERR syntax error")
    | time :: args =>
      match expireTime time with
      | none => .error (.error "ERR invalid expire time")
      | some n => setOptions { options with expire := some (n * unit) } args

def store (key : String) (value : Bytes) (options : SetOptions) : Action F RespValue := do
  let present ← Database.exists now key
  if options.nx && present then return .null
  else if options.xx && !present then return .null
  else do
    Database.setString key value
    match options.expire with
    | none => return .ok
    | some duration => do
      let _ ← Database.expire now key duration
      return .ok

def set [Environment] : Command F :=
  keyed "set" (2 ≤ ·) fun key args =>
    argument RespValue.asBytes args 0 "ERR invalid value" fun value =>
      match setOptions {} args.tail with
      | .error e => return e
      | .ok options => store now key value options

def setnx : Command F :=
  keyed "setnx" (· == 2) fun key args =>
    argument RespValue.asBytes args 0 "ERR invalid value" fun value => do
      return truth (← Database.setnx now key value)

def setExpiring (name : String) (unit : ℕ) : Command F :=
  keyed name (· == 3) fun key args =>
    argument expireTime args 0 "ERR invalid expire time" fun time =>
      argument RespValue.asBytes args 1 "ERR invalid value" fun value => do
        Database.setString key value
        let _ ← Database.expire now key (time * unit)
        return .ok

def setex : Command F := setExpiring now "setex" seconds

def psetex : Command F := setExpiring now "psetex" milliseconds

def mget : Command F := fun args =>
  if args.isEmpty then return wrongArguments "mget"
  else do
    let values ← (args.filterMap RespValue.asStr).mapM (Database.getString now)
    return .array (some (values.map bulkOrNull))

def pairs : List RespValue → Except RespValue (List (String × Bytes))
  | key :: value :: args =>
    match key.asStr, value.asBytes with
    | none, _ => .error (.error "ERR invalid key")
    | some _, none => .error (.error "ERR invalid value")
    | some key, some data => (pairs args).map ((key, data) :: ·)
  | _ => .ok []

def mset : Command F := fun args =>
  if args.isEmpty || args.length % 2 != 0 then return wrongArguments "mset"
  else
    match pairs args with
    | .error e => return e
    | .ok pairs => do
      pairs.forM fun p => Database.setString p.1 p.2
      return .ok

def lengthReply : Except String ℕ → RespValue
  | .ok n => count n
  | .error e => .error e

def append : Command F :=
  keyed "append" (· == 2) fun key args =>
    argument RespValue.asBytes args 0 "ERR invalid value" fun value => do
      return lengthReply (← Database.append now key value)

def strlen : Command F :=
  keyed "strlen" (· == 1) fun key _ => do
    return lengthReply (← Database.strlen now key)

def numberReply : Except String Int64 → RespValue
  | .ok i => .integer i
  | .error e => .error e

def incr : Command F :=
  keyed "incr" (· == 1) fun key _ => do
    return numberReply (← Database.incr now key 1)

def incrby : Command F :=
  keyed "incrby" (· == 2) fun key args =>
    argument RespValue.asInt args 0 "ERR value is not an integer" fun increment => do
      return numberReply (← Database.incr now key increment)

def decr : Command F :=
  keyed "decr" (· == 1) fun key _ => do
    return numberReply (← Database.incr now key (-1))

def decrby : Command F :=
  keyed "decrby" (· == 2) fun key args =>
    argument RespValue.asInt args 0 "ERR value is not an integer" fun decrement => do
      return numberReply (← Database.incr now key (-decrement))

def getset : Command F :=
  keyed "getset" (· == 2) fun key args =>
    argument RespValue.asBytes args 0 "ERR invalid value" fun value => do
      let oldValue ← Database.getString now key
      Database.setString key value
      return bulkOrNull oldValue

end Cache.Strings
