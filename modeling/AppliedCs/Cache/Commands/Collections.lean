import AppliedCs.Cache.Commands.Basic

namespace Cache

open Codec

variable {F : Type} (now : Moment)

namespace Lists

def push (name : String) (f : List Bytes → Bytes → List Bytes) : Command F :=
  keyed name (2 ≤ ·) fun key args =>
    create now key (.list []) fun
      | .list items =>
        let items := (args.filterMap RespValue.asBytes).foldl f items
        some (.list items, count items.length)
      | _ => none

def lpush : Command F := push now "lpush" fun items value => value :: items

def rpush : Command F := push now "rpush" fun items value => items ++ [value]

def popCount (args : List RespValue) : Except RespValue (Option ℕ) :=
  match args with
  | [] => .ok none
  | n :: _ =>
    match n.asInt with
    | none => .error (.error "ERR value is not an integer")
    | some c =>
      if c > 0 then .ok (some c.toInt.toNat) else .error (.error "ERR value is out of range")

-- With what is taken off a list and what is left of it.
def pop (name : String) (split : ℕ → List Bytes → List Bytes × List Bytes) : Command F :=
  keyed name (1 ≤ ·) fun key args =>
    match popCount args with
    | .error e => return e
    | .ok n =>
      change now key .null fun
        | .list [] => some (.list [], .null)
        | .list items =>
          let r := split (n.getD 1) items
          match n with
          | some _ => some (.list r.2, bulks r.1)
          | none => some (.list r.2, bulkOrNull r.1.head?)
        | _ => none

def lpop : Command F := pop now "lpop" fun n items => (items.take n, items.drop n)

def rpop : Command F :=
  pop now "rpop" fun n items => (items.reverse.take n, (items.reverse.drop n).reverse)

def llen : Command F :=
  keyed "llen" (· == 1) fun key _ =>
    look now key (count 0) fun
      | .list items => some (count items.length)
      | _ => none

def lrange : Command F :=
  keyed "lrange" (· == 3) fun key args =>
    argument RespValue.asInt args 0 "ERR value is not an integer" fun start =>
      argument RespValue.asInt args 1 "ERR value is not an integer" fun stop => do
        match ← Database.get now key with
        | some (.list []) => return bulks []
        | some (.list items) => return bulks (← slice items items.length start stop)
        | some _ => return wrongType
        | none => return bulks []

def position (index : Int64) (items : List Bytes) : Option ℕ :=
  let i := if index < 0 then items.length + index.toInt else index.toInt
  if i < 0 ∨ i ≥ items.length then none else some i.toNat

def lindex : Command F :=
  keyed "lindex" (· == 2) fun key args =>
    argument RespValue.asInt args 0 "ERR value is not an integer" fun index =>
      look now key .null fun
        | .list items => some (bulkOrNull ((position index items).bind (items[·]?)))
        | _ => none

def lset : Command F :=
  keyed "lset" (· == 3) fun key args =>
    argument RespValue.asInt args 0 "ERR value is not an integer" fun index =>
      argument RespValue.asBytes args 1 "ERR invalid value" fun value =>
        change now key (.error "ERR no such key") fun
          | .list items =>
            match position index items with
            | none => some (.list items, .error "ERR index out of range")
            | some i => some (.list (items.set i value), .ok)
          | _ => none

end Lists

namespace Sets

def insertMember (members : Finset Bytes) (member : Bytes) : Finset Bytes × Bool :=
  (insert member members, member ∉ members)

def removeMember (members : Finset Bytes) (member : Bytes) : Finset Bytes × Bool :=
  (members.erase member, member ∈ members)

def sadd : Command F :=
  keyed "sadd" (2 ≤ ·) fun key args =>
    create now key (.set ∅) fun
      | .set members =>
        let r := countLoop insertMember members (args.filterMap RespValue.asBytes)
        some (.set r.1, count r.2)
      | _ => none

def srem : Command F :=
  keyed "srem" (2 ≤ ·) fun key args =>
    change now key (count 0) fun
      | .set members =>
        let r := countLoop removeMember members (args.filterMap RespValue.asBytes)
        some (.set r.1, count r.2)
      | _ => none

def smembers : Command F :=
  keyed "smembers" (· == 1) fun key _ =>
    look now key (bulks []) fun
      | .set members => some (bulks (now.listed members))
      | _ => none

def sismember : Command F :=
  keyed "sismember" (· == 2) fun key args =>
    argument RespValue.asBytes args 0 "ERR invalid member" fun member =>
      look now key (truth false) fun
        | .set members => some (truth (member ∈ members))
        | _ => none

def scard : Command F :=
  keyed "scard" (· == 1) fun key _ =>
    look now key (count 0) fun
      | .set members => some (count members.card)
      | _ => none

-- A loop over the sets of some keys, with what a missing key does to the result.
def combine (f : Option (Finset Bytes) → Finset Bytes → Finset Bytes)
    (missing : Option (Finset Bytes) → Option (Option (Finset Bytes)))
    (result : Option (Finset Bytes)) : Command F
  | [] => return bulks (now.listed (result.getD ∅))
  | arg :: args =>
    match arg.asStr with
    | none => return .error "ERR invalid key"
    | some key => do
      match ← Database.get now key with
      | some (.set members) => combine f missing (some (f result members)) args
      | some _ => return wrongType
      | none =>
        match missing result with
        | none => return bulks []
        | some result => combine f missing result args

def sinter : Command F := fun args =>
  if args.isEmpty then return wrongArguments "sinter"
  else combine now (fun result members => (result.map (· ∩ members)).getD members)
    (fun _ => none) none args

def sunion : Command F := fun args =>
  if args.isEmpty then return wrongArguments "sunion"
  else combine now (fun result members => result.getD ∅ ∪ members) some none args

-- Later keys with values of another type are passed over.
def subtract (result : Finset Bytes) : Command F
  | [] => return bulks (now.listed result)
  | arg :: args =>
    match arg.asStr with
    | none => return .error "ERR invalid key"
    | some key => do
      match ← Database.get now key with
      | some (.set members) => subtract (result \ members) args
      | _ => subtract result args

def sdiff : Command F :=
  keyed "sdiff" (1 ≤ ·) fun key args => do
    match ← Database.get now key with
    | some (.set members) => subtract now members args
    | some _ => return wrongType
    | none => return bulks []

end Sets

namespace Hashes

abbrev Fields := Finmap fun _ : Bytes => Bytes

def removeField (fields : Fields) (field : Bytes) : Fields × Bool :=
  (fields.erase field, (fields.lookup field).isSome)

-- The fields so far are kept if one cannot be read.
def setFields (fields : Fields) (added : ℕ) : List RespValue → Fields × Except RespValue ℕ
  | field :: value :: args =>
    match field.asBytes, value.asBytes with
    | none, _ => (fields, .error (.error "ERR invalid field"))
    | some _, none => (fields, .error (.error "ERR invalid value"))
    | some field, some data =>
      setFields (fields.insert field data)
        (if (fields.lookup field).isNone then added + 1 else added) args
  | _ => (fields, .ok added)

def setCommand (name : String) (reply : ℕ → RespValue) : Command F :=
  keyed name (fun n => 3 ≤ n && n % 2 == 1) fun key args =>
    create now key (.hash ∅) fun
      | .hash fields =>
        match setFields fields 0 args with
        | (fields, .error e) => some (.hash fields, e)
        | (fields, .ok added) => some (.hash fields, reply added)
      | _ => none

def hset : Command F := setCommand now "hset" count

def hmset : Command F := setCommand now "hmset" fun _ => .ok

def hget : Command F :=
  keyed "hget" (· == 2) fun key args =>
    argument RespValue.asBytes args 0 "ERR invalid field" fun field =>
      look now key .null fun
        | .hash fields => some (bulkOrNull (fields.lookup field))
        | _ => none

def hdel : Command F :=
  keyed "hdel" (2 ≤ ·) fun key args =>
    change now key (count 0) fun
      | .hash fields =>
        let r := countLoop removeField fields (args.filterMap RespValue.asBytes)
        some (.hash r.1, count r.2)
      | _ => none

def hexists : Command F :=
  keyed "hexists" (· == 2) fun key args =>
    argument RespValue.asBytes args 0 "ERR invalid field" fun field =>
      look now key (truth false) fun
        | .hash fields => some (truth (fields.lookup field).isSome)
        | _ => none

def hlen : Command F :=
  keyed "hlen" (· == 1) fun key _ =>
    look now key (count 0) fun
      | .hash fields => some (count fields.keys.card)
      | _ => none

-- The fields with their values, in the order of the hash table.
def entries (fields : Fields) : List (Bytes × Bytes) :=
  (now.listed fields.keys).filterMap fun field => (fields.lookup field).map (field, ·)

def listing (name : String) (parts : Bytes × Bytes → List Bytes) : Command F :=
  keyed name (· == 1) fun key _ =>
    look now key (bulks []) fun
      | .hash fields => some (bulks ((entries now fields).flatMap parts))
      | _ => none

def hgetall : Command F := listing now "hgetall" fun e => [e.1, e.2]

def hkeys : Command F := listing now "hkeys" fun e => [e.1]

def hvals : Command F := listing now "hvals" fun e => [e.2]

def hmget : Command F :=
  keyed "hmget" (2 ≤ ·) fun key args =>
    look now key (.array (some (args.map fun _ => .null))) fun
      | .hash fields =>
        some (.array (some (args.map fun arg => bulkOrNull (arg.asBytes.bind (fields.lookup ·)))))
      | _ => none

end Hashes

end Cache
