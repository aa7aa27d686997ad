import AppliedCs.Cache.Database

namespace Cache

open Codec

-- What the standard library does with texts, and the replies of the commands for clusters, which do
-- not look at the database.
class Environment where
  toUppercase : String → String
  toLowercase : String → String
  fromUtf8Lossy : Bytes → String
  cluster : String → List RespValue → RespValue

abbrev Command (F : Type) := List RespValue → Action F RespValue

def wrongArguments (name : String) : RespValue :=
  .error s!"ERR wrong number of arguments for '{name}' command"

def wrongType : RespValue :=
  .error wrongTypeText

def bulks (items : List Bytes) : RespValue :=
  .array (some (items.map fun data => .bulkString (some data)))

def bulkOrNull : Option Bytes → RespValue
  | some data => .bulkString (some data)
  | none => .null

def truth (b : Bool) : RespValue :=
  .integer (if b then 1 else 0)

def count (n : ℕ) : RespValue :=
  .integer (.ofNat n)

variable {F : Type}

-- An argument in the form that a command needs, or an error.
def argument {α : Type} (read : RespValue → Option α) (args : List RespValue) (i : ℕ)
    (text : String)
    (body : α → Action F RespValue) : Action F RespValue :=
  match args[i]?.bind read with
  | none => return .error text
  | some a => body a

-- Most commands check the number of their arguments, of which the first is a key.
def keyed (name : String) (arity : ℕ → Bool) (body : String → List RespValue → Action F RespValue) :
    Command F := fun args =>
  if arity args.length then
    argument RespValue.asStr args 0 "ERR invalid key" fun key => body key args.tail
  else return wrongArguments name

section Values

variable (now : Moment) (key : String)

-- Looks at a value, if it is of the right type.
def look (missing : RespValue) (view : RedisObject F → Option RespValue) : Action F RespValue := do
  match ← Database.get now key with
  | none => return missing
  | some value => return (view value).getD wrongType

-- Changes a value, if it is of the right type.
def change (missing : RespValue) (f : RedisObject F → Option (RedisObject F × RespValue)) :
    Action F RespValue := do
  match ← Database.get now key with
  | none => return missing
  | some value =>
    match f value with
    | none => return wrongType
    | some r => do
      Database.put key r.1
      return r.2

-- The same for a value that is created if there is none.
def create (empty : RedisObject F) (f : RedisObject F → Option (RedisObject F × RespValue)) :
    Action F RespValue := do
  if ← Database.exists now key then change now key (.error "ERR key does not exist") f
  else do
    Database.set key empty
    change now key (.error "ERR key does not exist") f

end Values

-- A loop over members, with how many of them have made a difference.
def countLoop {α : Type} (f : α → Bytes → α × Bool) (a : α) (members : List Bytes) : α × ℕ :=
  members.foldl (fun p member =>
    let r := f p.1 member
    (r.1, if r.2 then p.2 + 1 else p.2)) (a, 0)

-- The elements between two indices, of which negative ones count from the end of `len` elements.
-- The machine's arithmetic wraps around, and a slice that reaches too far panics.
def slice {α : Type} (items : List α) (len : ℕ) (start stop : Int64) : Option (List α) :=
  let len := Int64.ofNat len
  let start := if start < 0 then max (len + start) 0 else min start len
  let stop := if stop < 0 then max (len + stop + 1) 0 else min (stop + 1) len
  let start := start.toUInt64.toNat
  let stop := stop.toUInt64.toNat
  if start ≥ stop then some []
  else if stop ≤ items.length then some ((items.take stop).drop start)
  else none

end Cache
