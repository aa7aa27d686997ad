import AppliedCs.Cache.Object

namespace Cache

open Codec

-- The clocks when a command is executed, and what is left to chance.
structure Moment where
  -- Nanoseconds of the monotonic clock.
  instant : ℕ
  -- Seconds since the epoch.
  unixTime : ℕ
  -- The order in which a hash table lists its elements.
  listed : Finset Bytes → List Bytes
  isListed : ∀ members, (listed members).Nodup ∧ ∀ b, b ∈ listed members ↔ b ∈ members
  -- That many attempts at drawing a key.
  sampled : Finset String → ℕ → List String

-- The clocks at zero, and nothing drawn.
noncomputable def sampleMoment : Moment where
  instant := 0
  unixTime := 0
  listed := Finset.toList
  isListed := fun members => ⟨members.nodup_toList, fun _ => Finset.mem_toList⟩
  sampled := fun _ _ => []

-- The keys with their values, and for some keys when they expire.
structure Database (F : Type) where
  data : Finmap fun _ : String => RedisObject F := ∅
  expires : Finmap fun _ : String => ℕ := ∅
  deriving DecidableEq

-- What is done with a database. There is no result if the process panics.
abbrev Action (F : Type) := StateT (Database F) Option

def wrongTypeText : String :=
  "WRONGTYPE Operation against a key holding the wrong kind of value"

namespace Database

variable {F : Type} (now : Moment) (key : String)

def isExpired (db : Database F) : Bool :=
  match db.expires.lookup key with
  | some expireTime => expireTime ≤ now.instant
  | none => false

def erase (db : Database F) : Database F :=
  { data := db.data.erase key, expires := db.expires.erase key }

def delete : Action F Bool := fun db =>
  some ((db.data.lookup key).isSome, db.erase key)

-- A key that has expired is deleted.
def get : Action F (Option (RedisObject F)) := fun db =>
  if db.isExpired now key then some (none, db.erase key)
  else some (db.data.lookup key, db)

-- What `get_mut` is used for, a value that takes the place of the one it was made from.
def put (value : RedisObject F) : Action F Unit := fun db =>
  some ((), { db with data := db.data.insert key value })

def set (value : RedisObject F) : Action F Unit := fun db =>
  some ((), { data := db.data.insert key value, expires := db.expires.erase key })

def setString (value : Bytes) : Action F Unit :=
  set key (.string (.fromBytes value))

def getString : Action F (Option Bytes) := do
  match ← get now key with
  | some (.string s) => return some s.asBytes
  | _ => return none

def «exists» : Action F Bool := do
  return (← get now key).isSome

-- The duration is given in nanoseconds.
def expire (duration : ℕ) : Action F Bool := fun db =>
  if (db.data.lookup key).isSome then
    some (true, { db with expires := db.expires.insert key (now.instant + duration) })
  else some (false, db)

-- The time to live in units of that many nanoseconds.
def ttl (unit : ℕ) : Action F Int64 := fun db =>
  if (db.data.lookup key).isNone then some (-2, db)
  else
    match db.expires.lookup key with
    | some expireTime =>
      if expireTime ≤ now.instant then some (-2, db)
      else some (.ofNat ((expireTime - now.instant) / unit), db)
    | none => some (-1, db)

def persist : Action F Bool := fun db =>
  some ((db.expires.lookup key).isSome, { db with expires := db.expires.erase key })

def keyType : Action F (Option String) := do
  match ← get now key with
  | some (.string _) => return some "string"
  | some (.list _) => return some "list"
  | some (.set _) => return some "set"
  | some (.hash _) => return some "hash"
  | some (.zset _) => return some "zset"
  | none => return none

def len (db : Database F) : ℕ :=
  db.data.keys.card

def flush : Action F Unit := fun _ =>
  some ((), {})

-- Only one pattern is supported, for which keys are drawn at random.
def keys (pattern : String) : Action F (List String) := fun db =>
  if pattern = "*" then
    let keys := now.sampled db.data.keys (db.len * 2)
    some ((keys.filter fun key => !db.isExpired now key).dedup, db)
  else some ([], db)

def incr (amount : Int64) : Action F (Except String Int64) := do
  match ← get now key with
  | some (.string s) =>
    match s.incr amount with
    | .error e => return .error e
    | .ok i => do
      put key (.string (.int i))
      return .ok i
  | some _ => return .error wrongTypeText
  | none => do
    set key (.string (.int amount))
    return .ok amount

def append (value : Bytes) : Action F (Except String ℕ) := do
  match ← get now key with
  | some (.string s) => do
    put key (.string (s.append value).1)
    return .ok (s.append value).2
  | some _ => return .error wrongTypeText
  | none => do
    set key (.string (.raw value))
    return .ok value.length

def strlen : Action F (Except String ℕ) := do
  match ← get now key with
  | some (.string s) => return .ok s.len
  | some _ => return .error wrongTypeText
  | none => return .ok 0

def setnx (value : Bytes) : Action F Bool := do
  if ← «exists» now key then return false
  else do
    setString key value
    return true

end Database

end Cache
