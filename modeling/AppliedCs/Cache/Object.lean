import AppliedCs.Cache.Resp
import Mathlib.Data.Finmap

namespace Cache

open Codec Text

-- The floating point numbers of the standard library, of which nothing is assumed here.
class Score (F : Type) where
  parse : String → Option F
  format : F → String
  zero : F
  infinity : F
  negInfinity : F
  add : F → F → F
  eq : F → F → Bool
  lt : F → F → Bool
  le : F → F → Bool
  -- Where a binary search ends up, from what it finds for each of the elements.
  partitionPoint : List Bool → ℕ

inductive StringObject
  | raw (data : Bytes)
  | int (i : Int64)
  deriving DecidableEq

namespace StringObject

-- Numbers are recognised.
def fromBytes (data : Bytes) : StringObject :=
  match (String.fromUTF8? ⟨data.toArray⟩).bind parseI64 with
  | some i => int i
  | none => raw data

def asBytes : StringObject → Bytes
  | raw data => data
  | int i => Text.asBytes (toString i.toInt)

variable (s : StringObject)

def len : ℕ :=
  s.asBytes.length

def asInt : StringObject → Option Int64
  | int i => some i
  | raw data => (String.fromUTF8? ⟨data.toArray⟩).bind parseI64

def checkedAdd (a b : Int64) : Option Int64 :=
  let sum := a.toInt + b.toInt
  if Int64.minValue.toInt ≤ sum ∧ sum ≤ Int64.maxValue.toInt then some (.ofInt sum) else none

def incr (amount : Int64) : Except String Int64 :=
  match s.asInt with
  | none => .error "value is not an integer"
  | some current =>
    match checkedAdd current amount with
    | none => .error "increment would overflow"
    | some newValue => .ok newValue

def append (data : Bytes) : StringObject × ℕ :=
  let bytes := s.asBytes ++ data
  (fromBytes bytes, bytes.length)

end StringObject

structure ZSetObject (F : Type) where
  dict : Finmap fun _ : Bytes => F := ∅
  sorted : List (F × Bytes) := []
  deriving DecidableEq

namespace ZSetObject

variable {F : Type} [Score F]

def discard (sorted : List (F × Bytes)) (score : F) (member : Bytes) : List (F × Bytes) :=
  sorted.filter fun e => !(Score.eq e.1 score && e.2 == member)

variable (z : ZSetObject F)

-- Also returns whether the member is new.
def add (score : F) (member : Bytes) : ZSetObject F × Bool :=
  let sorted :=
    match z.dict.lookup member with
    | some oldScore => discard z.sorted oldScore member
    | none => z.sorted
  let pos := Score.partitionPoint F (sorted.map fun e => Score.lt e.1 score)
  ({ dict := z.dict.insert member score
     sorted := sorted.insertIdx pos (score, member) }, (z.dict.lookup member).isNone)

def remove (member : Bytes) : ZSetObject F × Bool :=
  match z.dict.lookup member with
  | some score =>
    ({ dict := z.dict.erase member, sorted := discard z.sorted score member }, true)
  | none => (z, false)

def score (member : Bytes) : Option F :=
  z.dict.lookup member

def len : ℕ :=
  z.dict.keys.card

end ZSetObject

inductive RedisObject (F : Type)
  | string (s : StringObject)
  | list (items : List Bytes)
  | set (members : Finset Bytes)
  | hash (fields : Finmap fun _ : Bytes => Bytes)
  | zset (z : ZSetObject F)
  deriving DecidableEq

end Cache
