import AppliedCs.Lib.FiniteMap

namespace Cache

open FiniteMap (Entry)

def initialSize : ℕ := 4

def resizeRatio : ℕ := 5

variable {K V : Type}

-- The chain of a bucket, first entry first.
abbrev Chain (K V : Type) := List (Entry K V)

namespace Chain

variable [BEq K]

def find (key : K) : Chain K V → Option V
  | [] => none
  | e :: next => if e.key == key then some e.value else find key next

-- The old value and the chain with the new one in its place.
def modify (key : K) (f : V → V) : Chain K V → Option (V × Chain K V)
  | [] => none
  | e :: next =>
    if e.key == key then some (e.value, ⟨e.key, f e.value⟩ :: next)
    else (modify key f next).map fun p => (p.1, e :: p.2)

def remove (key : K) : Chain K V → Option (V × Chain K V)
  | [] => none
  | e :: next =>
    if e.key == key then some (e.value, next)
    else (remove key next).map fun p => (p.1, e :: p.2)

end Chain

structure HashTable (K V : Type) where
  buckets : List (Chain K V) := []
  size : ℕ := 0
  mask : ℕ := 0
  used : ℕ := 0

-- A call returns `none` where an index is out of bounds, which makes the code panic.
namespace HashTable

def new : HashTable K V := {}

def withSize (size : ℕ) : HashTable K V :=
  let size := size.nextPowerOfTwo
  { buckets := .replicate size [], size, mask := size - 1 }

-- The table gets its buckets with the first key.
def prepare (t : HashTable K V) : HashTable K V :=
  if t.size = 0 then .withSize initialSize else t

variable [Hashable K]

def index (t : HashTable K V) (key : K) : ℕ :=
  (hash key).toNat &&& t.mask

def push (t : HashTable K V) (e : Entry K V) : Option (HashTable K V) := do
  let chain ← t.buckets[t.index e.key]?
  return { t with buckets := t.buckets.set (t.index e.key) (e :: chain), used := t.used + 1 }

variable [BEq K]

def find (t : HashTable K V) (key : K) : Option (Option V) :=
  if t.size = 0 then some none
  else do
    let chain ← t.buckets[t.index key]?
    return chain.find key

def modify (t : HashTable K V) (key : K) (f : V → V) : Option (Option (V × HashTable K V)) :=
  if t.size = 0 then some none
  else do
    let chain ← t.buckets[t.index key]?
    return (chain.modify key f).map fun p =>
      (p.1, { t with buckets := t.buckets.set (t.index key) p.2 })

def remove (t : HashTable K V) (key : K) : Option (Option (V × HashTable K V)) :=
  if t.size = 0 then some none
  else do
    let chain ← t.buckets[t.index key]?
    return (chain.remove key).map fun p =>
      (p.1, { t with buckets := t.buckets.set (t.index key) p.2, used := t.used - 1 })

end HashTable

structure Dict (K V : Type) where
  table₀ : HashTable K V := .new
  table₁ : HashTable K V := .new
  rehashIdx : Option ℕ := none

namespace Dict

def new : Dict K V := {}

def isRehashing (d : Dict K V) : Bool :=
  d.rehashIdx.isSome

def len (d : Dict K V) : ℕ :=
  d.table₀.used + d.table₁.used

def iterKeys (d : Dict K V) : List K :=
  (d.table₀.buckets ++ d.table₁.buckets).flatMap fun chain => chain.map (·.key)

def expandIfNeeded (d : Dict K V) : Dict K V :=
  if d.isRehashing then d
  else if d.table₀.size = 0 then d
  else if d.table₀.used ≥ d.table₀.size * resizeRatio then
    { d with table₁ := .withSize (d.table₀.used * 2), rehashIdx := some 0 }
  else d

variable [Hashable K]

-- The loop over the buckets from `currentIdx` on.
def moveBuckets (table₀ table₁ : HashTable K V) (currentIdx entriesMoved : ℕ) :
    Option (HashTable K V × HashTable K V × ℕ) :=
  if entriesMoved < 10 ∧ currentIdx < table₀.size then do
    let chain ← table₀.buckets[currentIdx]?
    let table₁ ← chain.foldlM HashTable.push table₁
    moveBuckets
      { table₀ with
        buckets := table₀.buckets.set currentIdx [], used := table₀.used - chain.length }
      table₁ (currentIdx + 1) (entriesMoved + chain.length)
  else some (table₀, table₁, currentIdx)
termination_by table₀.size - currentIdx

def rehashStep (d : Dict K V) : Option (Dict K V) :=
  match d.rehashIdx with
  | none => some d
  | some idx => do
    let r ← moveBuckets d.table₀ d.table₁ idx 0
    if r.2.2 ≥ r.1.size then return { table₀ := r.2.1, table₁ := .new, rehashIdx := none }
    else return { table₀ := r.1, table₁ := r.2.1, rehashIdx := some r.2.2 }

variable [BEq K] (d : Dict K V) (key : K)

def get : Option (Option V) :=
  if d.table₀.size = 0 ∧ d.table₁.size = 0 then some none
  else do
    match ← d.table₀.find key with
    | some value => return some value
    | none => if d.isRehashing then d.table₁.find key else return none

def containsKey : Option Bool := do
  let value ← d.get key
  return value.isSome

-- The tables are searched one after the other, the second one only while the entries are moved.
def inTables (search : HashTable K V → Option (Option (V × HashTable K V))) :
    Option (Option (V × Dict K V)) := do
  match ← search d.table₀ with
  | some p => return some (p.1, { d with table₀ := p.2 })
  | none =>
    if d.isRehashing then
      let r ← search d.table₁
      return r.map fun p => (p.1, { d with table₁ := p.2 })
    else return none

-- The caller changes the value by `f` through the reference.
def getMut (f : V → V) : Option (Dict K V × Option V) := do
  let d ← d.rehashStep
  if d.table₀.size = 0 ∧ d.table₁.size = 0 then return (d, none)
  else
    match ← d.inTables (·.modify key f) with
    | some p => return (p.2, some p.1)
    | none => return (d, none)

-- Puts a key that is not there into the table that is filled.
def insertNew (value : V) : Option (Dict K V) :=
  if d.isRehashing then do
    let t ← d.table₁.prepare.push ⟨key, value⟩
    return { d with table₁ := t }
  else do
    let t ← d.table₀.prepare.push ⟨key, value⟩
    return { d with table₀ := t }

def insert (value : V) : Option (Dict K V × Option V) := do
  let d ← d.expandIfNeeded.rehashStep
  match ← d.inTables (·.modify key fun _ => value) with
  | some p => return (p.2, some p.1)
  | none =>
    let d ← d.insertNew key value
    return (d, none)

def remove (d : Dict K V) (key : K) : Option (Dict K V × Option V) :=
  if d.table₀.size = 0 ∧ d.table₁.size = 0 then some (d, none)
  else do
    let d ← d.rehashStep
    match ← d.inTables (·.remove key) with
    | some p => return (p.2, some p.1)
    | none => return (d, none)

end Dict

end Cache
