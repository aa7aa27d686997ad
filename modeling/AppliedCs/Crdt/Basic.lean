import Mathlib.Data.List.AList
import Mathlib.Data.Prod.Lex

namespace Crdt

-- Clients and documents are named by UUIDs, which compare as the numbers that their bytes spell.
abbrev ClientId := ℕ
abbrev DocumentId := ℕ

abbrev Timestamp := ℕ

inductive Error
  | invalidOperation (message : String)
  | invalidState (message : String)
  deriving DecidableEq, Repr

structure VectorClock where
  clocks : AList (fun _ : ClientId => Timestamp) := ∅

namespace VectorClock

variable (vc : VectorClock) (clientId : ClientId)

def get : Timestamp :=
  (vc.clocks.lookup clientId).getD 0

def set (timestamp : Timestamp) : VectorClock where
  clocks := vc.clocks.insert clientId timestamp

-- Timestamps are a `u64`.
def increment : VectorClock × Timestamp :=
  let time := (vc.get clientId + 1) % UInt64.size
  (vc.set clientId time, time)

-- The next increment does not overflow.
def HasNext : Prop :=
  vc.get clientId + 1 < UInt64.size

instance (vc : VectorClock) (clientId : ClientId) : Decidable (vc.HasNext clientId) :=
  inferInstanceAs <| Decidable (_ < _)

variable (other : VectorClock)

def merge : VectorClock :=
  other.clocks.entries.foldl (fun vc p => vc.set p.1 (max (vc.get p.1) p.2)) vc

def dominates : Bool :=
  other.clocks.entries.all fun p => ¬ vc.get p.1 < p.2

def happensBefore : Bool :=
  -- A later time ends the first loop.
  if vc.clocks.entries.any fun p => p.2 > other.get p.1 then false
  else
    vc.clocks.entries.any (fun p => p.2 < other.get p.1) ||
      other.clocks.entries.any fun p => p.1 ∉ vc.clocks ∧ p.2 > 0

def clients : List ClientId :=
  vc.clocks.keys

end VectorClock

structure PositionId where
  lamport : Timestamp
  clientId : ClientId
  seq : ℕ
  deriving DecidableEq, Repr

namespace PositionId

def root : PositionId where
  lamport := 0
  clientId := 0
  seq := 0

def cmp (a b : PositionId) : Ordering :=
  match compare a.lamport b.lamport with
  | .eq =>
    match compare a.clientId b.clientId with
    | .eq => compare a.seq b.seq
    | ord => ord
  | ord => ord

def toTriple (a : PositionId) : ℕ ×ₗ ℕ ×ₗ ℕ :=
  toLex (a.lamport, toLex (a.clientId, a.seq))

theorem toTriple_injective : Function.Injective toTriple := by
  intro a b h
  cases a
  cases b
  simpa [toTriple] using h

instance : LinearOrder PositionId :=
  LinearOrder.lift' toTriple toTriple_injective

theorem lt_iff {b : PositionId} : a < b ↔ a.lamport < b.lamport ∨ a.lamport = b.lamport ∧
    (a.clientId < b.clientId ∨ a.clientId = b.clientId ∧ a.seq < b.seq) := by
  change toTriple a < toTriple b ↔ _
  simp [toTriple, Prod.Lex.toLex_lt_toLex]

-- The comparison of the source is the one of the linear order.
theorem cmp_eq_gt_iff {b : PositionId} : a.cmp b = .gt ↔ b < a := by
  rw [lt_iff, cmp]
  obtain h | h | h := lt_trichotomy a.lamport b.lamport
  case inl => simp [compare_lt_iff_lt.mpr h, h.not_gt, h.ne']
  case inr.inr => simp [compare_gt_iff_gt.mpr h, h]
  case inr.inl =>
    obtain h' | h' | h' := lt_trichotomy a.clientId b.clientId
    case inl => simp [h, compare_lt_iff_lt.mpr h', h'.not_gt, h'.ne']
    case inr.inr => simp [h, compare_gt_iff_gt.mpr h', h']
    case inr.inl => simpa [h, h'] using compare_gt_iff_gt

end PositionId

-- A number is kept as the bits of its `f64`.
inductive AttributeValue
  | null
  | bool (value : Bool)
  | number (bits : UInt64)
  | string (value : String)
  deriving DecidableEq, Repr

abbrev Attributes := AList (fun _ : String => AttributeValue)

-- The instance of the library is stated by rewriting and does not evaluate.
instance : DecidableEq Attributes :=
  fun _ _ => decidable_of_iff _ AList.ext_iff.symm

inductive Operation
  | insert (id after : PositionId) (value : Char) (attributes : Attributes)
  | delete (id deletedBy : PositionId)
  | format (start stop : PositionId) (name : String) (value : AttributeValue)
  deriving DecidableEq

-- The value of the root, which is not part of the text.
def nul : Char :=
  Char.ofNat 0

structure Element where
  id : PositionId
  value : Char
  left : Option PositionId
  right : Option PositionId := none
  attributes : AList (fun _ : String => Timestamp × AttributeValue) := ∅
  deleted : Bool := false

def Element.visible (e : Element) : Bool :=
  !e.deleted && e.value != nul

-- Attributes as an element holds them, each with the time at which it was set.
def Attributes.stamped (attributes : Attributes) (timestamp : Timestamp) :
    AList (fun _ : String => Timestamp × AttributeValue) :=
  attributes.entries.foldl (fun m p => m.insert p.1 (timestamp, p.2)) ∅

end Crdt
