import AppliedCs.Crdt.Basic
import AppliedCs.Lib.Gossip
import Mathlib.Algebra.BigOperators.Group.Finset.Basic
import Mathlib.Algebra.GroupWithZero.Nat
import Mathlib.Data.Fintype.Basic

namespace Crdt

-- Counts are a `u64`.
structure GCounter where
  counts : AList (fun _ : ClientId => ℕ) := ∅

namespace GCounter

variable (g : GCounter)

def get (clientId : ClientId) : ℕ :=
  (g.counts.lookup clientId).getD 0

def increment (clientId : ClientId) (amount : ℕ) : GCounter where
  counts := g.counts.insert clientId ((g.get clientId + amount) % UInt64.size)

def value : ℕ :=
  (g.counts.entries.map (·.2)).sum % UInt64.size

def merge (other : GCounter) : GCounter where
  counts := other.counts.entries.foldl
    (fun counts p => counts.insert p.1 (max ((counts.lookup p.1).getD 0) p.2)) g.counts

end GCounter

-- The first number that is not an `i64`.
def i64Bound : ℕ :=
  9223372036854775808

structure PNCounter where
  positive : GCounter := {}
  negative : GCounter := {}

namespace PNCounter

def increment (p : PNCounter) (clientId : ClientId) (amount : ℕ) : PNCounter :=
  { p with positive := p.positive.increment clientId amount }

def decrement (p : PNCounter) (clientId : ClientId) (amount : ℕ) : PNCounter :=
  { p with negative := p.negative.increment clientId amount }

-- The sums are cast to an `i64` before they are subtracted.
def value (p : PNCounter) : ℤ :=
  Int.bmod (Int.bmod p.positive.value UInt64.size - Int.bmod p.negative.value UInt64.size)
    UInt64.size

def merge (p other : PNCounter) : PNCounter where
  positive := p.positive.merge other.positive
  negative := p.negative.merge other.negative

end PNCounter

inductive CounterUpdate
  | increment (clientId : ClientId) (amount : ℕ)
  | decrement (clientId : ClientId) (amount : ℕ)
  deriving DecidableEq

namespace CounterUpdate

def clientId : CounterUpdate → ClientId
  | .increment clientId _ => clientId
  | .decrement clientId _ => clientId

def added : CounterUpdate → ℕ
  | .increment _ amount => amount
  | .decrement _ _ => 0

def removed : CounterUpdate → ℕ
  | .increment _ _ => 0
  | .decrement _ amount => amount

def apply : CounterUpdate → PNCounter → PNCounter
  | .increment clientId amount, p => p.increment clientId amount
  | .decrement clientId amount, p => p.decrement clientId amount

end CounterUpdate

-- Counters whose replicas exchange their states. Each client updates its own replica.
abbrev CounterNetwork (n : ℕ) :=
  Gossip.Network (Fin n) PNCounter CounterUpdate

def CounterNetwork.step {n : ℕ} (c : CounterNetwork n) :
    Gossip.Event (Fin n) CounterUpdate → Option (CounterNetwork n) :=
  Gossip.Network.step CounterUpdate.apply PNCounter.merge c

def CounterNetwork.init (n : ℕ) : CounterNetwork n :=
  Gossip.Network.init {}

def CounterNetwork.Local {n : ℕ} (home : ClientId → Fin n) (c : CounterNetwork n)
    (e : Gossip.Event (Fin n) CounterUpdate) : Prop :=
  Gossip.Allowed (fun i u => home u.clientId = i) c e

instance {n : ℕ} (home : ClientId → Fin n) (c : CounterNetwork n)
    (e : Gossip.Event (Fin n) CounterUpdate) : Decidable (CounterNetwork.Local home c e) :=
  inferInstanceAs <| Decidable (Gossip.Allowed ..)

-- The sum of one kind of amount over all updates.
def total {n : ℕ} (amount : CounterUpdate → ℕ) (histories : Fin n → List CounterUpdate) : ℕ :=
  ∑ i, ((histories i).map amount).sum

end Crdt
