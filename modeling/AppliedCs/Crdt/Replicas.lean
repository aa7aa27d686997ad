import AppliedCs.Crdt.Document
import AppliedCs.Lib.Transition

namespace Crdt

abbrev ReplicaId := ℕ

-- The replicas of a document, what each of them has applied, and all operations generated so far.
structure Network where
  replicas : ReplicaId → Document
  histories : ReplicaId → List Operation
  operations : List Operation

inductive Event
  | insert (clientId : ClientId) (after : PositionId) (value : Char) (attributes : Attributes)
  | delete (clientId : ClientId) (id : PositionId)
  | deliver (replica : ReplicaId) (op : Operation)

namespace Network

def init (id : DocumentId) : Network where
  replicas _ := .new id
  histories _ := []
  operations := []

def record (n : Network) (replica : ReplicaId) (d : Document) (op : Operation) : Network where
  replicas := Function.update n.replicas replica d
  histories := Function.update n.histories replica (n.histories replica ++ [op])
  operations := n.operations

def generate (n : Network) (replica : ReplicaId) (d : Document) (op : Operation) : Network :=
  { n.record replica d op with operations := n.operations ++ [op] }

-- Each client edits one replica, its `home`. Operations are delivered in any order, any number of
-- times or never. As a client's time counts its own operations (`Inv.stamp_le`), its `u64` lasts
-- for all of them.
def step (home : ClientId → ReplicaId) (n : Network) : Event → Option Network
  | .insert clientId after value attributes =>
    if (n.replicas (home clientId)).vectorClock.HasNext clientId then
      let r := (n.replicas (home clientId)).insert clientId after value attributes
      some <| n.generate (home clientId) r.1 r.2
    else none
  | .delete clientId id =>
    if (n.replicas (home clientId)).vectorClock.HasNext clientId then
      match (n.replicas (home clientId)).delete clientId id with
      | .ok (d, op) => some <| n.generate (home clientId) d op
      | .error _ => none
    else none
  | .deliver replica op =>
    if op ∈ n.operations then some <| n.record replica ((n.replicas replica).apply op) op
    else none

end Network

namespace Operation

def inserted : Operation → Option PositionId
  | .insert id _ _ _ => some id
  | .delete _ _ => none
  | .format .. => none

-- The element that has to be there when the operation is applied.
def reference : Operation → Option PositionId
  | .insert _ after _ _ => some after
  | .delete id _ => some id
  | .format .. => none

end Operation

-- Every operation comes after the insertion of the element that it refers to, where `before` was
-- delivered already.
def CausalAfter (before : List Operation) : List Operation → Prop
  | [] => True
  | op :: ops =>
    (∀ id ∈ op.reference, id = .root ∨ ∃ p ∈ before, p.inserted = some id) ∧
    CausalAfter (before ++ [op]) ops

instance CausalAfter.decidable : ∀ before ops, Decidable (CausalAfter before ops)
  | _,      [] => .isTrue trivial
  | before, op :: ops =>
    have := CausalAfter.decidable (before ++ [op]) ops
    inferInstanceAs <| Decidable (_ ∧ _)

abbrev Causal (ops : List Operation) : Prop :=
  CausalAfter [] ops

def Document.deliver (id : DocumentId) (ops : List Operation) : Document :=
  ops.foldl apply (.new id)

end Crdt
