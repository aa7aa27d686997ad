import AppliedCs.Crdt.Document
import AppliedCs.Lib.Transition

namespace Crdt

-- The calls by which a document changes. The operations that are applied come from anywhere.
inductive Call
  | insert (clientId : ClientId) (after : PositionId) (value : Char) (attributes : Attributes)
  | delete (clientId : ClientId) (id : PositionId)
  | apply (op : Operation)
  | gcTombstones (minVectorClock : VectorClock)
  | restore

namespace Document

def call (d : Document) : Call → Document
  | .insert clientId after value attributes => (d.insert clientId after value attributes).1
  | .delete clientId id =>
    match d.delete clientId id with
    | .ok (d', _) => d'
    | .error _ => d
  | .apply op => d.apply op
  | .gcTombstones minVectorClock => d.gcTombstones minVectorClock
  | .restore => .fromSnapshot d.snapshot

def step (d : Document) (c : Call) : Option Document :=
  some (d.call c)

-- The call generates no position that overflows the client's time.
def InTime (d : Document) : Call → Prop
  | .insert clientId _ _ _ => d.vectorClock.HasNext clientId
  | .delete clientId id => id ∈ d.elements → d.vectorClock.HasNext clientId
  | _ => True

instance (d : Document) : ∀ c, Decidable (d.InTime c)
  | .insert clientId _ _ _ => inferInstanceAs <| Decidable (d.vectorClock.HasNext clientId)
  | .delete _ _ => inferInstanceAs <| Decidable (_ → _)
  | .apply _ | .gcTombstones _ | .restore => .isTrue trivial

end Document

end Crdt
