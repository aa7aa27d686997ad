import AppliedCs.Crdt.Basic
import Mathlib.Data.Finset.Filter
import Mathlib.Data.Finset.Insert

namespace Crdt

abbrev Elements := AList (fun _ : PositionId => Element)

namespace Elements

def new (root : PositionId) : Elements :=
  AList.insert root { id := root, value := nul, left := none } ∅

def update (els : Elements) (id : PositionId) (f : Element → Element) : Elements :=
  match els.lookup id with
  | some element => els.insert id (f element)
  | none => els

def right (els : Elements) (id : PositionId) : Option PositionId :=
  (els.lookup id).bind (·.right)

def left (els : Elements) (id : PositionId) : Option PositionId :=
  (els.lookup id).bind (·.left)

-- The loop of `insert_element`, which passes all elements that are not larger than `id`. Its number
-- of rounds is bounded by the number of elements.
def insertionPoint (els : Elements) (id : PositionId) : ℕ → PositionId → PositionId
  | 0,     insertAfter => insertAfter
  | n + 1, insertAfter =>
    match els.right insertAfter with
    | some right => if right.cmp id = .gt then insertAfter else els.insertionPoint id n right
    | none => insertAfter

def splice (els : Elements) (element : Element) (insertAfter : PositionId) : Elements :=
  let oldRight := els.right insertAfter
  let els₁ := els.update insertAfter ({ · with right := some element.id })
  let els₂ := match oldRight with
    | some right => els₁.update right ({ · with left := some element.id })
    | none => els₁
  els₂.insert element.id { element with left := some insertAfter, right := oldRight }

def insertElement (els : Elements) (element : Element) : Elements :=
  match element.left with
  | some left =>
    if left ∈ els then
      els.splice element (els.insertionPoint element.id els.keys.length left)
    else els
  | none => els.insert element.id element

-- The elements that are visited by following the right neighbours from `current` on.
def walk (els : Elements) : ℕ → PositionId → List Element
  | 0,     _ => []
  | n + 1, current =>
    match els.lookup current with
    | some element => element :: (element.right.map (els.walk n)).getD []
    | none => []

end Elements

structure Document where
  id : DocumentId
  elements : Elements
  tombstones : Finset PositionId
  vectorClock : VectorClock
  root : PositionId
  seqCounters : AList (fun _ : ClientId => ℕ)

namespace Document

def new (id : DocumentId) : Document where
  id := id
  elements := Elements.new .root
  tombstones := ∅
  vectorClock := {}
  root := .root
  seqCounters := ∅

variable (d : Document)

-- Sequence numbers are a `u32`.
def generatePosition (clientId : ClientId) : Document × PositionId :=
  let incremented := d.vectorClock.increment clientId
  let seq := ((d.seqCounters.lookup clientId).getD 0 + 1) % UInt32.size
  ({ d with vectorClock := incremented.1, seqCounters := d.seqCounters.insert clientId seq },
    { lamport := incremented.2, clientId, seq })

def insert (d : Document) (clientId : ClientId) (after : PositionId) (value : Char)
    (attributes : Attributes) : Document × Operation :=
  let (d, id) := d.generatePosition clientId
  let element : Element :=
    { id, value, left := some after, attributes := attributes.stamped id.lamport }
  -- The operation that is sent to the other replicas carries no attributes.
  ({ d with elements := d.elements.insertElement element }, .insert id after value ∅)

def delete (d : Document) (clientId : ClientId) (id : PositionId) :
    Except Error (Document × Operation) :=
  if id ∈ d.elements then
    let (d, deletedBy) := d.generatePosition clientId
    .ok ({ d with
      elements := d.elements.update id ({ · with deleted := true })
      tombstones := Insert.insert id d.tombstones }, .delete id deletedBy)
  else .error (.invalidOperation "Element not found")

def observe (stamp : PositionId) : Document :=
  if stamp.lamport > d.vectorClock.get stamp.clientId then
    { d with vectorClock := d.vectorClock.merge (VectorClock.set {} stamp.clientId stamp.lamport) }
  else d

def formatElement (start stop : PositionId) (name : String) (value : AttributeValue)
    (element : Element) : Element :=
  let timestamp := max start.lamport stop.lamport
  if element.id.cmp start ≠ .lt ∧ element.id.cmp stop ≠ .gt then
    let entry := (element.attributes.lookup name).getD (0, .null)
    let entry := if timestamp > entry.1 then (timestamp, value) else entry
    { element with attributes := element.attributes.insert name entry }
  else element

-- No operation fails.
def apply : Operation → Document
  | .insert id after value attributes =>
    if id ∈ d.elements then d
    else
      let element : Element :=
        { id, value, left := some after, attributes := attributes.stamped id.lamport }
      { d with elements := d.elements.insertElement element }.observe id
  | .delete id deletedBy =>
    { d with
      elements := d.elements.update id ({ · with deleted := true })
      tombstones := Insert.insert id d.tombstones }.observe deletedBy
  | .format start stop name value =>
    { d with
      elements := d.elements.keys.foldl
        (fun els id => els.update id (formatElement start stop name value)) d.elements }

def walk (d : Document) : List Element :=
  d.elements.walk d.elements.keys.length d.root

def text : String :=
  .ofList <| d.walk.filter (fun e => !e.deleted && e.value != nul) |>.map (·.value)

-- All elements from left to right, the deleted ones included.
def order : List PositionId :=
  d.walk.map (·.id)

-- The loops of `char_at` and `position_at` over the elements that are visited.
def charAtFrom (index : ℕ) : ℕ → List Element → Option Char
  | _,     [] => none
  | count, element :: es =>
    if element.visible then
      if count = index then some element.value else charAtFrom index (count + 1) es
    else charAtFrom index count es

def charAt (index : ℕ) : Option Char :=
  charAtFrom index 0 d.walk

def positionAtFrom (index : ℕ) : ℕ → PositionId → List Element → Option PositionId
  | count, current, [] => if count = index - 1 then some current else none
  | count, _,       element :: es =>
    if element.visible then
      if count + 1 = index then some element.id
      else positionAtFrom index (count + 1) (element.right.getD element.id) es
    else positionAtFrom index count (element.right.getD element.id) es

def positionAt (index : ℕ) : Option PositionId :=
  if index = 0 then some d.root else positionAtFrom index 0 d.root d.walk

def len : ℕ :=
  d.elements.entries.map (·.2) |>.countP (·.visible)

def gcTombstones (minVectorClock : VectorClock) : Document where
  __ := d
  tombstones := d.tombstones.filter fun id =>
    !minVectorClock.dominates (VectorClock.set {} id.clientId id.lamport)

end Document

structure DocumentSnapshot where
  id : DocumentId
  elements : Elements
  vectorClock : VectorClock

def Document.snapshot (d : Document) : DocumentSnapshot where
  id := d.id
  elements := d.elements
  vectorClock := d.vectorClock

def Document.fromSnapshot (snapshot : DocumentSnapshot) : Document where
  id := snapshot.id
  elements := snapshot.elements
  tombstones := ∅
  vectorClock := snapshot.vectorClock
  root := .root
  seqCounters := ∅

end Crdt
