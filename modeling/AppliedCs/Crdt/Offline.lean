import AppliedCs.Crdt.Basic
import AppliedCs.Lib.Transition

namespace Crdt

inductive ConnectionState
  | online
  | offline
  | reconnecting
  | syncing
  deriving DecidableEq

structure PendingOperation where
  id : ℕ
  docId : DocumentId
  operations : List Operation
  vectorClock : VectorClock
  attempts : ℕ := 0

structure OperationMessage where
  docId : DocumentId
  clientId : ClientId
  vectorClock : VectorClock
  operations : List Operation
  seq : ℕ

structure OfflineConfig where
  maxQueueSize : ℕ := 10000
  maxRetries : ℕ := 10

inductive OfflineEvent
  | stateChanged (state : ConnectionState)
  | operationQueued (id : ℕ)
  | operationSent (id : ℕ)
  | operationFailed (id : ℕ) (message : String)
  | syncStarted (docId : DocumentId)
  | syncCompleted (docId : DocumentId) (localOpsSynced : ℕ)
  deriving DecidableEq

-- Where a call is that waits for a lock or for the channel. A call of `queue_operation` is at
-- `enqueue` and `queued` and then continues as one of `try_send_pending`, which is at `trySend`,
-- `fetch`, `sending` and one of `sent` and `failed`. The others belong to `handle_reconnection`.
inductive Task
  | enqueue (pending : PendingOperation)
  | queued (docId : DocumentId)
  | trySend (docId : DocumentId)
  | fetch (docId : DocumentId)
  | sending (op : PendingOperation)
  | sent (op : PendingOperation)
  | failed (op : PendingOperation)
  | reconnect (docId : DocumentId)
  | drain (docId : DocumentId)
  | finish (docId : DocumentId) (localOpsSynced : ℕ)

-- The loop of `handle_reconnection`, which keeps the lock of the queues. An operation that it has
-- taken out of the queue is `inHand` until its send returns.
structure Drain where
  docId : DocumentId
  localOpsSynced : ℕ := 0
  inHand : Option PendingOperation := none

structure OfflineManager where
  clientId : ClientId
  state : ConnectionState := .offline
  queues : DocumentId → List PendingOperation := fun _ => []
  nextOpId : ℕ := 1
  -- Whether there is a `message_tx`.
  hasSender : Bool := false
  lock : Option Drain := none
  tasks : List Task := []
  -- What the channel has accepted, and all sends that it has refused.
  channel : List OperationMessage := []
  refused : List ℕ := []
  events : List OfflineEvent := []
  accepted : List PendingOperation := []
  rejected : List Error := []

inductive OfflineStep
  | queueOperation (docId : DocumentId) (operations : List Operation) (vectorClock : VectorClock)
  | trySendPending (docId : DocumentId)
  | handleReconnection (docId : DocumentId)
  | setState (state : ConnectionState)
  -- A call goes on, and `isOk` is the result of the send if it makes one.
  | run (task : ℕ) (isOk : Bool)
  | drain (isOk : Bool)

namespace OfflineManager

variable (m : OfflineManager)

def setState (newState : ConnectionState) : OfflineManager :=
  if m.state ≠ newState then
    { m with state := newState, events := m.events ++ [.stateChanged newState] }
  else m

def spawn (task : Task) : OfflineManager :=
  { m with tasks := m.tasks ++ [task] }

variable (docId : DocumentId)

def setQueue (queue : List PendingOperation) : OfflineManager :=
  { m with queues := Function.update m.queues docId queue }

def emit (event : OfflineEvent) : OfflineManager :=
  { m with events := m.events ++ [event] }

def send (op : PendingOperation) : OfflineManager :=
  { m with channel := m.channel ++ [{
      docId := op.docId
      clientId := m.clientId
      vectorClock := op.vectorClock
      operations := op.operations
      seq := op.id }] }

def refuse (op : PendingOperation) : OfflineManager :=
  { m with refused := m.refused ++ [op.id] }

def popFront : OfflineManager :=
  m.setQueue docId (m.queues docId).tail

variable (config : OfflineConfig)

def enqueue (m : OfflineManager) (pending : PendingOperation) : OfflineManager × Option Task :=
  if (m.queues pending.docId).length ≥ config.maxQueueSize then
    ({ m with rejected := m.rejected ++ [.invalidState "Operation queue is full"] }, none)
  else
    ({ m.setQueue pending.docId (m.queues pending.docId ++ [pending]) with
      accepted := m.accepted ++ [pending] }.emit (.operationQueued pending.id),
      some (.queued pending.docId))

-- The counter is changed on a copy of the operation.
def fetch : Option Task :=
  (m.queues docId).head?.map fun op => .sending { op with attempts := op.attempts + 1 }

def trySend (m : OfflineManager) (op : PendingOperation) (isOk : Bool) :
    OfflineManager × Option Task :=
  if isOk then (m.send op, some (.sent op))
  else (m.refuse op, if op.attempts ≥ config.maxRetries then some (.failed op) else none)

-- The next step of a call and where it is then. A call that needs the lock of the queues waits as
-- long as someone else has it.
def runTask (m : OfflineManager) (isOk : Bool) : Task → Option (OfflineManager × Option Task)
  | .enqueue pending => if m.lock.isSome then none else some (m.enqueue config pending)
  | .queued docId => some (m, if m.state = .online then some (.trySend docId) else none)
  | .trySend docId =>
    some (m, if m.state = .online ∧ m.hasSender then some (.fetch docId) else none)
  | .fetch docId => if m.lock.isSome then none else some (m, m.fetch docId)
  | .sending op => some (m.trySend config op isOk)
  | .sent op =>
    if m.lock.isSome then none
    else some ((m.popFront op.docId).emit (.operationSent op.id), none)
  | .failed op =>
    if m.lock.isSome then none
    else some ((m.popFront op.docId).emit (.operationFailed op.id "Max retries exceeded"), none)
  -- The answer to the sync request is empty, so there are no conflicts.
  | .reconnect docId =>
    some ((m.setState .syncing).emit (.syncStarted docId), some (.drain docId))
  | .drain docId =>
    if m.lock.isSome then none else some ({ m with lock := some { docId } }, none)
  | .finish docId localOpsSynced =>
    some ((m.setState .online).emit (.syncCompleted docId localOpsSynced), none)

def runDrain (isOk : Bool) (d : Drain) : OfflineManager :=
  match d.inHand with
  | some op =>
    if isOk then
      { m.send op with
        lock := some { d with localOpsSynced := d.localOpsSynced + 1, inHand := none } }
    else { m.refuse op with lock := some { d with inHand := none } }
  | none =>
    match m.queues d.docId with
    | [] => { m with lock := none }.spawn (.finish d.docId d.localOpsSynced)
    | op :: rest =>
      if m.hasSender then { m.setQueue d.docId rest with lock := some { d with inHand := some op } }
      else m.setQueue d.docId rest

def step (m : OfflineManager) : OfflineStep → Option OfflineManager
  | .queueOperation docId operations vectorClock =>
    some <| { m with nextOpId := m.nextOpId + 1 }.spawn
      (.enqueue { id := m.nextOpId, docId, operations, vectorClock })
  | .trySendPending docId => some (m.spawn (.trySend docId))
  | .handleReconnection docId => some (m.spawn (.reconnect docId))
  | .setState state => some (m.setState state)
  | .run i isOk => do
    let task ← m.tasks[i]?
    let r ← m.runTask config isOk task
    -- The call goes on from the task that it has reached, or it is over.
    some { r.1 with tasks := r.1.tasks.eraseIdx i ++ r.2.toList }
  | .drain isOk => m.lock.map (m.runDrain isOk)

end OfflineManager

end Crdt
