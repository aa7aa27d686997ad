import AppliedCs.Crdt.Document

namespace Crdt

-- One round of the loop: clients whose minimum is zero drop out.
def minimumWith (result clock : VectorClock) : VectorClock :=
  result.clients.foldl (fun minClock clientId =>
    let minTime := min (result.get clientId) (clock.get clientId)
    if minTime > 0 then minClock.set clientId minTime else minClock) {}

def computeMinimumClock : List VectorClock → VectorClock
  | [] => {}
  | clock :: clocks => clocks.foldl minimumWith clock

structure GCConfig where
  minTombstoneAgeMs : ℕ := 60 * 60 * 1000

structure GCStats where
  tombstonesCollected : ℕ := 0
  gcRuns : ℕ := 0

structure TombstoneGC where
  config : GCConfig := {}
  opsSinceGc : AList (fun _ : DocumentId => ℕ) := ∅
  stats : GCStats := {}

namespace TombstoneGC

variable (gc : TombstoneGC)

-- The positions that can be removed. The clocks decide for all tombstones at once.
def toRemove (tombstones : List (PositionId × ℕ)) (docClock : VectorClock)
    (allClocks : List VectorClock) (now : ℕ) : List PositionId :=
  let minClock := computeMinimumClock allClocks
  (tombstones.filter fun p =>
    ¬ now - p.2 < gc.config.minTombstoneAgeMs ∧ minClock.dominates docClock).map (·.1)

def collectTombstones (docId : DocumentId) (tombstones : List (PositionId × ℕ))
    (docClock : VectorClock) (allClocks : List VectorClock) (now : ℕ) :
    TombstoneGC × List PositionId :=
  let toRemove := gc.toRemove tombstones docClock allClocks now
  if toRemove.isEmpty then (gc, toRemove)
  else
    ({ gc with
      stats := {
        tombstonesCollected := (gc.stats.tombstonesCollected + toRemove.length) % UInt64.size
        gcRuns := (gc.stats.gcRuns + 1) % UInt64.size }
      opsSinceGc := gc.opsSinceGc.insert docId 0 }, toRemove)

end TombstoneGC

structure Version where
  id : ℕ
  docId : DocumentId
  versionNumber : ℕ
  createdAt : ℕ
  createdBy : ClientId
  label : Option String
  vectorClock : VectorClock
  sequenceNumber : ℕ
  snapshot : Option DocumentSnapshot

-- What the caller of `create_version` provides, with the identifier that is drawn and the time.
structure VersionRequest where
  docId : DocumentId
  label : Option String := none
  createdBy : ClientId := 0
  vectorClock : VectorClock := {}
  sequenceNumber : ℕ := 0
  snapshot : Option DocumentSnapshot := none
  id : ℕ
  now : ℕ

structure VersionComparison where
  fromVersion : ℕ
  toVersion : ℕ
  fromTimestamp : ℕ
  toTimestamp : ℕ
  fromSeq : ℕ
  toSeq : ℕ
  operationsBetween : ℕ
  deriving DecidableEq

structure VersionHistory where
  versions : AList (fun _ : DocumentId => List Version) := ∅
  autoVersionInterval : ℕ
  opsSinceVersion : AList (fun _ : DocumentId => ℕ) := ∅
  maxVersions : ℕ

namespace VersionHistory

def new (autoVersionInterval maxVersions : ℕ) : VersionHistory :=
  { autoVersionInterval, maxVersions }

variable (h : VersionHistory) (docId : DocumentId)

def getVersions : List Version :=
  (h.versions.lookup docId).getD []

-- The loop that removes the second version while there are too many, for at most so many rounds.
def prune (maxVersions : ℕ) : ℕ → List Version → List Version
  | 0,          docVersions => docVersions
  | rounds + 1, docVersions =>
    if docVersions.length > maxVersions then
      if docVersions.length > 2 then prune maxVersions rounds (docVersions.eraseIdx 1)
      else docVersions
    else docVersions

-- Versions are numbered by how many the document has.
def nextVersion (req : VersionRequest) : Version where
  id := req.id
  docId := req.docId
  versionNumber := (h.getVersions req.docId).length + 1
  createdAt := req.now
  createdBy := req.createdBy
  label := req.label
  vectorClock := req.vectorClock
  sequenceNumber := req.sequenceNumber
  snapshot := req.snapshot

def createVersion (req : VersionRequest) : VersionHistory × Version :=
  let version := h.nextVersion req
  let docVersions := h.getVersions req.docId ++ [version]
  ({ h with
    versions := h.versions.insert req.docId (prune h.maxVersions docVersions.length docVersions)
    opsSinceVersion := h.opsSinceVersion.insert req.docId 0 }, version)

def getVersion (versionNumber : ℕ) : Option Version :=
  (h.getVersions docId).find? (·.versionNumber == versionNumber)

def compareVersions (version₁ version₂ : ℕ) : Option VersionComparison := do
  let v₁ ← h.getVersion docId version₁
  let v₂ ← h.getVersion docId version₂
  return {
    fromVersion := version₁
    toVersion := version₂
    fromTimestamp := v₁.createdAt
    toTimestamp := v₂.createdAt
    fromSeq := v₁.sequenceNumber
    toSeq := v₂.sequenceNumber
    operationsBetween := v₂.sequenceNumber - v₁.sequenceNumber }

def deleteVersion (versionNumber : ℕ) : VersionHistory × Bool :=
  match h.versions.lookup docId with
  | none => (h, false)
  | some docVersions =>
    let kept := docVersions.filter (·.versionNumber != versionNumber)
    ({ h with versions := h.versions.insert docId kept }, kept.length < docVersions.length)

end VersionHistory

end Crdt
