import AppliedCs.Raft.Basic

namespace Raft

open Codec

structure MemoryStorage where
  entries : List LogEntry := []
  deriving DecidableEq

def MemoryStorage.compact (s : MemoryStorage) (upTo : ℕ) : MemoryStorage :=
  { s with entries := s.entries.filter (upTo < ·.index) }

inductive ApplyResult
  | success
  | value (v : Option Bytes)
  | failed (message : String)
  deriving DecidableEq, Repr

-- A hash map from keys to values. The order of the entries stands for the iteration order of the
-- source's map, which is unspecified but fixed as long as the map does not change.
abbrev KeyValues := AList (fun _ : Bytes => Bytes)

structure Snapshot where
  lastIncludedIndex : ℕ
  lastIncludedTerm : ℕ
  data : Bytes
  deriving DecidableEq, Repr

namespace Snapshot

def encode (s : Snapshot) : Bytes :=
  encodeLE 8 s.lastIncludedIndex ++ (encodeLE 8 s.lastIncludedTerm ++ encodeBytes s.data)

def decode : Decoder Snapshot :=
  fun bs => (decodePair (decodeLE 8) (decodePair (decodeLE 8) decodeBytes) bs).map
    fun ((index, term, data), rest) => (⟨index, term, data⟩, rest)

end Snapshot

namespace KeyValues

def encodePair (p : Sigma fun _ : Bytes => Bytes) : Bytes :=
  encodeBytes p.1 ++ encodeBytes p.2

def encode (m : KeyValues) : Bytes :=
  encodeSeq encodePair m.entries

-- Pairs are inserted in the order in which they are read, so of two pairs with one key the
-- later one stays.
def decode : Decoder KeyValues :=
  fun bs => (decodeSeq (decodePair decodeBytes decodeBytes) bs).map
    fun (ps, rest) => (ps.foldl (fun m p => m.insert p.1 p.2) ∅, rest)

end KeyValues

structure KeyValueFSM where
  data : KeyValues := ∅
  lastAppliedIndex : ℕ := 0
  lastAppliedTerm : ℕ := 0
  deriving DecidableEq

namespace KeyValueFSM

variable (fsm : KeyValueFSM)

def apply (entry : LogEntry) : KeyValueFSM × ApplyResult :=
  let fsm := { fsm with lastAppliedIndex := entry.index, lastAppliedTerm := entry.term }
  match entry.command with
  | .put key value => ({ fsm with data := fsm.data.insert key value }, .success)
  | .delete key => ({ fsm with data := fsm.data.erase key }, .success)
  | .get key => (fsm, .value <| fsm.data.lookup key)
  | .noOp => (fsm, .success)

def get (key : Bytes) : Option Bytes :=
  fsm.data.lookup key

def snapshot : Snapshot where
  lastIncludedIndex := fsm.lastAppliedIndex
  lastIncludedTerm := fsm.lastAppliedTerm
  data := fsm.data.encode

-- Bytes after the decoded map are ignored.
def restore (_ : KeyValueFSM) (snapshot : Snapshot) : Except Error KeyValueFSM :=
  match KeyValues.decode snapshot.data with
  | none => .error .serialization
  | some (data, _) => .ok ⟨data, snapshot.lastIncludedIndex, snapshot.lastIncludedTerm⟩

end KeyValueFSM

-- The store's directory: the file `snapshot.tmp`, when it exists, and the `.snap` files by the
-- index in their names. Operations on the file system succeed.
structure SnapshotStore where
  tmp : Option Bytes := none
  snaps : AList (fun _ : ℕ => Bytes) := ∅
  current : Option Snapshot := none
  deriving DecidableEq

namespace SnapshotStore

variable (store : SnapshotStore)

def save (snapshot : Snapshot) : SnapshotStore :=
  { store with
    snaps := store.snaps.insert snapshot.lastIncludedIndex snapshot.encode
    current := some snapshot }

-- The contents of a file after seeking to `offset` and writing `data`. Seeking past the end leaves
-- a gap of zeros, but only once something is written there.
def writeAt (file : Bytes) (offset : ℕ) (data : Bytes) : Bytes :=
  if data = [] then
    file
  else
    (file ++ .replicate (offset - file.length) 0).take offset ++ data ++
      file.drop (offset + data.length)

def writeChunk (offset : ℕ) (data : Bytes) : SnapshotStore :=
  { store with tmp := some <| writeAt (store.tmp.getD []) offset data }

def finalize : Except Error (SnapshotStore × Snapshot) :=
  match store.tmp with
  | none => .error <| .storage "No such file or directory (os error 2)"
  | some file =>
    match Snapshot.decode file with
    | none => .error .serialization
    | some (snapshot, _) =>
      .ok ({ tmp := none
             snaps := store.snaps.insert snapshot.lastIncludedIndex file
             current := some snapshot }, snapshot)

end SnapshotStore

end Raft
