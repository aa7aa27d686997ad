import AppliedCs.Lib.Records
import AppliedCs.Lib.SortedList
import AppliedCs.Raft.Storage

namespace Raft

open Codec

namespace Command

def encode : Command → Bytes
  | .put key value => encodeLE 4 0 ++ (encodeBytes key ++ encodeBytes value)
  | .delete key => encodeLE 4 1 ++ encodeBytes key
  | .get key => encodeLE 4 2 ++ encodeBytes key
  | .noOp => encodeLE 4 3

def decode : Decoder Command :=
  fun bs => (decodeLE 4 bs).bind fun (variant, rest) =>
    match variant with
    | 0 => (decodePair decodeBytes decodeBytes rest).map fun ((key, value), rest) =>
      (.put key value, rest)
    | 1 => (decodeBytes rest).map fun (key, rest) => (.delete key, rest)
    | 2 => (decodeBytes rest).map fun (key, rest) => (.get key, rest)
    | 3 => some (.noOp, rest)
    | _ => none

end Command

namespace EntryType

def encode : EntryType → Bytes
  | .command => encodeLE 4 0
  | .configuration => encodeLE 4 1
  | .noOp => encodeLE 4 2

def decode : Decoder EntryType :=
  fun bs => (decodeLE 4 bs).bind fun (variant, rest) =>
    match variant with
    | 0 => some (.command, rest)
    | 1 => some (.configuration, rest)
    | 2 => some (.noOp, rest)
    | _ => none

end EntryType

namespace LogEntry

def encode (e : LogEntry) : Bytes :=
  encodeLE 8 e.term ++ (encodeLE 8 e.index ++ (e.command.encode ++ e.entryType.encode))

def decode : Decoder LogEntry :=
  fun bs =>
    (decodePair (decodeLE 8) (decodePair (decodeLE 8) (decodePair Command.decode EntryType.decode))
      bs).map fun ((term, index, command, entryType), rest) =>
        (⟨term, index, command, entryType⟩, rest)

end LogEntry

-- The segment files by the base index in their names. The names are padded with zeros, so that
-- their order is the order of the indices.
abbrev Directory := AList (fun _ : ℕ => Bytes)

def Directory.file (dir : Directory) (base : ℕ) : Bytes :=
  (dir.lookup base).getD []

-- The position index and the segment sizes, which nothing reads, are left out here (see
-- `IndexedLog` for the index).
structure WriteAheadLog where
  dir : Directory := ∅
  currentSegment : Option ℕ := none
  entries : List LogEntry := []

namespace WriteAheadLog

section

-- The checksum of a record's data, as the crate computes it.
variable (crc : Bytes → UInt32)

-- Length, checksum and data. The length is cut to 32 bits.
def record (e : LogEntry) : Bytes :=
  let data := e.encode
  encodeLE 4 data.length ++ (encodeLE 4 (crc data).toNat ++ data)

-- One round of the loop over a segment. Reading stops where the rest is too short for a header or
-- for the announced data, and where the checksum is wrong.
def readRecord : Decoder (Except Error LogEntry) :=
  fun bs => (decodePair (decodeLE 4) (decodeLE 4) bs).bind fun ((length, storedCrc), rest) =>
    (takeBytes length rest).bind fun (data, rest) =>
      if (crc data).toNat = storedCrc then
        match LogEntry.decode data with
        | none => some (.error .serialization, rest)
        | some (entry, _) => some (.ok entry, rest)
      else
        none

-- A round takes at least the eight bytes of the header.
def readSegment (buffer : Bytes) : Except Error (List LogEntry) :=
  readRecords (readRecord crc) buffer.length buffer

def bases (dir : Directory) : List ℕ :=
  dir.keys.insertionSort (· ≤ ·)

def recover (dir : Directory) : Except Error (List LogEntry) :=
  ((bases dir).mapM fun base => readSegment crc (dir.file base)).map List.flatten

def new (dir : Directory) : Except Error WriteAheadLog :=
  (recover crc dir).map fun entries => { dir, entries }

end

variable (w : WriteAheadLog)

def nextBase : ℕ :=
  match w.entries.getLast? with
  | some e => (e.index + 1) % u64Size
  | none => 1

-- The bytes are added at the end of the file, which is created if it does not exist.
def writeAll (base : ℕ) (bytes : Bytes) : WriteAheadLog :=
  { w with dir := w.dir.insert base (w.dir.file base ++ bytes) }

def createNewSegment : WriteAheadLog :=
  { w.writeAll w.nextBase [] with currentSegment := some w.nextBase }

-- The segment that the next append goes to.
def segment : ℕ :=
  w.currentSegment.getD w.nextBase

def ensureSegment : WriteAheadLog :=
  if w.currentSegment.isNone then w.createNewSegment else w

def append (crc : Bytes → UInt32) (w : WriteAheadLog) (entries : List LogEntry) : WriteAheadLog :=
  let w' := w.ensureSegment.writeAll w.segment (entries.flatMap (record crc))
  { w' with entries := w.entries ++ entries }

-- The files that are left when an append is cut off after `cut` bytes of its records.
def crash (crc : Bytes → UInt32) (w : WriteAheadLog) (entries : List LogEntry) (cut : ℕ) :
    Directory :=
  (w.ensureSegment.writeAll w.segment ((entries.flatMap (record crc)).take cut)).dir

def truncateSuffix (fromIndex : ℕ) : WriteAheadLog :=
  { w with entries := w.entries.filter (·.index < fromIndex) }

def compact (upTo : ℕ) : WriteAheadLog :=
  { w with entries := w.entries.filter (upTo < ·.index) }

end WriteAheadLog

structure LogPosition where
  segmentId : ℕ
  offset : ℕ
  length : ℕ
  deriving DecidableEq

-- The log together with its position index and the offset in the current segment.
structure IndexedLog extends WriteAheadLog where
  index : SortedMap ℕ LogPosition := ∅
  byteOffset : ℕ := 0

namespace IndexedLog

-- Reading the segments leaves the index empty.
def new (crc : Bytes → UInt32) (dir : Directory) : Except Error IndexedLog :=
  (WriteAheadLog.new crc dir).map fun log => { toWriteAheadLog := log }

-- What one round of the loop in `append` does to the index and to the offset.
def indexEntry (segmentId : ℕ) (p : SortedMap ℕ LogPosition × ℕ) (entry : LogEntry) :
    SortedMap ℕ LogPosition × ℕ :=
  let length := entry.encode.length
  (p.1.insert entry.index { segmentId, offset := p.2, length := length % UInt32.size },
    p.2 + (8 + length))

-- A new segment counts its bytes from zero, also if its file exists already.
def append (crc : Bytes → UInt32) (w : IndexedLog) (entries : List LogEntry) : IndexedLog :=
  let byteOffset := if w.currentSegment.isNone then 0 else w.byteOffset
  let p := entries.foldl (indexEntry w.segment) (w.index, byteOffset)
  { toWriteAheadLog := w.toWriteAheadLog.append crc entries, index := p.1, byteOffset := p.2 }

-- What is split off, and kept, is the part from the key on.
def truncateSuffix (w : IndexedLog) (fromIndex : ℕ) : IndexedLog :=
  { w with
    toWriteAheadLog := w.toWriteAheadLog.truncateSuffix fromIndex
    index := w.index.filter (fromIndex ≤ ·) }

def compact (w : IndexedLog) (upTo : ℕ) : IndexedLog :=
  { w with
    toWriteAheadLog := w.toWriteAheadLog.compact upTo
    index := w.index.filter (¬ · ≤ upTo) }

end IndexedLog

end Raft
