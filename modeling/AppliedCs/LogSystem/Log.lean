import AppliedCs.Lib.Format
import AppliedCs.Lib.SortedList

namespace LogSystem

open Codec

-- What comes from other crates: the checksum, and the binary search of the standard library, which
-- is determined only where all elements that pass the test come first.
class Platform where
  crc32 : Bytes → UInt32
  partitionPoint : List Bool → ℕ
  partitionPoint_cut : ∀ n m, partitionPoint (List.replicate n true ++ List.replicate m false) = n

inductive Error
  | io
  | serialization
  | invalidOffset (offset : ℕ)
  | internal (text : String)
  | notLeader
  | partitionNotFound (partition : UInt32)
  deriving DecidableEq

structure TopicPartition where
  topic : String
  partition : UInt32
  deriving DecidableEq

structure Header where
  key : String
  value : Bytes
  deriving DecidableEq

structure Record where
  attributes : UInt8
  timestampDelta : Int64
  offsetDelta : UInt32
  key : Option Bytes
  value : Option Bytes
  headers : List Header
  deriving DecidableEq

-- Offsets are 64 bits wide in the source.
structure RecordBatch where
  baseOffset : ℕ
  batchLength : UInt32
  partitionLeaderEpoch : UInt32
  magic : UInt8
  crc : UInt32
  attributes : UInt16
  lastOffsetDelta : UInt32
  baseTimestamp : Int64
  maxTimestamp : Int64
  producerId : Int64
  producerEpoch : Int16
  baseSequence : UInt32
  records : List Record
  deriving DecidableEq

def encodeInt16 (x : Int16) : Bytes :=
  encodeLE 2 x.toUInt16.toNat

def decodeInt16 : Decoder Int16 :=
  (decodeLE 2).map fun n => (UInt16.ofNat n).toInt16

def encodeInt64 (x : Int64) : Bytes :=
  encodeLE 8 x.toUInt64.toNat

def decodeInt64 : Decoder Int64 :=
  (decodeLE 8).map fun n => (UInt64.ofNat n).toInt64

namespace Header

def serialize (h : Header) : Bytes :=
  encodeText h.key ++ encodeBytes h.value

def ofFields : String × Bytes → Header
  | (key, value) => { key, value }

def deserialize : Decoder Header :=
  (decodePair decodeText decodeBytes).map ofFields

end Header

namespace Record

def serialize (r : Record) : Bytes :=
  encodeLE 1 r.attributes.toNat ++ (encodeInt64 r.timestampDelta ++
    (encodeLE 4 r.offsetDelta.toNat ++ (encodeOption encodeBytes r.key ++
      (encodeOption encodeBytes r.value ++ encodeSeq Header.serialize r.headers))))

def ofFields : UInt8 × Int64 × UInt32 × Option Bytes × Option Bytes × List Header → Record
  | (attributes, timestampDelta, offsetDelta, key, value, headers) =>
    { attributes, timestampDelta, offsetDelta, key, value, headers }

def deserialize : Decoder Record :=
  (decodePair ((decodeLE 1).map UInt8.ofNat) (decodePair decodeInt64
    (decodePair ((decodeLE 4).map UInt32.ofNat) (decodePair (decodeOption decodeBytes)
      (decodePair (decodeOption decodeBytes) (decodeSeq Header.deserialize)))))).map ofFields

end Record

namespace RecordBatch

def new (now : Int64) (baseOffset : ℕ) (records : List Record) : RecordBatch where
  baseOffset := baseOffset
  batchLength := 0
  partitionLeaderEpoch := 0
  magic := 2
  crc := 0
  attributes := 0
  lastOffsetDelta := if records.isEmpty then 0 else UInt32.ofNat records.length - 1
  baseTimestamp := now
  maxTimestamp := now
  producerId := -1
  producerEpoch := -1
  baseSequence := 0
  records := records

def lastOffset (b : RecordBatch) : ℕ :=
  b.baseOffset + b.lastOffsetDelta.toNat

def serialize (b : RecordBatch) : Bytes :=
  encodeLE 8 b.baseOffset ++ (encodeLE 4 b.batchLength.toNat ++
    (encodeLE 4 b.partitionLeaderEpoch.toNat ++ (encodeLE 1 b.magic.toNat ++
      (encodeLE 4 b.crc.toNat ++ (encodeLE 2 b.attributes.toNat ++
        (encodeLE 4 b.lastOffsetDelta.toNat ++ (encodeInt64 b.baseTimestamp ++
          (encodeInt64 b.maxTimestamp ++ (encodeInt64 b.producerId ++
            (encodeInt16 b.producerEpoch ++ (encodeLE 4 b.baseSequence.toNat ++
              encodeSeq Record.serialize b.records)))))))))))

def ofFields : ℕ × UInt32 × UInt32 × UInt8 × UInt32 × UInt16 × UInt32 × Int64 × Int64 × Int64 ×
    Int16 × UInt32 × List Record → RecordBatch
  | (baseOffset, batchLength, partitionLeaderEpoch, magic, crc, attributes, lastOffsetDelta,
      baseTimestamp, maxTimestamp, producerId, producerEpoch, baseSequence, records) =>
    { baseOffset, batchLength, partitionLeaderEpoch, magic, crc, attributes, lastOffsetDelta,
      baseTimestamp, maxTimestamp, producerId, producerEpoch, baseSequence, records }

def decode : Decoder RecordBatch :=
  (decodePair (decodeLE 8) (decodePair ((decodeLE 4).map UInt32.ofNat)
    (decodePair ((decodeLE 4).map UInt32.ofNat) (decodePair ((decodeLE 1).map UInt8.ofNat)
      (decodePair ((decodeLE 4).map UInt32.ofNat) (decodePair ((decodeLE 2).map UInt16.ofNat)
        (decodePair ((decodeLE 4).map UInt32.ofNat) (decodePair decodeInt64
          (decodePair decodeInt64 (decodePair decodeInt64 (decodePair decodeInt16
            (decodePair ((decodeLE 4).map UInt32.ofNat) (decodeSeq Record.deserialize)))))))))))))
  |>.map ofFields

-- Bytes behind the batch are ignored.
def deserialize (data : Bytes) : Except Error RecordBatch :=
  match decode data with
  | some (batch, _) => .ok batch
  | none => .error .serialization

end RecordBatch

structure SegmentConfig where
  maxSegmentBytes : ℕ := 1024 * 1024 * 1024
  indexIntervalBytes : ℕ := 4096

structure IndexEntry where
  relativeOffset : UInt32
  position : UInt32

-- The index files and the time index are written and never read.
structure LogSegment where
  baseOffset : ℕ
  logFile : Bytes := []
  position : ℕ := 0
  maxTimestamp : Int64 := 0
  config : SegmentConfig
  bytesSinceLastIndex : ℕ := 0
  indexEntries : List IndexEntry := []

namespace LogSegment

variable [Platform]

-- Length, checksum and data. The length is cut to 32 bits.
def frame (batch : RecordBatch) : Bytes :=
  let data := batch.serialize
  encodeLE 4 data.length ++ (encodeLE 4 (Platform.crc32 data).toNat ++ data)

variable (segment : LogSegment)

def append (batch : RecordBatch) : LogSegment :=
  let entrySize := 8 + batch.serialize.length
  let bytesSince := segment.bytesSinceLastIndex + entrySize
  let indexed := segment.config.indexIntervalBytes ≤ bytesSince
  let entry : IndexEntry := {
    relativeOffset := UInt32.ofNat (batch.baseOffset - segment.baseOffset)
    position := UInt32.ofNat segment.position
  }
  { segment with
    logFile := segment.logFile ++ frame batch
    position := segment.position + entrySize
    maxTimestamp := if batch.maxTimestamp > segment.maxTimestamp then batch.maxTimestamp
                           else segment.maxTimestamp
    bytesSinceLastIndex := if indexed then 0 else bytesSince
    indexEntries := if indexed then segment.indexEntries ++ [entry]
                           else segment.indexEntries }

def isFull : Bool :=
  segment.config.maxSegmentBytes ≤ segment.position

def findPosition (offset : ℕ) : Except Error ℕ :=
  if offset < segment.baseOffset then
    .error (.invalidOffset offset)
  else
    let relativeOffset := UInt32.ofNat (offset - segment.baseOffset)
    let idx := Platform.partitionPoint <|
      segment.indexEntries.map fun e => decide (e.relativeOffset ≤ relativeOffset)
    if 0 < idx then
      .ok ((segment.indexEntries[idx - 1]?.map (·.position.toNat)).getD 0)
    else
      .ok 0

-- One round of the loop in `read`: the length of a batch and the batch itself. Reading stops where
-- there is no length and where the checksum is wrong. A batch that is cut off is an error.
def readBatch : Decoder (Except Error (ℕ × RecordBatch)) :=
  fun bs => (decodeLE 4 bs).bind fun (length, rest) =>
    match decodePair (decodeLE 4) (takeBytes length) rest with
    | none => some (.error .io, [])
    | some ((storedCrc, data), rest) =>
      if (Platform.crc32 data).toNat = storedCrc then
        some ((RecordBatch.deserialize data).map ((length, ·)), rest)
      else
        none

-- A round takes at least four bytes from the file, and `bytesRead` has 32 bits.
def readLoop (offset : ℕ) (maxBytes : UInt32) : ℕ → ℕ → Bytes → Except Error (List RecordBatch)
  | 0, _, _ => .ok []
  | fuel + 1, bytesRead, bs =>
    if bytesRead < maxBytes.toNat then
      match readBatch bs with
      | none => .ok []
      | some (.error e, _) => .error e
      | some (.ok (length, batch), rest) =>
        (readLoop offset maxBytes fuel ((bytesRead + (8 + length)) % UInt32.size) rest).map
          fun batches => if offset ≤ batch.baseOffset then batch :: batches else batches
    else
      .ok []

def read (offset : ℕ) (maxBytes : UInt32) : Except Error (List RecordBatch) := do
  let position ← segment.findPosition offset
  readLoop offset maxBytes segment.logFile.length 0 (segment.logFile.drop position)

end LogSegment

-- The segments are sorted by their base offset, as the map of the source is.
structure Partition where
  topic : String
  partitionId : UInt32
  segments : List LogSegment
  activeSegmentOffset : ℕ := 0
  config : SegmentConfig
  highWatermark : ℕ := 0
  logEndOffset : ℕ := 0

namespace Partition

def new (topic : String) (partitionId : UInt32) (config : SegmentConfig) : Partition where
  topic := topic
  partitionId := partitionId
  segments := [{ baseOffset := 0, config }]
  config := config

def getSegment (p : Partition) (baseOffset : ℕ) : Option LogSegment :=
  SortedList.get (·.baseOffset) p.segments baseOffset

def putSegment (p : Partition) (segment : LogSegment) : Partition :=
  { p with segments := SortedList.insert (·.baseOffset) segment p.segments }

def rollSegment (p : Partition) : Partition :=
  { p.putSegment { baseOffset := p.logEndOffset, config := p.config } with
    activeSegmentOffset := p.logEndOffset }

variable [Platform]

-- Writes a batch to the active segment, which exists.
def write (p : Partition) (segment : LogSegment) (batch : RecordBatch) : ℕ × Partition :=
  let batch := { batch with baseOffset := p.logEndOffset }
  (p.logEndOffset,
    { p.putSegment (segment.append batch) with logEndOffset := batch.lastOffset + 1 })

def append (p : Partition) (batch : RecordBatch) : Except Error (ℕ × Partition) :=
  match p.getSegment p.activeSegmentOffset with
  | none => .error (.internal "No active segment")
  | some segment =>
    let p := if segment.isFull then p.rollSegment else p
    match p.getSegment p.activeSegmentOffset with
    | none => .error (.internal "No active segment")
    | some segment => .ok (p.write segment batch)

def read (p : Partition) (offset : ℕ) (maxBytes : UInt32) : Except Error (List RecordBatch) :=
  let below := p.segments.filter (·.baseOffset ≤ offset)
  match p.getSegment ((below.getLast?.map (·.baseOffset)).getD 0) with
  | none => .error (.invalidOffset offset)
  | some segment => segment.read offset maxBytes

def updateHighWatermark (p : Partition) (offset : ℕ) : Partition :=
  if offset > p.highWatermark then { p with highWatermark := offset } else p

end Partition

end LogSystem
