import AppliedCs.Lib.Records
import AppliedCs.Tsdb.SSTable

namespace Tsdb

open Codec

-- Name, tags, timestamp and value.
abbrev Row := String × Tags × Timestamp × Value

inductive WalEntry
  | write (metricName : String) (tags : Tags) (timestamp : Timestamp) (value : Value)
  | writeBatch (points : List Row)
  | checkpoint (sequence : UInt64)
  deriving DecidableEq

namespace WalEntry

def encodeRow (row : Row) : Bytes :=
  encodeSized (utf8 row.1) ++ (encodeVarint (UInt64.ofNat row.2.1.entries.length) ++
    (row.2.1.entries.flatMap encodeTag ++
      (encodeLE 8 row.2.2.1.toUInt64.toNat ++ encodeLE 8 row.2.2.2.toNat)))

def serialize : WalEntry → Bytes
  | write metricName tags timestamp value => 1 :: encodeRow (metricName, tags, timestamp, value)
  | writeBatch points =>
    2 :: (encodeVarint (UInt64.ofNat points.length) ++ points.flatMap encodeRow)
  | checkpoint sequence => 3 :: encodeLE 8 sequence.toNat

-- A slice that reaches behind the end of the data makes the call panic.
def takeSlice (n : ℕ) (data : Bytes) : Result (Bytes × Bytes) :=
  match takeBytes n data with
  | none => .error .panic
  | some p => .ok p

variable (data : Bytes)

def takeNumber : Result (ℕ × Bytes) :=
  match decodeLE 8 data with
  | none => .error .panic
  | some p => .ok p

def takeVarint : Result (UInt64 × Bytes) := do
  let p ← decodeVarint data
  return (p.1, data.drop p.2)

def takeString : Result (String × Bytes) := do
  let len ← takeVarint data
  let bytes ← takeSlice len.1.toNat len.2
  match String.fromUTF8? ⟨bytes.1.toArray⟩ with
  | none => .error (.error (.walError "Invalid UTF-8"))
  | some s => return (s, bytes.2)

def takeTags (tags : Tags) (data : Bytes) : ℕ → Result (Tags × Bytes)
  | 0 => .ok (tags, data)
  | count + 1 => do
    let key ← takeString data
    let value ← takeString key.2
    takeTags (tags.insert key.1 value.1) value.2 count

def takeRow : Result (Row × Bytes) := do
  let metricName ← takeString data
  let tagsCount ← takeVarint metricName.2
  let tags ← takeTags ∅ tagsCount.2 tagsCount.1.toNat
  let timestamp ← takeNumber tags.2
  let value ← takeNumber timestamp.2
  return ((metricName.1, tags.1, (UInt64.ofNat timestamp.1).toInt64, .ofNat 64 value.1), value.2)

def takeRows (data : Bytes) : ℕ → Result (List Row × Bytes)
  | 0 => .ok ([], data)
  | count + 1 => do
    let row ← takeRow data
    let rows ← takeRows row.2 count
    return (row.1 :: rows.1, rows.2)

def takeEntry : Bytes → Result (WalEntry × Bytes)
  | [] => .error (.error (.walError "Empty WAL entry"))
  | entryType :: data =>
    match entryType with
    | 1 => do
      let row ← takeRow data
      return (write row.1.1 row.1.2.1 row.1.2.2.1 row.1.2.2.2, row.2)
    | 2 => do
      let count ← takeVarint data
      let points ← takeRows count.2 count.1.toNat
      return (writeBatch points.1, points.2)
    | 3 => do
      let sequence ← takeNumber data
      return (checkpoint (UInt64.ofNat sequence.1), sequence.2)
    | value => .error (.error (.walError s!"Unknown WAL entry type: {value}"))

-- The entry and the offset behind it.
def deserialize : Result (WalEntry × ℕ) := do
  let entry ← takeEntry data
  return (entry.1, data.length - entry.2.length)

def sequence? : WalEntry → Option UInt64
  | checkpoint sequence => some sequence
  | _ => none

end WalEntry

def walMagic : ℕ := 0x57414C31

-- The number is padded with zeros to ten digits.
def segmentName (number : ℕ) : List Char :=
  "wal_".toList ++ ((Nat.toDigits 10 number).leftpad 10 '0' ++ ".log".toList)

-- The segment files by the number in their names. What is still in the buffer of the writer counts
-- as part of the file, since it is written before anyone reads it.
structure WriteAheadLog where
  dir : SortedMap ℕ Bytes
  -- Whether the segment with the current number is open.
  writer : Bool := false
  segmentNumber : ℕ := 0
  sequence : UInt64 := 0
  maxSegmentSize : ℕ
  currentSize : ℕ := 0

namespace WriteAheadLog

section Read

variable [Hashing]

-- Length, data and checksum. The length is cut to 32 bits.
def frame (entry : WalEntry) : Bytes :=
  let data := entry.serialize
  encodeLE 4 data.length ++ (data ++ encodeLE 4 (Hashing.crc32 data).toNat)

-- One round of the loop over a segment. Only the end of the file in place of a length ends it.
def readFrame : Decoder (Result WalEntry) := fun bs =>
  (decodeLE 4 bs).map fun length =>
    match takeBytes length.1 length.2 with
    | none => (.error (.error .io), [])
    | some data =>
      match decodeLE 4 data.2 with
      | none => (.error (.error .io), [])
      | some stored =>
        let actual := Hashing.crc32 data.1
        if stored.1 ≠ actual.toNat then
          (.error (.error (.checksumMismatch (.ofNat stored.1) actual)), stored.2)
        else
          ((WalEntry.deserialize data.1).map (·.1), stored.2)

-- A round takes at least the four bytes of the length.
def readSegment (segment : Bytes) : Result (List WalEntry) := do
  let magic ← readLE 4 segment
  if magic.1 ≠ walMagic then .error (.error (.walError "Invalid WAL magic"))
  else readRecords readFrame magic.2.length magic.2

-- A segment that cannot be read is left out.
def scanSegment (maxSequence : UInt64) (segment : Bytes) : Result UInt64 :=
  match readSegment segment with
  | .ok entries => .ok ((entries.filterMap WalEntry.sequence?).foldl max maxSequence)
  | .error (.error _) => .ok maxSequence
  | .error .panic => .error .panic

def recoverState (w : WriteAheadLog) : Result WriteAheadLog := do
  let maxSequence ← w.dir.values.foldlM scanSegment 0
  return { w with segmentNumber := w.dir.keys.foldl max 0 + 1, sequence := maxSequence }

end Read

variable (w : WriteAheadLog)

-- The file of the current segment, which is empty before it is created.
def segment : Bytes :=
  (w.dir.get? w.segmentNumber).getD []

def writeAll (bytes : Bytes) : WriteAheadLog :=
  { w with dir := w.dir.insert w.segmentNumber (w.segment ++ bytes) }

def ensureSegment : WriteAheadLog :=
  if w.writer then w
  else if w.segment = [] then
    { w.writeAll (encodeLE 4 walMagic) with writer := true, currentSize := 4 }
  else { w with writer := true }

def withOptions [Hashing] (dir : SortedMap ℕ Bytes) (maxSegmentSize : ℕ) :
    Result WriteAheadLog := do
  let w ← recoverState { dir, maxSegmentSize }
  return w.ensureSegment

def new [Hashing] (dir : SortedMap ℕ Bytes) : Result WriteAheadLog :=
  withOptions dir (64 * 1024 * 1024)

def rotate : WriteAheadLog :=
  ensureSegment { w with writer := false, segmentNumber := w.segmentNumber + 1, currentSize := 0 }

def append [Hashing] (w : WriteAheadLog) (entry : WalEntry) : WriteAheadLog × UInt64 :=
  let w := w.ensureSegment
  let sequence := w.sequence
  let newSize := w.currentSize + (frame entry).length
  let w := { w.writeAll (frame entry) with sequence := sequence + 1, currentSize := newSize }
  (if newSize > w.maxSegmentSize then w.rotate else w, sequence)

-- The files in the order of their names.
def sortedSegments : List Bytes :=
  (w.dir.entries.insertionSort fun a b => segmentName a.1 ≤ segmentName b.1).map Prod.snd

-- The segments are read one after the other, and the entries are handed over until a call fails.
def replay [Hashing] {σ : Type} (w : WriteAheadLog) (callback : σ → WalEntry → Result σ) (s : σ) :
    Result (σ × ℕ) :=
  w.sortedSegments.foldlM (fun p segment => do
    let entries ← readSegment segment
    let s ← entries.foldlM callback p.1
    return (s, p.2 + entries.length)) (s, 0)

def close : WriteAheadLog :=
  { w with writer := false }

end WriteAheadLog

end Tsdb
