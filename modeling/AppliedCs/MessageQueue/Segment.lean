import AppliedCs.MessageQueue.Message

namespace MessageQueue

open Codec

-- From offsets to positions in the file.
abbrev MemoryIndex := SortedMap ℕ UInt32

-- The position of the largest offset up to the given one.
def MemoryIndex.lookup (index : MemoryIndex) (offset : ℕ) : Option UInt32 :=
  (index.entries.reverse.find? (·.1 ≤ offset)).map (·.2)

def indexInterval : ℕ := 4096

-- How many messages a vector can be created for at most.
class Allocation where
  maxMessages : ℕ

structure Segment where
  baseOffset : ℕ
  file : Bytes
  size : ℕ
  maxSize : ℕ
  offsetIndex : MemoryIndex := ∅
  nextOffset : ℕ
  readOnly : Bool := false
  bytesSinceIndex : ℕ := 0

namespace Segment

-- The file is created if there is none.
def new (file : Bytes) (baseOffset maxSize : ℕ) : Segment :=
  { baseOffset, file, size := file.length, maxSize, nextOffset := baseOffset }

def readLength (file : Bytes) (position : ℕ) : Option ℕ :=
  (decodeBE 4 (file.drop position)).map (·.1)

-- One round for each length that can be read, which takes four bytes.
def scanIndex (file : Bytes) (position offset : ℕ) (index : MemoryIndex) : ℕ → MemoryIndex × ℕ
  | 0 => (index, offset)
  | rounds + 1 =>
    match readLength file position with
    | none => (index, offset)
    | some len =>
      scanIndex file (position + (4 + len)) (offset + 1)
        (index.insert offset (.ofNat position)) rounds

def rebuildIndex (s : Segment) : Segment :=
  let r := scanIndex s.file 0 s.baseOffset s.offsetIndex s.file.length
  { s with offsetIndex := r.1, nextOffset := r.2 }

def «open» (file : Bytes) (baseOffset maxSize : ℕ) : Segment :=
  (new file baseOffset maxSize).rebuildIndex

-- Looks for the closest position in the index.
def findOffsetAtPosition (s : Segment) (position : UInt32) : ℕ :=
  match s.offsetIndex.entries.reverse.find? (·.2 ≤ position) with
  | none => s.baseOffset
  | some e => e.1

-- Skips that many messages.
def skip (file : Bytes) (position : ℕ) : ℕ → Outcome ℕ
  | 0 => .ok position
  | n + 1 =>
    match readLength file position with
    | none => .error (.error .io)
    | some len => skip file (position + (4 + len)) n

-- The same for a range, where the end of the file ends it.
def skipRange (file : Bytes) (position offset : ℕ) : ℕ → ℕ × ℕ
  | 0 => (position, offset)
  | n + 1 =>
    match readLength file position with
    | none => (position, offset)
    | some len => skipRange file (position + (4 + len)) (offset + 1) n

def isFull (s : Segment) : Bool :=
  s.size ≥ s.maxSize

variable [Checksum]

def readMessage (file : Bytes) (position len : ℕ) : Outcome Message :=
  match takeBytes len (file.drop (position + 4)) with
  | none => .error (.error .io)
  | some buf => Message.deserialize buf.1

def read (s : Segment) (offset : ℕ) : Outcome Message :=
  if offset < s.baseOffset ∨ offset ≥ s.nextOffset then
    .error (.error (.offsetOutOfRange offset s.baseOffset s.nextOffset))
  else do
    let position := (s.offsetIndex.lookup offset).getD 0
    let current := s.findOffsetAtPosition position
    let position ← skip s.file position.toNat (offset - current)
    match readLength s.file position with
    | none => .error (.error .io)
    | some len => do
      let m ← readMessage s.file position len
      return { m with offset := .ofNat offset }

-- The loop over the messages of a range, up to `n` of them.
def readMessages (file : Bytes) (position offset endOffset : ℕ) : ℕ → Outcome (List Message)
  | 0 => .ok []
  | n + 1 =>
    if offset < endOffset then
      match readLength file position with
      | none => .ok []
      | some len => do
        let m ← readMessage file position len
        let ms ← readMessages file (position + (4 + len)) (offset + 1) endOffset n
        return { m with offset := .ofNat offset } :: ms
    else .ok []

def readRange [Allocation] (s : Segment) (startOffset maxMessages : ℕ) : Outcome (List Message) :=
  if maxMessages > Allocation.maxMessages then .error .panic
  else if startOffset ≥ s.nextOffset then .ok []
  else
    let position := (s.offsetIndex.lookup startOffset).getD 0
    let current := s.findOffsetAtPosition position
    let p := skipRange s.file position.toNat current (startOffset - current)
    readMessages s.file p.1 p.2 s.nextOffset maxMessages

-- The frame of a message. The length is cut to 32 bits.
def frame (m : Message) (order : List (String × Bytes)) : Bytes :=
  let serialized := m.serialize order
  encodeBE 4 serialized.length ++ serialized

def append (s : Segment) (message : Message) (order : List (String × Bytes)) :
    Segment × Outcome ℕ :=
  if s.readOnly then (s, .error (.error (.illegalState "Segment is read-only")))
  else
    let msgLen := (message.serialize order).length % UInt32.size
    let newSize := s.size + 4 + msgLen
    if newSize > s.maxSize then (s, .error (.error .storageFull))
    else
      let offset := s.nextOffset
      let position := UInt32.ofNat s.size
      let s := { s with
        nextOffset := offset + 1, file := s.file ++ frame message order, size := newSize }
      if s.bytesSinceIndex ≥ indexInterval then
        ({ s with
          offsetIndex := s.offsetIndex.insert offset position
          bytesSinceIndex := 0 }, .ok offset)
      else ({ s with bytesSinceIndex := s.bytesSinceIndex + (msgLen + 4) }, .ok offset)

end Segment

structure SegmentManager where
  maxSegmentSize : ℕ
  activeSegment : Segment
  segments : List Segment := []

namespace SegmentManager

-- The files by the offsets in their names.
def new (dir : SortedMap ℕ Bytes) (maxSegmentSize : ℕ) : SegmentManager :=
  let opened := dir.entries.map fun e => Segment.open e.2 e.1 maxSegmentSize
  match opened.getLast? with
  | none => { maxSegmentSize, activeSegment := .new [] 0 maxSegmentSize }
  | some active =>
    { maxSegmentSize, activeSegment := active
      segments := opened.dropLast.map fun s => { s with readOnly := true } }

-- The files that are left behind.
def dir (m : SegmentManager) : SortedMap ℕ Bytes :=
  (m.segments ++ [m.activeSegment]).foldl (fun dir s => dir.insert s.baseOffset s.file) ∅

variable (m : SegmentManager)

def startOffset : ℕ :=
  (m.segments.head?.map (·.baseOffset)).getD m.activeSegment.baseOffset

def endOffset : ℕ :=
  m.activeSegment.nextOffset

-- A file with the name of the new segment is opened as it is.
def roll : SegmentManager :=
  let newBase := m.activeSegment.nextOffset
  { m with
    activeSegment := .new ((m.dir.get? newBase).getD []) newBase m.maxSegmentSize
    segments := m.segments ++ [{ m.activeSegment with readOnly := true }] }

variable [Checksum]

def appendActive (m : SegmentManager) (message : Message) (order : List (String × Bytes)) :
    SegmentManager × Outcome ℕ :=
  let r := m.activeSegment.append message order
  ({ m with activeSegment := r.1 }, r.2)

def append (m : SegmentManager) (message : Message) (order : List (String × Bytes)) :
    SegmentManager × Outcome ℕ :=
  let m := if m.activeSegment.isFull then m.roll else m
  match m.appendActive message order with
  | (m, .error (.error .storageFull)) => m.roll.appendActive message order
  | r => r

def read (m : SegmentManager) (offset : ℕ) : Outcome Message :=
  if offset ≥ m.activeSegment.baseOffset then m.activeSegment.read offset
  else
    match m.segments.reverse.find? fun s => s.baseOffset ≤ offset ∧ offset < s.nextOffset with
    | some s => s.read offset
    | none => .error (.error (.offsetOutOfRange offset m.startOffset m.endOffset))

-- The loop over the inactive segments, with the messages so far.
def readSegments [Allocation] (messages : List Message) (currentOffset remaining : ℕ) :
    List Segment → Outcome (List Message × ℕ × ℕ)
  | [] => .ok (messages, currentOffset, remaining)
  | s :: ss =>
    if remaining = 0 then .ok (messages, currentOffset, remaining)
    else if currentOffset ≥ s.nextOffset then readSegments messages currentOffset remaining ss
    else if currentOffset ≥ s.baseOffset then do
      let batch ← s.readRange currentOffset remaining
      let currentOffset := (batch.getLast?.map (·.offset.toNat + 1)).getD currentOffset
      readSegments (messages ++ batch) currentOffset (remaining - batch.length) ss
    else readSegments messages currentOffset remaining ss

def readRange [Allocation] (m : SegmentManager) (startOffset maxMessages : ℕ) :
    Outcome (List Message) := do
  let r ← readSegments [] startOffset maxMessages m.segments
  if r.2.2 > 0 ∧ r.2.1 ≥ m.activeSegment.baseOffset then do
    let batch ← m.activeSegment.readRange r.2.1 r.2.2
    return r.1 ++ batch
  else return r.1

end SegmentManager

end MessageQueue
