import AppliedCs.Tsdb.Compression

namespace Tsdb

open Codec

def sstableMagic : ℕ := 0x54535354

def sstableVersion : ℕ := 1

def footerSize : ℕ := 44

def utf8 (s : String) : Bytes :=
  s.toByteArray.data.toList

-- Names, tags and other data of varying size are preceded by their length.
def encodeSized (bs : Bytes) : Bytes :=
  encodeVarint (UInt64.ofNat bs.length) ++ bs

def encodeTag (tag : String × String) : Bytes :=
  encodeSized (utf8 tag.1) ++ encodeSized (utf8 tag.2)

structure SSTableMeta where
  minTimestamp : Timestamp
  maxTimestamp : Timestamp
  seriesCount : ℕ
  pointCount : ℕ
  fileSize : ℕ
  deriving DecidableEq

structure IndexEntry where
  seriesKey : SeriesKey
  offset : UInt64
  length : UInt32
  minTimestamp : Timestamp
  maxTimestamp : Timestamp
  deriving DecidableEq

-- The writer holds what has been written to the file.
structure SSTableBuilder where
  writer : Bytes := []
  index : List IndexEntry := []
  offset : UInt64 := 0
  minTimestamp : Timestamp := Int64.maxValue
  maxTimestamp : Timestamp := Int64.minValue
  pointCount : ℕ := 0

namespace SSTableBuilder

variable (b : SSTableBuilder)

def writeKey (key : SeriesKey) : SSTableBuilder :=
  { b with writer := b.writer ++ encodeLE 8 key.toNat, offset := b.offset + 8 }

def writeCount (count : ℕ) : SSTableBuilder :=
  let bytes := encodeVarint (UInt64.ofNat count)
  { b with writer := b.writer ++ bytes, offset := b.offset + UInt64.ofNat bytes.length }

-- Names, tags and compressed points are written in the same way.
def writeBytes (bytes : Bytes) : SSTableBuilder :=
  let lenBytes := encodeVarint (UInt64.ofNat bytes.length)
  { b with
    writer := b.writer ++ lenBytes ++ bytes
    offset := b.offset + (UInt64.ofNat lenBytes.length + UInt64.ofNat bytes.length) }

def writeTag (tag : String × String) : SSTableBuilder :=
  (b.writeBytes (utf8 tag.1)).writeBytes (utf8 tag.2)

def writeTags (tags : Tags) : SSTableBuilder :=
  tags.entries.foldl writeTag (b.writeCount tags.entries.length)

def addSeries (series : Series) : SSTableBuilder :=
  match series.firstTimestamp, series.lastTimestamp with
  | some seriesMin, some seriesMax =>
    let startOffset := b.offset
    let b := b.writeKey series.key
    let b := b.writeBytes (utf8 series.metric.name)
    let b := b.writeTags series.metric.tags
    let b := b.writeBytes (compressPoints series.points)
    { b with
      minTimestamp := min b.minTimestamp seriesMin
      maxTimestamp := max b.maxTimestamp seriesMax
      pointCount := b.pointCount + series.points.length
      index := b.index ++ [{
        seriesKey := series.key
        offset := startOffset
        length := (b.offset - startOffset).toUInt32
        minTimestamp := seriesMin
        maxTimestamp := seriesMax }] }
  -- A series without points is skipped.
  | _, _ => b

def encodeEntry (entry : IndexEntry) : Bytes :=
  encodeLE 8 entry.seriesKey.toNat ++ encodeLE 8 entry.offset.toNat ++
    encodeLE 4 entry.length.toNat ++ encodeLE 8 entry.minTimestamp.toUInt64.toNat ++
      encodeLE 8 entry.maxTimestamp.toUInt64.toNat

-- The file is removed if nothing has been written to it.
def finish [Hashing] (b : SSTableBuilder) : Result (Bytes × SSTableMeta) :=
  if b.index.isEmpty then .error (.error (.storageError "Cannot create empty SSTable"))
  else
    let indexOffset := b.offset
    let file := b.writer ++ encodeVarint (UInt64.ofNat b.index.length) ++
      b.index.flatMap encodeEntry
    let indexLength := UInt64.ofNat file.length - indexOffset
    let checksum := Hashing.crc32 file
    let file := file ++ encodeLE 8 indexOffset.toNat ++ encodeLE 8 indexLength.toNat ++
      encodeLE 8 b.minTimestamp.toUInt64.toNat ++ encodeLE 8 b.maxTimestamp.toUInt64.toNat ++
        encodeLE 4 checksum.toNat ++ encodeLE 4 sstableVersion ++ encodeLE 4 sstableMagic
    .ok (file, {
      minTimestamp := b.minTimestamp
      maxTimestamp := b.maxTimestamp
      seriesCount := b.index.length
      pointCount := b.pointCount
      fileSize := file.length })

end SSTableBuilder

-- Also used for the values of a map.
def SSTable.create [Hashing] (series : List Series) : Result (Bytes × SSTableMeta) :=
  (series.foldl SSTableBuilder.addSeries {}).finish

-- The next bytes of a file.
def readLE (w : ℕ) (bs : Bytes) : Result (ℕ × Bytes) :=
  match decodeLE w bs with
  | none => .error (.error .io)
  | some p => .ok p

-- A number in a buffer and the offset behind it.
def readLEAt (w : ℕ) (buf : Bytes) (offset : ℕ) (what : String) : Result (ℕ × ℕ) :=
  let size := buf.length
  if offset + w ≥ UInt64.size then
    .error (.error (.corruption s!"SSTable index offset overflow reading {what}"))
  else
    match decodeLE w (buf.drop offset) with
    | none => .error (.error (.corruption
      s!"Truncated SSTable index: need {w} bytes for {what} at offset {offset}, have {size}"))
    | some p => .ok (p.1, offset + w)

variable (buf : Bytes) (offset : ℕ)

def takeBytesAt (len : ℕ) (what : String) : Result (Bytes × ℕ) :=
  let size := buf.length
  if offset + len ≥ UInt64.size then
    .error (.error (.corruption s!"SSTable offset overflow reading {what}"))
  else if size < offset + len then .error (.error (.corruption
    s!"Truncated SSTable block: need {len} bytes for {what} at offset {offset}, have {size}"))
  else .ok ((buf.drop offset).take len, offset + len)

def varintAt : Result (UInt64 × ℕ) :=
  let size := buf.length
  if size < offset then
    .error (.error (.corruption s!"Truncated SSTable block: offset {offset} past end {size}"))
  else do
    let p ← decodeVarint (buf.drop offset)
    return (p.1, offset + p.2)

-- Names, tags and compressed points are preceded by their length.
def bytesAt (what : String) : Result (Bytes × ℕ) := do
  let len ← varintAt buf offset
  takeBytesAt buf len.2 len.1.toNat what

def stringAt (what : String) : Result (String × ℕ) := do
  let p ← bytesAt buf offset what
  match String.fromUTF8? ⟨p.1.toArray⟩ with
  | none => .error (.error (.corruption s!"Invalid {what}"))
  | some s => return (s, p.2)

def tagsAt (buf : Bytes) (tags : Tags) (offset : ℕ) : ℕ → Result (Tags × ℕ)
  | 0 => .ok (tags, offset)
  | count + 1 => do
    let key ← stringAt buf offset "tag key"
    let value ← stringAt buf key.2 "tag value"
    tagsAt buf (tags.insert key.1 value.1) value.2 count

structure SSTableReader where
  index : List IndexEntry
  tableMeta : SSTableMeta

namespace SSTableReader

def entrySize : ℕ := 8 + 8 + 4 + 8 + 8

def entryAt (buf : Bytes) (offset : ℕ) : Result (IndexEntry × ℕ) := do
  let seriesKey ← readLEAt 8 buf offset "index series key"
  let entryOffset ← readLEAt 8 buf seriesKey.2 "index entry offset"
  let length ← readLEAt 4 buf entryOffset.2 "index entry length"
  let minTimestamp ← readLEAt 8 buf length.2 "index entry min timestamp"
  let maxTimestamp ← readLEAt 8 buf minTimestamp.2 "index entry max timestamp"
  return ({
    seriesKey := UInt64.ofNat seriesKey.1
    offset := UInt64.ofNat entryOffset.1
    length := UInt32.ofNat length.1
    minTimestamp := (UInt64.ofNat minTimestamp.1).toInt64
    maxTimestamp := (UInt64.ofNat maxTimestamp.1).toInt64 }, maxTimestamp.2)

def entriesAt (buf : Bytes) (offset : ℕ) : ℕ → Result (List IndexEntry)
  | 0 => .ok []
  | count + 1 => do
    let entry ← entryAt buf offset
    let entries ← entriesAt buf entry.2 count
    return entry.1 :: entries

def readIndex (indexData : Bytes) : Result (List IndexEntry) := do
  let p ← decodeVarint indexData
  let count := p.1.toNat
  let remaining ← uintSub indexData.length p.2
  if count > remaining / entrySize then .error (.error (.corruption
    s!"SSTable index entry count {count} exceeds available bytes {remaining}"))
  else entriesAt indexData p.2 count

def «open» (file : Bytes) : Result SSTableReader :=
  let fileSize := file.length
  if fileSize < footerSize then .error (.error (.corruption "SSTable file too small"))
  else do
    let indexOffset ← readLE 8 (file.drop (fileSize - footerSize))
    let indexLength ← readLE 8 indexOffset.2
    let minTimestamp ← readLE 8 indexLength.2
    let maxTimestamp ← readLE 8 minTimestamp.2
    let checksum ← readLE 4 maxTimestamp.2
    let version ← readLE 4 checksum.2
    let magic ← readLE 4 version.2
    if magic.1 ≠ sstableMagic then
      .error (.error (.corruption "Invalid SSTable magic number"))
    else if version.1 ≠ sstableVersion then
      let number := version.1
      .error (.error (.corruption s!"Unsupported SSTable version: {number}"))
    else
      let bodySize ← uintSub fileSize footerSize
      let start := indexOffset.1
      let length := indexLength.1
      -- The subtraction is only reached if the first comparison fails.
      let outside ← if start > bodySize then pure true else do
        let left ← uintSub bodySize start
        pure (length > left : Bool)
      if outside then .error (.error (.corruption
        s!"SSTable index region out of bounds: offset {start} length {length} (body size {bodySize})"))
      else
        let index ← readIndex ((file.drop start).take length)
        return {
          index
          tableMeta := {
            minTimestamp := (UInt64.ofNat minTimestamp.1).toInt64
            maxTimestamp := (UInt64.ofNat maxTimestamp.1).toInt64
            seriesCount := index.length
            pointCount := 0
            fileSize } }

def blockPoints (data : Bytes) : Result (Metric × Bytes) := do
  let key ← readLEAt 8 data 0 "series key"
  let name ← stringAt data key.2 "metric name"
  let tagsCount ← varintAt data name.2
  let tags ← tagsAt data ∅ tagsCount.2 tagsCount.1.toNat
  let compressed ← bytesAt data tags.2 "compressed data"
  return ({ name := name.1, tags := tags.1 }, compressed.1)

def readBlock [Hashing] (data : Bytes) : Result Series := do
  let block ← blockPoints data
  let points ← decompressPoints block.2
  return { Series.new block.1 with points }

-- The bytes of an entry, which may point behind the end of the file.
def entryData (file : Bytes) (entry : IndexEntry) : Result Bytes :=
  let data := (file.drop entry.offset.toNat).take entry.length.toNat
  if data.length < entry.length.toNat then .error (.error .io) else .ok data

-- The file is opened again for every call.
def readSeries [Hashing] (r : SSTableReader) (file : Bytes) (seriesKey : SeriesKey) :
    Result (Option Series) :=
  match r.index.find? (·.seriesKey = seriesKey) with
  | none => .ok none
  | some entry => do
    let data ← entryData file entry
    let series ← readBlock data
    return some series

def queryRange [Hashing] (r : SSTableReader) (file : Bytes) (seriesKey : SeriesKey)
    (start stop : Timestamp) : Result (List DataPoint) :=
  match r.index.find? (·.seriesKey = seriesKey) with
  | none => .ok []
  | some entry =>
    if entry.maxTimestamp < start ∨ entry.minTimestamp > stop then .ok []
    else do
      match ← r.readSeries file seriesKey with
      | some series => series.range start stop
      | none => return []

def seriesKeys (r : SSTableReader) : List SeriesKey :=
  r.index.map (·.seriesKey)

def overlaps (r : SSTableReader) (start stop : Timestamp) : Bool :=
  r.tableMeta.minTimestamp ≤ stop ∧ r.tableMeta.maxTimestamp ≥ start

end SSTableReader

end Tsdb
