import AppliedCs.Lib.SortedList
import AppliedCs.Lib.Text
import AppliedCs.MessageQueue.Basic
import Mathlib.Data.String.Basic

namespace MessageQueue

open Codec Text

-- The checksum is that of another library.
class Checksum where
  crc32 : Bytes → UInt32

structure MessageId where
  bytes : Bytes
  length : bytes.length = 16
  deriving DecidableEq

abbrev Headers := SortedMap String Bytes

structure Message where
  id : MessageId
  key : Option Bytes
  payload : Bytes
  headers : Headers
  timestamp : UInt64
  offset : UInt64
  partition : UInt32
  deriving DecidableEq

namespace Message

-- The length is cut to 32 bits.
def encodeSized (bs : Bytes) : Bytes :=
  encodeBE 4 bs.length ++ bs

def encodeKey : Option Bytes → Bytes
  | none => encodeBE 4 0xFFFFFFFF
  | some key => encodeSized key

def encodeHeader (header : String × Bytes) : Bytes :=
  encodeSized (asBytes header.1) ++ encodeSized header.2

-- The headers are written in the order in which the hash map lists them.
def encodeFields (m : Message) (order : List (String × Bytes)) : Bytes :=
  0x01 :: (m.id.bytes ++ (encodeKey m.key ++ (encodeSized m.payload ++
    (encodeBE 4 m.headers.entries.length ++ (order.flatMap encodeHeader ++
      (encodeBE 8 m.timestamp.toNat ++ (encodeBE 8 m.offset.toNat ++
        encodeBE 4 m.partition.toNat)))))))

-- A slice or a number that reaches behind the end of the data makes the call panic.
def takeSlice (n : ℕ) (data : Bytes) : Outcome (Bytes × Bytes) :=
  match takeBytes n data with
  | none => .error .panic
  | some p => .ok p

def takeNumber (w : ℕ) (data : Bytes) : Outcome (ℕ × Bytes) :=
  match decodeBE w data with
  | none => .error .panic
  | some p => .ok p

variable (data : Bytes)

def takeI32 : Outcome (Int32 × Bytes) := do
  let p ← takeNumber 4 data
  return ((UInt32.ofNat p.1).toInt32, p.2)

def asUsize (n : Int32) : ℕ :=
  n.toInt64.toUInt64.toNat

def takeSized : Outcome (Bytes × Bytes) := do
  let len ← takeI32 data
  takeSlice (asUsize len.1) len.2

def takeKey : Outcome (Option Bytes × Bytes) := do
  let len ← takeI32 data
  if len.1 ≥ 0 then do
    let key ← takeSlice (asUsize len.1) len.2
    return (some key.1, key.2)
  else return (none, len.2)

def takeHeaders (headers : Headers) (data : Bytes) : ℕ → Outcome (Headers × Bytes)
  | 0 => .ok (headers, data)
  | count + 1 => do
    let key ← takeSized data
    match String.fromUTF8? ⟨key.1.toArray⟩ with
    | none => .error (.error (.serialization "invalid utf-8"))
    | some k =>
      let value ← takeSized key.2
      takeHeaders (headers.insert k value.1) value.2 count

def takeId : Outcome (MessageId × Bytes) :=
  if h : 16 ≤ data.length then .ok (⟨data.take 16, List.length_take_of_le h⟩, data.drop 16)
  else .error .panic

def takeFields : Outcome Message := do
  let magic ← takeNumber 1 data
  if magic.1 ≠ 0x01 then
    let byte := magic.1
    .error (.error (.serialization s!"Invalid magic byte: {byte}"))
  else
    let id ← takeId magic.2
    let key ← takeKey id.2
    let payload ← takeSized key.2
    let count ← takeI32 payload.2
    let headers ← takeHeaders ∅ count.2 (asUsize count.1)
    let timestamp ← takeNumber 8 headers.2
    let offset ← takeNumber 8 timestamp.2
    let partition ← takeNumber 4 offset.2
    return {
      id := id.1
      key := key.1
      payload := payload.1
      headers := headers.1
      timestamp := .ofNat timestamp.1
      offset := .ofNat offset.1
      partition := .ofNat partition.1 }

variable [Checksum]

def serialize (m : Message) (order : List (String × Bytes)) : Bytes :=
  let buf := m.encodeFields order
  buf ++ encodeBE 4 (Checksum.crc32 buf).toNat

def deserialize (data : Bytes) : Outcome Message :=
  if data.length < 5 then .error (.error (.serialization "Message too short"))
  else do
    let crcPos := data.length - 4
    let stored ← takeNumber 4 (data.drop crcPos)
    let calculated := Checksum.crc32 (data.take crcPos)
    if stored.1 ≠ calculated.toNat then
      .error (.error (.crcMismatch (.ofNat stored.1) calculated))
    else takeFields data

end Message

end MessageQueue
