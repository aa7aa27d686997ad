import AppliedCs.Cache.Resp

-- The parser as it works on its buffer, with offsets, and with every operation that can panic.
namespace Cache.Checked

open Codec

-- The largest number of bytes that a vector may have.
def isizeMax : ℕ :=
  0x7FFFFFFFFFFFFFFF

structure BytesMut where
  bytes : Bytes
  length_le : bytes.length ≤ isizeMax

inductive Fault
  | panic
  | parse (e : ParseError)
  -- The recursion went deeper than it was allowed to.
  | depth

abbrev Result := Except Fault

def addUsize (a b : ℕ) : Result ℕ :=
  if a + b < UInt64.size then .ok (a + b) else .error .panic

-- `Vec::with_capacity` for items of the given size.
def withCapacity (itemSize n : ℕ) : Result Unit :=
  if n * itemSize ≤ isizeMax then .ok () else .error .panic

def lift {α : Type} : Except ParseError α → Result α
  | .ok a => .ok a
  | .error e => .error (.parse e)

namespace BytesMut

def len (buffer : BytesMut) : ℕ :=
  buffer.bytes.length

def index (buffer : BytesMut) (i : ℕ) : Result UInt8 :=
  match buffer.bytes[i]? with
  | some b => .ok b
  | none => .error .panic

def slice (buffer : BytesMut) (start stop : ℕ) : Result Bytes :=
  if start ≤ stop ∧ stop ≤ buffer.len then .ok ((buffer.bytes.take stop).drop start)
  else .error .panic

def splitTo (buffer : BytesMut) (n : ℕ) : Result BytesMut :=
  if n ≤ buffer.len then
    .ok ⟨buffer.bytes.drop n, (List.drop_sublist ..).length_le.trans buffer.length_le⟩
  else .error .panic

end BytesMut

variable (buffer : BytesMut)

def isCrlf (i : ℕ) : Result Bool := do
  let first ← buffer.index i
  if first = 0x0D then
    let next ← addUsize i 1
    let second ← buffer.index next
    return second = 0x0A
  else return false

def findCrlfFrom : ℕ → ℕ → Result (Option ℕ)
  | 0, _ => .ok none
  | rounds + 1, i => do
    let found ← isCrlf buffer i
    if found then return some i else findCrlfFrom rounds (i + 1)

variable (offset : ℕ)

def findCrlf : Result (Option ℕ) :=
  if offset ≥ buffer.len then .ok none
  else findCrlfFrom buffer (buffer.len - 1 - offset) offset

-- A value and the offset behind it, or nothing if more bytes are needed.
abbrev Parsed (α : Type) := Option (α × ℕ)

-- The rest of the line at the offset, without its first byte.
def parseLine {α : Type} (read : Bytes → Except ParseError α) (offset : ℕ) : Result (Parsed α) := do
  let start ← addUsize offset 1
  match ← findCrlf buffer start with
  | none => return none
  | some crlf => do
    let data ← buffer.slice start crlf
    let a ← lift (read data)
    let next ← addUsize crlf 2
    return some (a, next)

def parseSimpleString : Result (Parsed RespValue) := do
  let r ← parseLine buffer fromUtf8 offset
  return r.map fun p => (.simpleString p.1, p.2)

def parseError : Result (Parsed RespValue) := do
  let r ← parseLine buffer fromUtf8 offset
  return r.map fun p => (.error p.1, p.2)

def parseInteger : Result (Parsed RespValue) := do
  let r ← parseLine buffer parseNumber offset
  return r.map fun p => (.integer p.1, p.2)

-- A length with the line `-1` for no value, and what it announces.
def parseLength (null : RespValue) (message : String) (body : ℕ → ℕ → Result (Parsed RespValue))
    (offset : ℕ) : Result (Parsed RespValue) := do
  match ← parseLine buffer parseNumber offset with
  | none => return none
  | some (len, next) =>
    if len = -1 then return some (null, next)
    else if len < 0 then .error (.parse (.protocol message))
    else body len.toInt.toNat next

def bulkData (n dataStart : ℕ) : Result (Parsed RespValue) := do
  let dataEnd ← addUsize dataStart n
  let totalEnd ← addUsize dataEnd 2
  if buffer.len < totalEnd then return none
  else
    let data ← buffer.slice dataStart dataEnd
    return some (.bulkString (some data), totalEnd)

def parseBulkString : ℕ → Result (Parsed RespValue) :=
  parseLength buffer (.bulkString none) "Invalid bulk string length" (bulkData buffer)

def parseItems (parseValue : ℕ → Result (Parsed RespValue)) :
    ℕ → ℕ → Result (Parsed (List RespValue))
  | 0, offset => .ok (some ([], offset))
  | len + 1, offset => do
    match ← parseValue offset with
    | none => return none
    | some (value, offset) =>
      let r ← parseItems parseValue len offset
      return r.map fun p => (value :: p.1, p.2)

variable (itemSize : ℕ)

def arrayItems (parseValue : ℕ → Result (Parsed RespValue)) (n offset : ℕ) :
    Result (Parsed RespValue) := do
  withCapacity itemSize n
  let r ← parseItems parseValue n offset
  return r.map fun p => (.array (some p.1), p.2)

def parseArray (parseValue : ℕ → Result (Parsed RespValue)) : ℕ → Result (Parsed RespValue) :=
  parseLength buffer (.array none) "Invalid array length" (arrayItems itemSize parseValue)

def parseValueAt (parseValue : ℕ → Result (Parsed RespValue)) (offset : ℕ) (byte : UInt8) :
    Result (Parsed RespValue) :=
  match byte with
  | 0x2B => parseSimpleString buffer offset
  | 0x2D => parseError buffer offset
  | 0x3A => parseInteger buffer offset
  | 0x24 => parseBulkString buffer offset
  | 0x2A => parseArray buffer itemSize parseValue offset
  | _ => .error (.parse (.invalidPrefix byte))

def parseValue : ℕ → ℕ → Result (Parsed RespValue)
  | 0, _ => .error .depth
  | depth + 1, offset => do
    if offset ≥ buffer.len then return none
    else
      let byte ← buffer.index offset
      parseValueAt buffer itemSize (parseValue depth) offset byte

-- The value and the buffer without its bytes. Every call reads a byte before it makes another one.
def parse : Result (Option (RespValue × BytesMut)) := do
  if buffer.bytes.isEmpty then return none
  else
    match ← parseValue buffer itemSize (buffer.len + 1) 0 with
    | none => return none
    | some (value, consumed) =>
      let buffer ← buffer.splitTo consumed
      return some (value, buffer)

end Cache.Checked
