import AppliedCs.Lib.Text

namespace Cache

open Codec Text

inductive RespValue
  | simpleString (s : String)
  | error (s : String)
  | integer (i : Int64)
  | bulkString (data : Option Bytes)
  | array (items : Option (List RespValue))

def crlf : Bytes := [0x0D, 0x0A]

namespace RespValue

mutual

def serialize : RespValue → Bytes
  | simpleString s => 0x2B :: (asBytes s ++ crlf)
  | error s => 0x2D :: (asBytes s ++ crlf)
  | integer i => 0x3A :: (asBytes (toString i.toInt) ++ crlf)
  | bulkString none => 0x24 :: (asBytes "-1" ++ crlf)
  | bulkString (some data) =>
    0x24 :: (asBytes (toString data.length) ++ (crlf ++ (data ++ crlf)))
  | array none => 0x2A :: (asBytes "-1" ++ crlf)
  | array (some items) =>
    0x2A :: (asBytes (toString items.length) ++ (crlf ++ serializeAll items))

def serializeAll : List RespValue → Bytes
  | [] => []
  | item :: items => item.serialize ++ serializeAll items

end

end RespValue

inductive ParseError
  | invalidPrefix (byte : UInt8)
  | invalidInteger (s : String)
  | invalidUtf8
  | protocol (message : String)

-- A parser takes the front of the bytes and returns what is left, or nothing if more are needed.
abbrev Parsed (α : Type) := Option (α × Bytes)

-- The bytes in front of the first CR LF and those behind it.
def findCrlf : Bytes → Option (Bytes × Bytes)
  | [] => none
  | b :: rest =>
    if crlf <+: b :: rest then some ([], rest.drop 1)
    else (findCrlf rest).map fun p => (b :: p.1, p.2)

def fromUtf8 (data : Bytes) : Except ParseError String :=
  match String.fromUTF8? ⟨data.toArray⟩ with
  | none => .error .invalidUtf8
  | some s => .ok s

def parseDigits (digits : List Char) : Option ℕ :=
  if digits ≠ [] ∧ digits.all Char.isDigit then some (Nat.ofDigitChars 10 digits 0) else none

def parseSigned : List Char → Option ℤ
  | '-' :: digits => (parseDigits digits).map fun n => -n
  | '+' :: digits => (parseDigits digits).map fun n => n
  | digits => (parseDigits digits).map fun n => n

def parseI64 (s : String) : Option Int64 :=
  (parseSigned s.toList).bind fun n =>
    if Int64.minValue.toInt ≤ n ∧ n ≤ Int64.maxValue.toInt then some (.ofInt n) else none

def parseNumber (data : Bytes) : Except ParseError Int64 := do
  let s ← fromUtf8 data
  match parseI64 s with
  | none => .error (.invalidInteger s)
  | some i => .ok i

-- The rest of the line as a text or a number, and what comes behind it.
def parseLine {α : Type} (read : Bytes → Except ParseError α) (bs : Bytes) :
    Except ParseError (Parsed α) :=
  match findCrlf bs with
  | none => .ok none
  | some p => do
    let a ← read p.1
    return some (a, p.2)

variable (bs : Bytes)

def parseSimpleString : Except ParseError (Parsed RespValue) := do
  let r ← parseLine fromUtf8 bs
  return r.map fun p => (.simpleString p.1, p.2)

def parseError : Except ParseError (Parsed RespValue) := do
  let r ← parseLine fromUtf8 bs
  return r.map fun p => (.error p.1, p.2)

def parseInteger : Except ParseError (Parsed RespValue) := do
  let r ← parseLine parseNumber bs
  return r.map fun p => (.integer p.1, p.2)

def parseBulkString : Except ParseError (Parsed RespValue) := do
  match ← parseLine parseNumber bs with
  | none => return none
  | some (len, rest) =>
    if len = -1 then return some (.bulkString none, rest)
    else if len < 0 then .error (.protocol "Invalid bulk string length")
    else
      let n := len.toInt.toNat
      -- The two bytes behind the data are not looked at.
      if rest.length < n + 2 then return none
      else return some (.bulkString (some (rest.take n)), rest.drop (n + 2))

def parseItems (parseValue : Bytes → Except ParseError (Parsed RespValue)) :
    ℕ → Bytes → Except ParseError (Parsed (List RespValue))
  | 0, bs => .ok (some ([], bs))
  | len + 1, bs => do
    match ← parseValue bs with
    | none => return none
    | some (value, rest) =>
      let r ← parseItems parseValue len rest
      return r.map fun p => (value :: p.1, p.2)

def parseArray (parseValue : Bytes → Except ParseError (Parsed RespValue)) (bs : Bytes) :
    Except ParseError (Parsed RespValue) := do
  match ← parseLine parseNumber bs with
  | none => return none
  | some (len, rest) =>
    if len = -1 then return some (.array none, rest)
    else if len < 0 then .error (.protocol "Invalid array length")
    else
      let r ← parseItems parseValue len.toInt.toNat rest
      return r.map fun p => (.array (some p.1), p.2)

-- A value takes at least one byte, so that the number of bytes bounds the depth.
def parseValue : ℕ → Bytes → Except ParseError (Parsed RespValue)
  | 0, _ => .ok none
  | _ + 1, [] => .ok none
  | depth + 1, byte :: rest =>
    match byte with
    | 0x2B => parseSimpleString rest
    | 0x2D => parseError rest
    | 0x3A => parseInteger rest
    | 0x24 => parseBulkString rest
    | 0x2A => parseArray (parseValue depth) rest
    | _ => .error (.invalidPrefix byte)

structure RespParser where
  buffer : Bytes := []

namespace RespParser

def new : RespParser := {}

def feed (p : RespParser) (data : Bytes) : RespParser :=
  { p with buffer := p.buffer ++ data }

-- The value and the parser without its bytes. Without a value the parser is left as it is.
def parse (p : RespParser) : Except ParseError (Option (RespValue × RespParser)) := do
  let r ← parseValue p.buffer.length p.buffer
  return r.map fun r => (r.1, { p with buffer := r.2 })

end RespParser

namespace RespValue

def ok : RespValue := simpleString "OK"

def null : RespValue := bulkString none

def bulk (text : String) : RespValue := bulkString (some (Text.asBytes text))

def asStr : RespValue → Option String
  | simpleString s => some s
  | bulkString (some data) => String.fromUTF8? ⟨data.toArray⟩
  | _ => none

def asBytes : RespValue → Option Bytes
  | simpleString s => some (Text.asBytes s)
  | bulkString (some data) => some data
  | _ => none

def asInt : RespValue → Option Int64
  | integer i => some i
  | bulkString (some data) => (String.fromUTF8? ⟨data.toArray⟩).bind parseI64
  | _ => none

def intoArray : RespValue → Option (List RespValue)
  | array items => items
  | _ => none

def isError : RespValue → Bool
  | error _ => true
  | _ => false

end RespValue

end Cache
