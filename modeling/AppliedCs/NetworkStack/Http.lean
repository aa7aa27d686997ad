import AppliedCs.Lib.Text
import Mathlib.Data.List.AList
import Mathlib.Data.List.DropRight
import Mathlib.Data.List.Infix

open Codec

namespace NetworkStack

-- The last error stands for the panic of an `unwrap`.
inductive HttpError
  | parse (message : String)
  | unwrapNone
  deriving DecidableEq, Repr

-- Upper and lower case of Unicode.
class CaseMapping where
  toUppercase : String → String
  toLowercase : String → String

inductive HttpVersion
  | http10
  | http11
  deriving DecidableEq, Repr

def HttpVersion.parse (s : String) : Except HttpError HttpVersion :=
  match s with
  | "HTTP/1.0" => .ok .http10
  | "HTTP/1.1" => .ok .http11
  | _ => .error (.parse ("Unknown HTTP version: " ++ s))

inductive Method
  | get
  | post
  | put
  | delete
  | head
  | options
  | patch
  | connect
  | trace
  deriving DecidableEq, Repr

def Method.parse [CaseMapping] (s : String) : Except HttpError Method :=
  match CaseMapping.toUppercase s with
  | "GET" => .ok .get
  | "POST" => .ok .post
  | "PUT" => .ok .put
  | "DELETE" => .ok .delete
  | "HEAD" => .ok .head
  | "OPTIONS" => .ok .options
  | "PATCH" => .ok .patch
  | "CONNECT" => .ok .connect
  | "TRACE" => .ok .trace
  | _ => .error (.parse ("Unknown HTTP method: " ++ s))

-- The characters with the property White_Space.
def isWhitespace (c : Char) : Bool :=
  (0x9 ≤ c.val && c.val ≤ 0xD) || c.val == 0x20 || c.val == 0x85 || c.val == 0xA0 ||
    c.val == 0x1680 || (0x2000 ≤ c.val && c.val ≤ 0x200A) || c.val == 0x2028 || c.val == 0x2029 ||
    c.val == 0x202F || c.val == 0x205F || c.val == 0x3000

def splitWhitespace (s : String) : List String :=
  ((s.toList.splitOnP isWhitespace).filter (!·.isEmpty)).map .ofList

def trim (cs : List Char) : String :=
  .ofList ((cs.dropWhile isWhitespace).rdropWhile isWhitespace)

def toDigit (radix : ℕ) (c : Char) : Option ℕ :=
  let digit :=
    if '0' ≤ c ∧ c ≤ '9' then some (c.toNat - '0'.toNat)
    else if 'a' ≤ c ∧ c ≤ 'z' then some (c.toNat - 'a'.toNat + 10)
    else if 'A' ≤ c ∧ c ≤ 'Z' then some (c.toNat - 'A'.toNat + 10)
    else none
  digit.filter (· < radix)

-- Unsigned numbers below a bound. A plus sign in front of the digits is allowed.
def fromStrRadix (radix bound : ℕ) (s : String) : Option ℕ :=
  let digits :=
    match s.toList with
    | '+' :: d :: ds => d :: ds
    | cs => cs
  if digits.isEmpty then
    none
  else
    (digits.mapM (toDigit radix)).bind fun ds =>
      let n := ds.foldl (fun n d => n * radix + d) 0
      if n < bound then some n else none

abbrev Headers := AList fun _ : String => List String

namespace Headers

variable [CaseMapping] (headers : Headers)

def get (name : String) : Option String :=
  (headers.lookup (CaseMapping.toLowercase name)).bind (·.head?)

def append (name value : String) : Headers :=
  let key := CaseMapping.toLowercase name
  headers.insert key ((headers.lookup key).getD [] ++ [value])

def contentLength : Option ℕ :=
  (headers.get "content-length").bind (fromStrRadix 10 UInt64.size)

def isChunked : Bool :=
  match headers.get "transfer-encoding" with
  | some v => "chunked".toList <:+: (CaseMapping.toLowercase v).toList
  | none => false

end Headers

-- Requests and responses differ in their first line.
structure Message (S : Type) where
  start : S
  headers : Headers
  body : Bytes

structure RequestLine where
  method : Method
  uri : String
  version : HttpVersion
  deriving DecidableEq, Repr

structure StatusLine where
  version : HttpVersion
  status : UInt16
  deriving DecidableEq, Repr

abbrev Request := Message RequestLine
abbrev Response := Message StatusLine

inductive ParserState
  | requestLine
  | headers
  | body
  | chunked
  | complete
  deriving DecidableEq, Repr

inductive ChunkState
  | size
  | data (remaining : ℕ)
  | dataEnd
  | trailer
  deriving DecidableEq, Repr

structure Parser (S : Type) where
  state : ParserState
  buffer : Bytes
  message : Option (Message S)
  bodyRemaining : ℕ
  chunkState : ChunkState

def findLineEnd : Bytes → Option ℕ
  | a :: b :: bs => if a = 13 ∧ b = 10 then some 0 else (findLineEnd (b :: bs)).map (· + 1)
  | _ => none

-- The line at the front of the buffer and what follows its line break.
def takeLine (buffer : Bytes) : Option (Bytes × Bytes) :=
  (findLineEnd buffer).map fun lineEnd => (buffer.take lineEnd, buffer.drop (lineEnd + 2))

def fromUtf8 (message : String) (bs : Bytes) : Except HttpError String :=
  match String.fromUTF8? ⟨bs.toArray⟩ with
  | some s => .ok s
  | none => .error (.parse message)

def parseChunkSize (line : Bytes) : Except HttpError ℕ := do
  let line ← fromUtf8 "Invalid chunk size" line
  let sizeStr := trim (line.toList.takeWhile (· ≠ ';'))
  match fromStrRadix 16 UInt64.size sizeStr with
  | none => .error (.parse "Invalid chunk size")
  | some size => return size

namespace Parser

variable {S : Type}

def new : Parser S :=
  ⟨.requestLine, [], none, 0, .size⟩

variable (p : Parser S)

def reset : Parser S :=
  { p with state := .requestLine, message := none, bodyRemaining := 0, chunkState := .size }

-- The functions below are single rounds: `some` where the source goes on with its loops, `none`
-- where it returns that it needs more data.
def onLine (act : Parser S → Bytes → Except HttpError (Parser S)) :
    Except HttpError (Option (Parser S)) :=
  match takeLine p.buffer with
  | none => .ok none
  | some (line, rest) => (act { p with buffer := rest } line).map some

def onBytes (n : ℕ) (act : Parser S → Bytes → Parser S) : Except HttpError (Option (Parser S)) :=
  if p.buffer.length ≥ n then
    .ok (some (act { p with buffer := p.buffer.drop n } (p.buffer.take n)))
  else
    .ok none

def parseStartLine (read : Bytes → Except HttpError S) (p : Parser S) :
    Except HttpError (Option (Parser S)) :=
  p.onLine fun p line => (read line).map fun start =>
    { p with message := some ⟨start, ∅, []⟩, state := .headers }

def selectBody [CaseMapping] (p : Parser S) (headers : Headers) : Parser S :=
  if headers.isChunked then
    { p with state := .chunked }
  else
    match headers.contentLength with
    | some len => { p with bodyRemaining := len, state := .body }
    | none => { p with state := .complete }

def endHeaders [CaseMapping] (p : Parser S) : Except HttpError (Parser S) :=
  match p.message with
  | some message => .ok (p.selectBody message.headers)
  | none => .error .unwrapNone

def addHeader [CaseMapping] (line : String) (message : Message S) : Message S :=
  match line.toList.span (· ≠ ':') with
  | (name, _ :: value) =>
    { message with headers := message.headers.append (trim name) (trim value) }
  | _ => message

def parseHeaders [CaseMapping] (p : Parser S) : Except HttpError (Option (Parser S)) :=
  p.onLine fun p line =>
    if line.isEmpty then
      p.endHeaders
    else
      (fromUtf8 "Invalid UTF-8 in header" line).map fun line =>
        { p with message := p.message.map (addHeader line) }

def parseBody : Except HttpError (Option (Parser S)) :=
  p.onBytes p.bodyRemaining fun p data =>
    { p with
      message := p.message.map fun message => { message with body := data }
      state := .complete }

def parseChunked : Except HttpError (Option (Parser S)) :=
  match p.chunkState with
  | .size =>
    p.onLine fun p line => (parseChunkSize line).map fun size =>
      { p with chunkState := if size = 0 then .trailer else .data size }
  | .data remaining =>
    p.onBytes remaining fun p data =>
      { p with
        message := p.message.map fun message => { message with body := message.body ++ data }
        chunkState := .dataEnd }
  | .dataEnd => p.onBytes 2 fun p _ => { p with chunkState := .size }
  | .trailer =>
    p.onLine fun p line => .ok (if line.isEmpty then { p with state := .complete } else p)

def parse [CaseMapping] (read : Bytes → Except HttpError S) :
    ℕ → Parser S → Except HttpError (Option (Message S) × Parser S)
  | 0, p => .ok (none, p)
  | n + 1, p =>
    let next (r : Except HttpError (Option (Parser S))) :=
      match r with
      | .error e => .error e
      | .ok none => .ok (none, p)
      | .ok (some p') => parse read n p'
    match p.state with
    | .requestLine => next (p.parseStartLine read)
    | .headers => next p.parseHeaders
    | .body => next p.parseBody
    | .chunked => next p.parseChunked
    | .complete => .ok (p.message, p.reset)

-- Every round takes bytes off the buffer or brings the message closer to its end, so that the
-- rounds are bounded by the length of the buffer.
def feed [CaseMapping] (read : Bytes → Except HttpError S) (p : Parser S) (data : Bytes) :
    Except HttpError (Option (Message S) × Parser S) :=
  let p := { p with buffer := p.buffer ++ data }
  p.parse read (2 * p.buffer.length + 3)

end Parser

def parseRequestLine [CaseMapping] (line : Bytes) : Except HttpError RequestLine := do
  let line ← fromUtf8 "Invalid UTF-8 in request line" line
  match splitWhitespace line with
  | [method, uri, version] =>
    let method ← Method.parse method
    let version ← HttpVersion.parse version
    return ⟨method, uri, version⟩
  | _ => .error (.parse "Invalid request line")

def parseStatusLine (line : Bytes) : Except HttpError StatusLine := do
  let line ← fromUtf8 "Invalid UTF-8 in status line" line
  let (version, rest) := line.toList.span (· ≠ ' ')
  let version ← HttpVersion.parse (.ofList version)
  match rest with
  | [] => .error (.parse "Missing status code")
  | _ :: rest =>
    match fromStrRadix 10 UInt16.size (.ofList (rest.takeWhile (· ≠ ' '))) with
    | none => .error (.parse "Invalid status code")
    | some status => return ⟨version, status.toUInt16⟩

abbrev RequestParser := Parser RequestLine
abbrev ResponseParser := Parser StatusLine

def RequestParser.feed [CaseMapping] : RequestParser → Bytes →
    Except HttpError (Option Request × RequestParser) :=
  Parser.feed parseRequestLine

def ResponseParser.feed [CaseMapping] : ResponseParser → Bytes →
    Except HttpError (Option Response × ResponseParser) :=
  Parser.feed parseStatusLine

end NetworkStack
