import AppliedCs.Columnar.Vector
import AppliedCs.Lib.Text

open Codec

namespace Columnar

class Json where
  valueToVec : Value → Except String Bytes

-- A text stays as it is, and the bytes of a text that is cut short may get a replacement character
-- of three bytes in the place of its last ones.
class LossyUtf8 where
  fromUtf8Lossy : Bytes → String
  fromUtf8Lossy_asBytes : ∀ s, fromUtf8Lossy (Text.asBytes s) = s
  length_le : ∀ s n, (Text.asBytes (fromUtf8Lossy ((Text.asBytes s).take n))).length ≤ n + 2

structure ColumnChunk where
  dataType : DataType
  data : Bytes
  deriving DecidableEq

def encodeBool (b : Bool) : Bytes :=
  [if b then 1 else 0]

def encodeInt32 (i : Int32) : Bytes :=
  encodeLE 4 i.toUInt32.toNat

def encodeInt64 (i : Int64) : Bytes :=
  encodeLE 8 i.toUInt64.toNat

def encodeFloat64 (bits : UInt64) : Bytes :=
  encodeLE 8 bits.toNat

-- The length is written with four bytes, whatever it is.
def encodePrefixed (bs : Bytes) : Bytes :=
  encodeLE 4 bs.length ++ bs

def encodeVectorData [Json] (v : Vector) : Except Error Bytes := do
  let validity := encodePrefixed (v.validity.flatMap encodeBool)
  let values ←
    match v.data with
    | .int64 values => .ok (values.flatMap encodeInt64)
    | .float64 values => .ok (values.flatMap encodeFloat64)
    | .string values => .ok (values.flatMap fun s => encodePrefixed (Text.asBytes s))
    | .boolean values => .ok (values.flatMap encodeBool)
    | .int32 values => .ok (values.flatMap encodeInt32)
    | _ => do
      let json ← (List.range v.len).mapM fun i => do
        let value ← v.get i
        match Json.valueToVec value with
        | .ok json => .ok (encodePrefixed json)
        | .error msg => .error (.execution msg)
      return json.flatten
  return validity ++ values

def encodeColumn [Json] (v : Vector) : Except Error ColumnChunk :=
  (encodeVectorData v).map (⟨v.dataType, ·⟩)

def fromLE (bs : Bytes) : ℕ :=
  ((decodeLE bs.length bs).map Prod.fst).getD 0

-- A value of fixed width is read at the place of its row, a NULL is not read at all.
def readFixed (data : Bytes) (offset width : ℕ) (value : ℕ → Value) (row : Bool × ℕ) :
    Except Error Value :=
  if row.1 then
    (range data (offset + row.2 * width) width).map (value <| fromLE ·)
  else
    .ok .null

def decodeFixed (data : Bytes) (offset width : ℕ) (value : ℕ → Value) (validity : List Bool) :
    Except Error (List Value) :=
  validity.zipIdx.mapM (readFixed data offset width value)

-- The offset moves on only for the values that are not NULL.
def decodeStrings [LossyUtf8] (data : Bytes) : ℕ → List Bool → Except Error (List Value)
  | _, [] => .ok []
  | offset, false :: validity => do
    return .null :: (← decodeStrings data offset validity)
  | offset, true :: validity => do
    let len ← (range data offset 4).map fromLE
    let bytes ← range data (offset + 4) len
    return .string (LossyUtf8.fromUtf8Lossy bytes) ::
      (← decodeStrings data (offset + 4 + len) validity)

def decodeValues [LossyUtf8] (chunk : ColumnChunk) (offset : ℕ) (validity : List Bool) :
    Except Error (List Value) :=
  match chunk.dataType with
  | .int64 => decodeFixed chunk.data offset 8 (.int64 <| UInt64.toInt64 <| .ofNat ·) validity
  | .timestamp =>
    decodeFixed chunk.data offset 8 (.timestamp <| UInt64.toInt64 <| .ofNat ·) validity
  | .float64 => decodeFixed chunk.data offset 8 (.float64 <| .ofNat ·) validity
  | .int32 => decodeFixed chunk.data offset 4 (.int32 <| UInt32.toInt32 <| .ofNat ·) validity
  | .date => decodeFixed chunk.data offset 4 (.date <| UInt32.toInt32 <| .ofNat ·) validity
  | .boolean => decodeFixed chunk.data offset 1 (.boolean <| · != 0) validity
  | .string => decodeStrings chunk.data offset validity
  | dataType => .error (.type ("Unsupported type for decoding: " ++ dataType.debug))

def decodeColumn [LossyUtf8] (chunk : ColumnChunk) : Except Error Vector := do
  let validityLen ← (range chunk.data 0 4).map fromLE
  let validity ← range chunk.data 4 validityLen
  let values ← decodeValues chunk (4 + validityLen) (validity.map (· != 0))
  values.foldlM Vector.push (.new chunk.dataType)

structure RowGroup where
  numRows : ℕ
  columns : List ColumnChunk
  deriving DecidableEq

namespace RowGroup

variable [LossyUtf8]

def readColumn (group : RowGroup) (i : ℕ) : Except Error Vector :=
  match group.columns[i]? with
  | some chunk => decodeColumn chunk
  | none => .error (.columnNotFound ("Column index " ++ toString i))

def read (group : RowGroup) (columns : List ℕ) : Except Error DataChunk :=
  (columns.mapM group.readColumn).map .new

end RowGroup

structure Table where
  numColumns : ℕ
  rowGroups : List RowGroup
  deriving DecidableEq

namespace Table

def new (numColumns : ℕ) : Table :=
  ⟨numColumns, []⟩

def buildRowGroup [Json] (chunk : DataChunk) : Except Error RowGroup :=
  (chunk.vectors.mapM encodeColumn).map (⟨chunk.len, ·⟩)

-- An error leaves the table as it is.
def insert [Json] (t : Table) (chunk : DataChunk) : Except Error Unit × Table :=
  if chunk.vectors.length ≠ t.numColumns then
    (.error (.invalidOperation "Column count mismatch"), t)
  else
    match buildRowGroup chunk with
    | .error e => (.error e, t)
    | .ok group => (.ok (), { t with rowGroups := t.rowGroups ++ [group] })

end Table

-- The row groups that are left, with the offset in the first of them.
structure TableScanner where
  rowGroups : List RowGroup
  columns : List ℕ
  offset : ℕ
  deriving DecidableEq

def vectorSize : ℕ :=
  2048

namespace TableScanner

def new (t : Table) (columns : List ℕ) : TableScanner :=
  ⟨t.rowGroups, columns, 0⟩

def nextFrom [LossyUtf8] (columns : List ℕ) (batchSize : ℕ) :
    List RowGroup → ℕ → Except Error (Option (DataChunk × TableScanner))
  | [], _ => .ok none
  | group :: rest, offset =>
    let remaining := group.numRows - offset
    if remaining = 0 then
      nextFrom columns batchSize rest 0
    else do
      let len := min remaining batchSize
      let chunk ← group.read columns
      let result ← chunk.slice offset len
      return some (result, ⟨group :: rest, columns, offset + len⟩)

def nextBatch [LossyUtf8] (scanner : TableScanner) (batchSize : ℕ) :
    Except Error (Option (DataChunk × TableScanner)) :=
  nextFrom scanner.columns batchSize scanner.rowGroups scanner.offset

def next [LossyUtf8] (scanner : TableScanner) : Except Error (Option (DataChunk × TableScanner)) :=
  scanner.nextBatch vectorSize

end TableScanner

end Columnar
