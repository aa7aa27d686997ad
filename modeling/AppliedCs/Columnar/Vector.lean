import AppliedCs.Lib.Codec

open Codec

namespace Columnar

-- The last error stands for a panic.
inductive Error
  | type (message : String)
  | invalidOperation (message : String)
  | columnNotFound (message : String)
  | execution (message : String)
  | panic
  deriving DecidableEq, Repr

inductive DataType
  | boolean
  | int8
  | int16
  | int32
  | int64
  | uint8
  | uint16
  | uint32
  | uint64
  | float32
  | float64
  | string
  | binary
  | date
  | timestamp
  deriving DecidableEq, Repr

def DataType.debug : DataType → String
  | .boolean => "Boolean"
  | .int8 => "Int8"
  | .int16 => "Int16"
  | .int32 => "Int32"
  | .int64 => "Int64"
  | .uint8 => "UInt8"
  | .uint16 => "UInt16"
  | .uint32 => "UInt32"
  | .uint64 => "UInt64"
  | .float32 => "Float32"
  | .float64 => "Float64"
  | .string => "String"
  | .binary => "Binary"
  | .date => "Date"
  | .timestamp => "Timestamp"

-- Floating-point numbers are their bits.
inductive Value
  | null
  | boolean (b : Bool)
  | int8 (i : Int8)
  | int16 (i : Int16)
  | int32 (i : Int32)
  | int64 (i : Int64)
  | uint8 (i : UInt8)
  | uint16 (i : UInt16)
  | uint32 (i : UInt32)
  | uint64 (i : UInt64)
  | float32 (bits : UInt32)
  | float64 (bits : UInt64)
  | string (s : String)
  | binary (bs : Bytes)
  | date (days : Int32)
  | timestamp (micros : Int64)
  deriving DecidableEq

def Value.isNull : Value → Bool
  | .null => true
  | _ => false

inductive VectorData
  | boolean (v : List Bool)
  | int8 (v : List Int8)
  | int16 (v : List Int16)
  | int32 (v : List Int32)
  | int64 (v : List Int64)
  | uint8 (v : List UInt8)
  | uint16 (v : List UInt16)
  | uint32 (v : List UInt32)
  | uint64 (v : List UInt64)
  | float32 (v : List UInt32)
  | float64 (v : List UInt64)
  | string (v : List String)
  | binary (v : List Bytes)
  | constant (value : Value)
  deriving DecidableEq

structure Vector where
  dataType : DataType
  len : ℕ
  validity : List Bool
  data : VectorData
  deriving DecidableEq

-- Reading beyond the end panics.
def index {α : Type} (v : List α) (i : ℕ) : Except Error α :=
  match v[i]? with
  | some a => .ok a
  | none => .error .panic

def range {α : Type} (v : List α) (offset len : ℕ) : Except Error (List α) :=
  if offset + len ≤ v.length then
    .ok ((v.drop offset).take len)
  else
    .error .panic

namespace VectorData

def new : DataType → VectorData
  | .boolean => .boolean []
  | .int8 => .int8 []
  | .int16 => .int16 []
  | .int32 | .date => .int32 []
  | .int64 | .timestamp => .int64 []
  | .uint8 => .uint8 []
  | .uint16 => .uint16 []
  | .uint32 => .uint32 []
  | .uint64 => .uint64 []
  | .float32 => .float32 []
  | .float64 => .float64 []
  | .string => .string []
  | .binary => .binary []

def push : VectorData → Value → Except Error VectorData
  | .boolean v, .boolean b => .ok (.boolean (v ++ [b]))
  | .boolean v, .null => .ok (.boolean (v ++ [false]))
  | .int8 v, .int8 i => .ok (.int8 (v ++ [i]))
  | .int8 v, .null => .ok (.int8 (v ++ [0]))
  | .int16 v, .int16 i => .ok (.int16 (v ++ [i]))
  | .int16 v, .null => .ok (.int16 (v ++ [0]))
  | .int32 v, .int32 i => .ok (.int32 (v ++ [i]))
  | .int32 v, .date d => .ok (.int32 (v ++ [d]))
  | .int32 v, .null => .ok (.int32 (v ++ [0]))
  | .int64 v, .int64 i => .ok (.int64 (v ++ [i]))
  | .int64 v, .timestamp t => .ok (.int64 (v ++ [t]))
  | .int64 v, .null => .ok (.int64 (v ++ [0]))
  | .uint8 v, .uint8 i => .ok (.uint8 (v ++ [i]))
  | .uint8 v, .null => .ok (.uint8 (v ++ [0]))
  | .uint16 v, .uint16 i => .ok (.uint16 (v ++ [i]))
  | .uint16 v, .null => .ok (.uint16 (v ++ [0]))
  | .uint32 v, .uint32 i => .ok (.uint32 (v ++ [i]))
  | .uint32 v, .null => .ok (.uint32 (v ++ [0]))
  | .uint64 v, .uint64 i => .ok (.uint64 (v ++ [i]))
  | .uint64 v, .null => .ok (.uint64 (v ++ [0]))
  | .float32 v, .float32 f => .ok (.float32 (v ++ [f]))
  | .float32 v, .null => .ok (.float32 (v ++ [0]))
  | .float64 v, .float64 f => .ok (.float64 (v ++ [f]))
  | .float64 v, .null => .ok (.float64 (v ++ [0]))
  | .string v, .string s => .ok (.string (v ++ [s]))
  | .string v, .null => .ok (.string (v ++ [""]))
  | .binary v, .binary b => .ok (.binary (v ++ [b]))
  | .binary v, .null => .ok (.binary (v ++ [[]]))
  | _, _ => .error (.type "Type mismatch")

def get (dataType : DataType) (i : ℕ) : VectorData → Except Error Value
  | .boolean v => (index v i).map .boolean
  | .int8 v => (index v i).map .int8
  | .int16 v => (index v i).map .int16
  | .int32 v => (index v i).map (if dataType = .date then .date else .int32)
  | .int64 v => (index v i).map (if dataType = .timestamp then .timestamp else .int64)
  | .uint8 v => (index v i).map .uint8
  | .uint16 v => (index v i).map .uint16
  | .uint32 v => (index v i).map .uint32
  | .uint64 v => (index v i).map .uint64
  | .float32 v => (index v i).map .float32
  | .float64 v => (index v i).map .float64
  | .string v => (index v i).map .string
  | .binary v => (index v i).map .binary
  | .constant value => .ok value

def slice (offset len : ℕ) : VectorData → Except Error VectorData
  | .boolean v => (range v offset len).map .boolean
  | .int8 v => (range v offset len).map .int8
  | .int16 v => (range v offset len).map .int16
  | .int32 v => (range v offset len).map .int32
  | .int64 v => (range v offset len).map .int64
  | .uint8 v => (range v offset len).map .uint8
  | .uint16 v => (range v offset len).map .uint16
  | .uint32 v => (range v offset len).map .uint32
  | .uint64 v => (range v offset len).map .uint64
  | .float32 v => (range v offset len).map .float32
  | .float64 v => (range v offset len).map .float64
  | .string v => (range v offset len).map .string
  | .binary v => (range v offset len).map .binary
  | .constant value => .ok (.constant value)

end VectorData

namespace Vector

def new (dataType : DataType) : Vector :=
  ⟨dataType, 0, [], .new dataType⟩

-- A value of another type leaves its validity bit behind, but no caller below keeps the vector then.
def push (v : Vector) (value : Value) : Except Error Vector :=
  (v.data.push value).map fun data =>
    { v with len := v.len + 1, validity := v.validity ++ [!value.isNull], data := data }

def get (v : Vector) (i : ℕ) : Except Error Value :=
  if i ≥ v.len then
    .error (.invalidOperation "Index out of bounds")
  else
    match v.validity[i]? with
    | none => .error .panic
    | some false => .ok .null
    | some true => v.data.get v.dataType i

def slice (v : Vector) (offset len : ℕ) : Except Error Vector :=
  if offset + len > v.len then
    .error (.invalidOperation "Slice out of bounds")
  else do
    let validity ← range v.validity offset len
    let data ← v.data.slice offset len
    return ⟨v.dataType, len, validity, data⟩

end Vector

structure DataChunk where
  vectors : List Vector
  len : ℕ
  deriving DecidableEq

namespace DataChunk

def new (vectors : List Vector) : DataChunk :=
  ⟨vectors, (vectors.head?.map (·.len)).getD 0⟩

def slice (chunk : DataChunk) (offset len : ℕ) : Except Error DataChunk :=
  (chunk.vectors.mapM fun v : Vector => v.slice offset len).map (⟨·, len⟩)

end DataChunk

end Columnar
