import AppliedCs.Lib.Codec
import AppliedCs.Tsdb.Types

namespace Tsdb

open Codec

def slice {α : Type} (data : List α) (start stop : ℕ) : Result (List α) :=
  if start ≤ stop ∧ stop ≤ data.length then .ok ((data.take stop).drop start) else .error .panic

def sliceFrom (data : Bytes) (start : ℕ) : Result Bytes :=
  slice data start data.length

def encodeVarint (value : UInt64) : Bytes :=
  let byte := (value &&& 0x7F).toUInt8
  if value >>> 7 = 0 then [byte] else (byte ||| 0x80) :: encodeVarint (value >>> 7)
termination_by value.toNat
decreasing_by
  rename_i h
  have hz : (value >>> 7).toNat ≠ 0 := fun hz => h <| UInt64.toNat_inj.mp hz
  rw [UInt64.toNat_shiftRight, Nat.shiftRight_eq_div_pow] at hz ⊢
  simp at hz ⊢
  omega

def decodeVarintFrom (result : UInt64) (shift i : ℕ) : Bytes → Result (UInt64 × ℕ)
  | [] => .error (.error (.decompression "Incomplete varint"))
  | byte :: data =>
    if shift ≥ 64 then .error (.error (.decompression "Varint overflow"))
    else
      let result := result ||| (byte &&& 0x7F).toUInt64 <<< UInt64.ofNat shift
      if byte &&& 0x80 = 0 then .ok (result, i + 1)
      else decodeVarintFrom result (shift + 7) (i + 1) data

variable (data : Bytes)

-- The value and the number of bytes that it takes.
def decodeVarint : Result (UInt64 × ℕ) :=
  decodeVarintFrom 0 0 0 data

def encodeSignedVarint (value : Int64) : Bytes :=
  encodeVarint (value <<< 1 ^^^ value >>> 63).toUInt64

def decodeSignedVarint : Result (Int64 × ℕ) := do
  let p ← decodeVarint data
  return ((p.1 >>> 1).toInt64 ^^^ -(p.1 &&& 1).toInt64, p.2)

structure DeltaEncoder where
  prevValue : Int64 := 0
  prevDelta : Int64 := 0
  count : ℕ := 0
  buffer : Bytes := []

namespace DeltaEncoder

def encode (e : DeltaEncoder) (value : Int64) : DeltaEncoder :=
  match e.count with
  | 0 =>
    { e with
      buffer := e.buffer ++ encodeSignedVarint value
      prevValue := value
      count := e.count + 1 }
  | 1 =>
    let delta := value - e.prevValue
    { buffer := e.buffer ++ encodeSignedVarint delta
      prevDelta := delta
      prevValue := value
      count := e.count + 1 }
  | _ =>
    let delta := value - e.prevValue
    let deltaOfDelta := delta - e.prevDelta
    { buffer := e.buffer ++ encodeSignedVarint deltaOfDelta
      prevDelta := delta
      prevValue := value
      count := e.count + 1 }

def encodeAll (e : DeltaEncoder) (values : List Int64) : DeltaEncoder :=
  values.foldl encode e

end DeltaEncoder

structure DeltaDecoder where
  prevValue : Int64 := 0
  prevDelta : Int64 := 0
  count : ℕ := 0

namespace DeltaDecoder

-- The value, the decoder and the offset after it.
def decode (d : DeltaDecoder) (data : Bytes) (offset : ℕ) : Result (Int64 × DeltaDecoder × ℕ) := do
  let rest ← sliceFrom data offset
  let raw ← decodeSignedVarint rest
  let offset := offset + raw.2
  match d.count with
  | 0 => return (raw.1, { d with prevValue := raw.1, count := d.count + 1 }, offset)
  | 1 =>
    let value := d.prevValue + raw.1
    return (value, { prevDelta := raw.1, prevValue := value, count := d.count + 1 }, offset)
  | _ =>
    let delta := d.prevDelta + raw.1
    let value := d.prevValue + delta
    return (value, { prevDelta := delta, prevValue := value, count := d.count + 1 }, offset)

def decodeFrom (d : DeltaDecoder) (data : Bytes) (offset : ℕ) : ℕ → Result (List Int64)
  | 0 => .ok []
  | count + 1 =>
    if offset ≥ data.length then .error (.error (.decompression "Unexpected end of data"))
    else do
      let p ← d.decode data offset
      let values ← p.2.1.decodeFrom data p.2.2 count
      return p.1 :: values

def decodeAll (d : DeltaDecoder) (data : Bytes) (count : ℕ) : Result (List Int64) :=
  d.decodeFrom data 0 count

end DeltaDecoder

def compressTimestamps (timestamps : List Timestamp) : Bytes :=
  if timestamps.isEmpty then []
  else
    encodeVarint (UInt64.ofNat timestamps.length) ++ (DeltaEncoder.encodeAll {} timestamps).buffer

def decompressTimestamps : Result (List Timestamp) :=
  if data.isEmpty then .ok []
  else do
    let count ← decodeVarint data
    DeltaDecoder.decodeAll {} (data.drop count.2) count.1.toNat

-- The deltas from `prev` on.
def simpleDeltas (prev : Int64) : List Int64 → Bytes
  | [] => []
  | value :: values => encodeSignedVarint (value - prev) ++ simpleDeltas value values

def simpleDeltaEncode : List Int64 → Bytes
  | [] => []
  | value :: values => encodeSignedVarint value ++ simpleDeltas value values

-- The loop of `simple_delta_decode`.
def simpleDeltaDecodeFrom (data : Bytes) (prev : Int64) (offset : ℕ) : ℕ → Result (List Int64)
  | 0 => .ok []
  | count + 1 =>
    if offset ≥ data.length then .error (.error (.decompression "Unexpected end of data"))
    else do
      let delta ← decodeSignedVarint (data.drop offset)
      let values ← simpleDeltaDecodeFrom data (prev + delta.1) (offset + delta.2) count
      return (prev + delta.1) :: values

def simpleDeltaDecode (count : ℕ) : Result (List Int64) :=
  if data.isEmpty ∨ count = 0 then .ok []
  else do
    let first ← decodeSignedVarint data
    let values ← simpleDeltaDecodeFrom data first.1 first.2 (count - 1)
    return first.1 :: values

inductive CompressionType
  | none
  | delta
  | gorilla
  | rle
  | deltaGorilla
  deriving DecidableEq

namespace CompressionType

def toByte : CompressionType → UInt8
  | none => 0
  | delta => 1
  | gorilla => 2
  | rle => 3
  | deltaGorilla => 4

def tryFrom (value : UInt8) : Result CompressionType :=
  match value.toNat with
  | 0 => .ok none
  | 1 => .ok delta
  | 2 => .ok gorilla
  | 3 => .ok rle
  | 4 => .ok deltaGorilla
  | _ => .error (.error (.invalidFormat s!"Unknown compression type: {value}"))

def debug : CompressionType → String
  | none => "None"
  | delta => "Delta"
  | gorilla => "Gorilla"
  | rle => "Rle"
  | deltaGorilla => "DeltaGorilla"

end CompressionType

def compressPoints (points : List DataPoint) : Bytes :=
  if points.isEmpty then []
  else
    let compressedTimestamps := compressTimestamps (points.map (·.timestamp))
    let compressedValues := compressValues (points.map (·.value))
    [CompressionType.deltaGorilla.toByte] ++ encodeVarint (UInt64.ofNat points.length) ++
      encodeVarint (UInt64.ofNat compressedTimestamps.length) ++ compressedTimestamps ++
        compressedValues

def decompressPoints : Result (List DataPoint) :=
  match data with
  | [] => .ok []
  | byte :: rest => do
    let compressionType ← CompressionType.tryFrom byte
    if compressionType ≠ .deltaGorilla then
      let name := compressionType.debug
      .error (.error (.invalidFormat s!"Unsupported compression type: {name}"))
    else
      let count ← decodeVarint rest
      let rest := rest.drop count.2
      let tsLen ← decodeVarint rest
      let rest := rest.drop tsLen.2
      -- The slice of the timestamps has to lie inside the data.
      if rest.length < tsLen.1.toNat then .error .panic
      else
        let timestamps ← decompressTimestamps (rest.take tsLen.1.toNat)
        let values ← decompressValues (rest.drop tsLen.1.toNat) count.1.toNat
        return (timestamps.zip values).map fun (timestamp, value) => { timestamp, value }

end Tsdb
