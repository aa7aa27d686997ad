import AppliedCs.Tsdb.Wal

namespace Tsdb

open Codec WalEntry List

structure RleEncoder where
  currentValue : Option UInt64 := none
  runLength : UInt64 := 0
  buffer : Bytes := []

namespace RleEncoder

variable (e : RleEncoder)

def flushRun : RleEncoder :=
  match e.currentValue with
  | none => e
  | some value =>
    { e with buffer := e.buffer ++ encodeVarint value ++ encodeVarint e.runLength }

def encode (value : UInt64) : RleEncoder :=
  match e.currentValue with
  | none => { e with currentValue := some value, runLength := 1 }
  | some v =>
    if v = value then { e with runLength := e.runLength + 1 }
    else { e.flushRun with currentValue := some value, runLength := 1 }

def encodeAll (values : List UInt64) : RleEncoder :=
  values.foldl encode e

def finish : Bytes :=
  e.flushRun.buffer

end RleEncoder

-- The loop of `decode_all` over the bytes behind the offset. Every round takes a byte at least.
def decodeRuns : ℕ → Bytes → Result (List UInt64)
  | 0, _ | _, [] => .ok []
  | fuel + 1, data => do
    let value ← takeVarint data
    if value.2.isEmpty then .error (.error (.decompression "Incomplete RLE data"))
    else
      let count ← takeVarint value.2
      let values ← decodeRuns fuel count.2
      return replicate count.1.toNat value.1 ++ values

def rleCompress (values : List UInt64) : Bytes :=
  (RleEncoder.encodeAll {} values).finish

def rleDecompress (data : Bytes) : Result (List UInt64) :=
  decodeRuns data.length data

end Tsdb
