import AppliedCs.Tsdb.Basic

namespace Tsdb

-- Values are the bits of an `f64`.
abbrev Value := BitVec 64

structure BitBuffer where
  data : List UInt8 := []
  currentByte : UInt8 := 0
  bitCount : Nat := 0

namespace BitBuffer

def writeBit (b : BitBuffer) (bit : Bool) : BitBuffer :=
  let currentByte :=
    if bit then b.currentByte ||| 1 <<< UInt8.ofNat (7 - b.bitCount) else b.currentByte
  if b.bitCount + 1 = 8 then { data := b.data ++ [currentByte] }
  else { b with currentByte, bitCount := b.bitCount + 1 }

def writeBits (b : BitBuffer) (value : BitVec 64) : Nat → BitBuffer
  | 0 => b
  | i + 1 => (b.writeBit (value >>> i &&& 1 == 1)).writeBits value i

def finish (b : BitBuffer) : List UInt8 :=
  if b.bitCount > 0 then b.data ++ [b.currentByte] else b.data

end BitBuffer

structure BitReader where
  data : List UInt8
  byteIndex : Nat := 0
  bitIndex : Nat := 0

namespace BitReader

def readBit (r : BitReader) : Result (Bool × BitReader) :=
  match r.data[r.byteIndex]? with
  | none => .error (.error (.decompression "Unexpected end of data"))
  | some byte =>
    let bit := byte >>> UInt8.ofNat (7 - r.bitIndex) &&& 1 == 1
    if r.bitIndex + 1 = 8 then .ok (bit, { r with byteIndex := r.byteIndex + 1, bitIndex := 0 })
    else .ok (bit, { r with bitIndex := r.bitIndex + 1 })

def readBitsFrom (result : BitVec 64) (r : BitReader) : Nat → Result (BitVec 64 × BitReader)
  | 0 => .ok (result, r)
  | numBits + 1 => do
    let p ← r.readBit
    p.2.readBitsFrom (result <<< 1 ||| BitVec.ofNat 64 p.1.toNat) numBits

def readBits (r : BitReader) (numBits : Nat) : Result (BitVec 64 × BitReader) :=
  r.readBitsFrom 0 numBits

end BitReader

-- The number `64 - a - b` of a `u8`.
def remaining (a b : Nat) : Nat :=
  (64 + 512 - a - b) % 256

-- The largest `u8` marks that there is no previous window.
structure GorillaEncoder where
  prevValue : Value := 0
  prevLeading : Nat := 255
  prevTrailing : Nat := 0
  count : Nat := 0
  buffer : BitBuffer := {}

namespace GorillaEncoder

variable (e : GorillaEncoder)

def encodeXor (xor : BitVec 64) : GorillaEncoder :=
  let leading := xor.clz.toNat
  let trailing := xor.ctz.toNat
  if leading ≥ e.prevLeading ∧ trailing ≥ e.prevTrailing ∧ e.prevLeading ≠ 255 then
    let buffer := e.buffer.writeBit false
    let meaningfulBits := remaining e.prevLeading e.prevTrailing
    { e with buffer := buffer.writeBits (xor >>> e.prevTrailing) meaningfulBits }
  else
    let buffer := e.buffer.writeBit true
    let leadingClamped := min leading 31
    let buffer := buffer.writeBits (BitVec.ofNat 64 leadingClamped) 5
    let meaningfulBits := remaining leading trailing
    let lengthToWrite := if meaningfulBits = 64 then 0 else meaningfulBits
    let buffer := buffer.writeBits (BitVec.ofNat 64 lengthToWrite) 6
    { e with
      buffer := buffer.writeBits (xor >>> trailing) meaningfulBits
      prevLeading := leadingClamped
      prevTrailing := trailing }

def encode (bits : Value) : GorillaEncoder :=
  let e' :=
    if e.count = 0 then { e with buffer := e.buffer.writeBits bits 64 }
    else
      let xor := bits ^^^ e.prevValue
      if xor = 0 then { e with buffer := e.buffer.writeBit false }
      else { e with buffer := e.buffer.writeBit true }.encodeXor xor
  { e' with prevValue := bits, count := e.count + 1 }

def encodeAll (values : List Value) : GorillaEncoder :=
  values.foldl encode e

def finish (e : GorillaEncoder) : List UInt8 :=
  e.buffer.finish

end GorillaEncoder

structure GorillaDecoder where
  prevValue : Value := 0
  prevLeading : Nat := 0
  prevTrailing : Nat := 0
  count : Nat := 0

namespace GorillaDecoder

variable (d : GorillaDecoder)

def decodeXor (r : BitReader) : Result (BitVec 64 × GorillaDecoder × BitReader) := do
  let newWindow ← r.readBit
  if newWindow.1 = false then
    let bits ← uintSub 64 d.prevLeading
    let bits ← uintSub bits d.prevTrailing
    let value ← newWindow.2.readBits bits
    return (value.1 <<< (d.prevTrailing % 64), d, value.2)
  else
    let leading ← newWindow.2.readBits 5
    let length ← leading.2.readBits 6
    let meaningfulBits := if length.1.toNat = 0 then 64 else length.1.toNat
    let bits ← uintSub 64 leading.1.toNat
    let trailing ← uintSub bits meaningfulBits
    let value ← length.2.readBits meaningfulBits
    return (value.1 <<< (trailing % 64),
      { d with prevLeading := leading.1.toNat, prevTrailing := trailing }, value.2)

def decode (r : BitReader) : Result (Value × GorillaDecoder × BitReader) := do
  let p ←
    if d.count = 0 then do
      let bits ← r.readBits 64
      pure (bits.1, d, bits.2)
    else do
      let changed ← r.readBit
      if changed.1 = false then pure (d.prevValue, d, changed.2)
      else do
        let xor ← d.decodeXor changed.2
        pure (d.prevValue ^^^ xor.1, xor.2)
  return (p.1, { p.2.1 with prevValue := p.1, count := d.count + 1 }, p.2.2)

def decodeFrom (d : GorillaDecoder) (r : BitReader) : Nat → Result (List Value)
  | 0 => .ok []
  | count + 1 => do
    let p ← d.decode r
    let values ← p.2.1.decodeFrom p.2.2 count
    return p.1 :: values

def decodeAll (data : List UInt8) (count : Nat) : Result (List Value) :=
  d.decodeFrom { data } count

end GorillaDecoder

def compressValues (values : List Value) : List UInt8 :=
  (GorillaEncoder.encodeAll {} values).finish

def decompressValues (data : List UInt8) (count : Nat) : Result (List Value) :=
  GorillaDecoder.decodeAll {} data count

end Tsdb
