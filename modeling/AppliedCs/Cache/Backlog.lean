import AppliedCs.Lib.Codec
import AppliedCs.Lib.Ring

namespace Cache

open Codec

-- Counters of 64 bits, which wrap. Vectors do not have as many bytes.
structure ReplicationBacklog where
  buffer : Bytes
  capacity : ℕ
  writePos : ℕ := 0
  startOffset : ℕ := 0
  totalWritten : ℕ := 0
  wrapped : Bool := false

namespace ReplicationBacklog

def new (capacity : ℕ) : ReplicationBacklog :=
  { buffer := List.replicate capacity 0, capacity }

-- The loop that writes. There is no result if it does not end within that many rounds, or panics.
def writeLoop : ℕ → ReplicationBacklog → Bytes → Option ReplicationBacklog
  | 0, b, remaining => if remaining.isEmpty then some b else none
  | rounds + 1, b, remaining =>
    if remaining.isEmpty then some b
    else
      let available := b.capacity - b.writePos
      let toWrite := min remaining.length available
      if b.writePos + toWrite ≤ b.buffer.length ∧ b.capacity ≠ 0 then
        let buffer := Ring.write b.buffer b.writePos (remaining.take toWrite)
        let writePos := (b.writePos + toWrite) % b.capacity
        writeLoop rounds { b with buffer, writePos } (remaining.drop toWrite)
      else none

variable (b : ReplicationBacklog)

def append (data : Bytes) : Option ReplicationBacklog :=
  if data.isEmpty then some b
  else
    let totalAfter := (b.totalWritten + data.length) % UInt64.size
    let b := if totalAfter > b.capacity then
      { b with wrapped := true, startOffset := totalAfter - b.capacity } else b
    (writeLoop data.length b data).map fun b => { b with totalWritten := totalAfter }

def containsOffset (offset : ℕ) : Bool :=
  if b.totalWritten = 0 then false
  else offset ≥ b.startOffset && offset ≤ b.totalWritten

def readLoop (b : ReplicationBacklog) : ℕ → ℕ → ℕ → Bytes → Option Bytes
  | 0, _, remaining, result => if remaining = 0 then some result else none
  | rounds + 1, pos, remaining, result =>
    if remaining = 0 then some result
    else
      let available := b.capacity - pos
      let toRead := min remaining available
      if pos + toRead ≤ b.buffer.length ∧ b.capacity ≠ 0 then
        readLoop b rounds ((pos + toRead) % b.capacity) (remaining - toRead)
          (result ++ (b.buffer.drop pos).take toRead)
      else none

def bytesInBuffer : ℕ :=
  if b.wrapped then b.capacity else b.totalWritten

def offsetInBuffer (offset : ℕ) : ℕ :=
  if b.wrapped then
    (b.writePos + b.capacity - b.bytesInBuffer + (offset - b.startOffset)) % b.capacity
  else offset - b.startOffset

def getFromOffset (offset : ℕ) : Option (Option Bytes) :=
  if !b.containsOffset offset then some none
  else
    let dataLen := b.totalWritten - offset
    if dataLen = 0 then some (some [])
    else if dataLen > b.capacity then some none
    else (readLoop b dataLen (b.offsetInBuffer offset) dataLen []).map some

def appendAll (chunks : List Bytes) : Option ReplicationBacklog :=
  chunks.foldlM append b

end ReplicationBacklog

end Cache
