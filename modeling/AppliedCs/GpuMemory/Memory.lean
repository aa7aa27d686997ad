import Mathlib.Data.List.AList

namespace GpuMemory

-- Python's integers have no bounds, and sizes are not checked for their sign.
structure MemoryConfig where
  maxMemory : ℤ := 0
  minSplitSize : ℤ := 512
  alignment : ℤ := 512

structure MemoryStats where
  allocated : ℤ := 0
  reserved : ℤ := 0
  active : ℤ := 0
  inactive : ℤ := 0
  numAllocs : ℕ := 0
  numFrees : ℕ := 0
  numOoms : ℕ := 0
  peakAllocated : ℤ := 0
  peakReserved : ℤ := 0

-- The identity of a block object, which two blocks with one address do not share.
abbrev BlockId := ℕ

structure MemoryBlock where
  ptr : ℤ
  size : ℤ
  allocated : Bool
  stream : ℤ := 0
  prev : Option BlockId := none
  next : Option BlockId := none

structure MemoryRegion where
  start : ℤ
  size : ℤ

structure AllocationRequest where
  size : ℤ
  stream : ℤ := 0

def MemoryBlock.canMergeWith (self other : MemoryBlock) : Bool :=
  !other.allocated && other.stream == self.stream && other.ptr == self.ptr + self.size

-- The block objects that were created so far are those below `fresh`.
structure MemoryPool where
  config : MemoryConfig
  heap : BlockId → MemoryBlock := fun _ => ⟨0, 0, false, 0, none, none⟩
  fresh : BlockId := 0
  regions : List MemoryRegion := []
  freeBlocks : AList (fun _ : ℤ => List BlockId) := ∅
  allocatedBlocks : AList (fun _ : ℤ => BlockId) := ∅
  stats : MemoryStats := {}
  nextPtr : ℤ := 0x100000

namespace MemoryPool

variable (p : MemoryPool) (i : BlockId)

def setBlock (block : MemoryBlock) : MemoryPool :=
  { p with heap := Function.update p.heap i block }

-- The assignment `block.prev = prev`, if there is a block.
def setPrev (i : Option BlockId) (prev : BlockId) : MemoryPool :=
  match i with
  | some i => p.setBlock i { p.heap i with prev := some prev }
  | none => p

variable (size : ℤ)

def split : MemoryPool × Option BlockId :=
  let block := p.heap i
  if size ≥ block.size then
    (p, none)
  else
    let k := p.fresh
    let remaining := { ptr := block.ptr + size
                       size := block.size - size
                       allocated := false
                       stream := block.stream
                       prev := some i
                       next := block.next : MemoryBlock }
    let p := { p with fresh := k + 1 }.setBlock k remaining
    let p := p.setPrev block.next k
    (p.setBlock i { p.heap i with size, next := some k }, some k)

def merge (other : BlockId) : MemoryPool × Bool :=
  let block := p.heap i
  let absent := p.heap other
  if absent.ptr ≠ block.ptr + block.size then
    (p, false)
  else
    let p := p.setBlock i { block with size := block.size + absent.size, next := absent.next }
    (p.setPrev absent.next i, true)

-- Powers of two, from 512 bytes to a gigabyte.
def sizeClasses : List ℤ :=
  List.iterate (2 * ·) 512 22

def getSizeClass : ℤ :=
  (sizeClasses.find? (size ≤ ·)).getD size

-- An alignment of zero raises an exception.
def roundSize : Option ℤ :=
  let alignment := p.config.alignment
  if alignment = 0 then none
  else some ((size + alignment - 1).fdiv alignment * alignment)

def freeList (sizeClass : ℤ) : List BlockId :=
  (p.freeBlocks.lookup sizeClass).getD []

def setFreeList (sizeClass : ℤ) (blocks : List BlockId) : MemoryPool :=
  { p with freeBlocks := p.freeBlocks.insert sizeClass blocks }

-- The first block of a free list that a stream may use.
def takeFrom (stream sizeClass : ℤ) : Option (MemoryPool × BlockId) :=
  let blocks := p.freeList sizeClass
  (blocks.findIdx? fun i => (p.heap i).stream == stream || stream == 0).bind fun index =>
    blocks[index]?.map fun i => (p.setFreeList sizeClass (blocks.eraseIdx index), i)

def findFreeBlock (sizeClass stream : ℤ) : Option (MemoryPool × BlockId) :=
  (p.takeFrom stream sizeClass).or
    ((sizeClasses.filter (sizeClass < ·)).findSome? (p.takeFrom stream))

def addFreeBlock : MemoryPool :=
  let sizeClass := getSizeClass (p.heap i).size
  p.setFreeList sizeClass (p.freeList sizeClass ++ [i])

-- Blocks are compared by their addresses.
def removeFromFreeList : MemoryPool :=
  let sizeClass := getSizeClass (p.heap i).size
  match p.freeBlocks.lookup sizeClass with
  | none => p
  | some blocks =>
    p.setFreeList sizeClass (blocks.eraseP fun j => (p.heap j).ptr == (p.heap i).ptr)

def allocateNewRegion (request : AllocationRequest) : Option (MemoryPool × BlockId) :=
  if 0 < p.config.maxMemory ∧ p.config.maxMemory < p.stats.reserved + size then
    none
  else
    let regionSize := max size (2 * 1024 * 1024)
    let reserved := p.stats.reserved + regionSize
    let block := { ptr := p.nextPtr
                   size := regionSize
                   allocated := false
                   stream := request.stream : MemoryBlock }
    let p := { p with
      regions := p.regions ++ [MemoryRegion.mk p.nextPtr regionSize]
      nextPtr := p.nextPtr + regionSize
      fresh := p.fresh + 1
      stats := { p.stats with reserved, peakReserved := max p.stats.peakReserved reserved } }
    some (p.setBlock (p.fresh - 1) block, p.fresh - 1)

def updateStatsAlloc (s : MemoryStats) (size : ℤ) : MemoryStats :=
  { s with
    allocated := s.allocated + size
    active := s.active + size
    numAllocs := s.numAllocs + 1
    peakAllocated := max s.peakAllocated (s.allocated + size) }

def updateStatsFree (s : MemoryStats) (size : ℤ) : MemoryStats :=
  { s with
    allocated := s.allocated - size
    active := s.active - size
    inactive := s.inactive + size
    numFrees := s.numFrees + 1 }

-- A block that is too large is cut, and the rest becomes a free block.
def trimBlock : MemoryPool :=
  if (p.heap i).size > size + p.config.minSplitSize then
    match p.split i size with
    | (p, some remaining) => p.addFreeBlock remaining
    | (p, none) => p
  else
    p

-- The last part of an allocation.
def handOut : MemoryPool :=
  let p := p.setBlock i { p.heap i with allocated := true }
  { p with
    allocatedBlocks := p.allocatedBlocks.insert (p.heap i).ptr i
    stats := updateStatsAlloc p.stats (p.heap i).size }

-- The result is nothing when the memory is used up.
def allocate (request : AllocationRequest) : Option (MemoryPool × Option BlockId) := do
  let size ← p.roundSize request.size
  match (p.findFreeBlock (getSizeClass size) request.stream).or
    (p.allocateNewRegion size request) with
  | none => return ({ p with stats := { p.stats with numOoms := p.stats.numOoms + 1 } }, none)
  | some (p, i) => return ((p.trimBlock i size).handOut i, some i)

-- The block takes a free block behind it over.
def coalesceNext : MemoryPool :=
  match (p.heap i).next with
  | some next =>
    if (p.heap i).canMergeWith (p.heap next) then ((p.removeFromFreeList next).merge i next).1
    else p
  | none => p

-- A free block in front takes the block over. The result is the block that is left.
def coalescePrev : MemoryPool × BlockId :=
  match (p.heap i).prev with
  | some prev =>
    if !(p.heap prev).allocated && (p.heap prev).canMergeWith (p.heap i) then
      (((p.removeFromFreeList prev).merge prev i).1, prev)
    else
      (p, i)
  | none => (p, i)

def coalesce : MemoryPool × BlockId :=
  (p.coalesceNext i).coalescePrev i

-- The result of the coalescing is not used: the freed block itself is added to the free list.
def free : MemoryPool :=
  let block := p.heap i
  match p.allocatedBlocks.lookup block.ptr with
  | none => p
  | some _ =>
    let p := { p with allocatedBlocks := p.allocatedBlocks.erase block.ptr }
    let p := p.setBlock i { block with allocated := false }
    let p := (p.coalesce i).1.addFreeBlock i
    { p with stats := updateStatsFree p.stats (p.heap i).size }

end MemoryPool

end GpuMemory
