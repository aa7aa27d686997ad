import AppliedCs.GpuMemory.Memory

namespace GpuMemory

open MemoryPool Function

def MemoryPool.emptyCache (p : MemoryPool) : MemoryPool :=
  { p with freeBlocks := ∅, stats := { p.stats with inactive := 0 } }

-- The pool of a stream is empty until it is asked for. Its blocks have its stream, so that a block
-- is given by the stream and its identity. A small block that is freed stays in a cache.
structure CachingAllocator where
  config : MemoryConfig := {}
  pools : ℤ → MemoryPool := fun _ => { config }
  smallPools : ℤ × ℤ → List BlockId := fun _ => []

namespace CachingAllocator

def smallThreshold : ℤ :=
  1024 * 1024

def smallSizeClass (size : ℤ) : ℤ :=
  if size ≤ 512 then 512
  else if size ≤ 1024 then 1024
  else if size ≤ 2048 then 2048
  else (size + 4095).fdiv 4096 * 4096

variable (a : CachingAllocator)

def setPool (stream : ℤ) (pool : MemoryPool) : CachingAllocator :=
  { a with pools := update a.pools stream pool }

-- The assignment `block.allocated = allocated`.
def setAllocated (stream : ℤ) (i : BlockId) (allocated : Bool) : CachingAllocator :=
  a.setPool stream ((a.pools stream).setBlock i { (a.pools stream).heap i with allocated })

def allocateSmall (size stream : ℤ) : Option (CachingAllocator × BlockId) :=
  let key := (stream, smallSizeClass size)
  (a.smallPools key).getLast?.map fun i =>
    ({ a.setAllocated stream i true with
      smallPools := update a.smallPools key (a.smallPools key).dropLast }, i)

def freeSmall (stream : ℤ) (i : BlockId) : CachingAllocator :=
  let key := (stream, smallSizeClass ((a.pools stream).heap i).size)
  { a.setAllocated stream i false with
    smallPools := update a.smallPools key (a.smallPools key ++ [i]) }

def emptyCache : CachingAllocator :=
  { a with pools := fun stream => (a.pools stream).emptyCache, smallPools := fun _ => [] }

-- If the memory is used up, the caches are emptied and the pool is asked once more.
def allocate (size stream : ℤ) : Option (CachingAllocator × Option BlockId) :=
  match if size ≤ smallThreshold then a.allocateSmall size stream else none with
  | some (a, i) => some (a, some i)
  | none => do
    let (pool, block) ← (a.pools stream).allocate { size, stream }
    let a := a.setPool stream pool
    if block.isSome then
      return (a, block)
    let a := a.emptyCache
    let (pool, block) ← (a.pools stream).allocate { size, stream }
    return (a.setPool stream pool, block)

def free (stream : ℤ) (i : BlockId) : CachingAllocator :=
  if ((a.pools stream).heap i).size ≤ smallThreshold then
    a.freeSmall stream i
  else
    a.setPool stream ((a.pools stream).free i)

end CachingAllocator

end GpuMemory
