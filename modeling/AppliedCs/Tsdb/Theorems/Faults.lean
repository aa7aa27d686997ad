import AppliedCs.Tsdb.Theorems.LastWrite

namespace Tsdb

open SortedList Overlay SeriesMap List Option

namespace TimeShard

variable {disk : Disk F} {s : TimeShard F}

variable [Hashing]

-- Only the file of a path that no table has changes, and the memtable may be gone.
theorem Intact.frame (h : s.Intact) (hm : m.data.Valid)
    (hd : ∀ t ∈ s.sstables, dir.lookup t.path = s.dataDir.lookup t.path) :
    Intact { s with memtable := m, dataDir := dir, sstableCounter := c } ∧
      tables { s with memtable := m, dataDir := dir, sstableCounter := c } = s.tables := by
  have hold (t) (ht : t ∈ s.sstables) : t.Holds dir (t.contents s.dataDir) :=
    (h.holds t ht).frame (hd t ht)
  refine ⟨⟨hm, fun t ht => ?_, h.paths⟩, map_congr_left fun t ht => (hold t ht).contents_eq⟩
  rw [(hold t ht).contents_eq]
  exact hold t ht

-- The state after a failed flush: the memtable is gone, and the file of the next path is anything.
def dropped (s : TimeShard F) (dir : Directory F) : TimeShard F :=
  { s with memtable := {}, dataDir := dir, sstableCounter := s.sstableCounter + 1 }

section FlushOn

variable (hne : s.memtable.data.entries ≠ [])

omit [Hashing]

include hne

variable (hw : disk.write (s.nextPath false) s.memtable.data.values = .done file tableMeta)

include hw

end FlushOn

-- The files that the call may write are not those of tables.
structure Fresh (s : TimeShard F) : Prop where
  flush : ∀ t ∈ s.sstables, t.path ≠ s.nextPath false
  compact : ∀ t ∈ s.sstables, t.path ≠ s.compactPath

-- The SSTables hold every point of the memtable, too.
def Covered (s : TimeShard F) : Prop :=
  ∀ q p, s.memtable.data.lookup q = some p → overlay (s.tables.map lookup) q = some p

section CompactOn

variable (hf : s.flushOn disk = (s₁, .ok m)) (hl : ¬ s₁.sstables.length ≤ 1)

include hf hl

variable (hr : disk.readError = none) (hm : s₁.merge = .ok merged) (hne : merged.entries ≠ [])

include hr hm hne

end CompactOn

end TimeShard

section Sample

open ShardRun Transition

local instance shardHashing : Hashing := .sample

end Sample

end Tsdb
