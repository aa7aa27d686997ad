import AppliedCs.GpuMemory.Theorems.Memory

open Transition

namespace GpuMemory

open MemoryPool MemoryBlock Option

variable {p : MemoryPool} {i : BlockId} {size : ℤ}

-- What the pool has of the device, and how much of it is in use.
def accounts (p : MemoryPool) : MemoryConfig × MemoryStats × List MemoryRegion × ℤ :=
  (p.config, p.stats, p.regions, p.nextPtr)

theorem accounts_setPrev : accounts (p.setPrev j k) = accounts p := by
  cases j <;> rfl

theorem accounts_split : accounts (p.split i size).1 = accounts p := by
  rw [MemoryPool.split]
  split_ifs
  case pos => rfl
  case neg => exact accounts_setPrev

theorem accounts_trimBlock : accounts (p.trimBlock i size) = accounts p := by
  rw [trimBlock]
  split_ifs
  case neg => rfl
  case pos =>
    have hs := @accounts_split p i size
    generalize p.split i size = r at hs ⊢
    obtain ⟨q, _ | k⟩ := r <;> exact hs

-- The pool gets a region of this size, or none if it is zero.
structure Grows (p p' : MemoryPool) (n : ℤ) : Prop where
  config : p'.config = p.config
  reserved : p'.stats.reserved = p.stats.reserved + n
  nextPtr : p'.nextPtr = p.nextPtr + n
  regions : ∀ r ∈ p'.regions, r ∈ p.regions ∨ r.start = p.nextPtr

-- The size of the region that is opened for a request.
def opened (p : MemoryPool) (request : AllocationRequest) : ℤ :=
  match p.roundSize request.size with
  | none => 0
  | some size =>
    if (p.findFreeBlock (getSizeClass size) request.stream).isSome ∨
        0 < p.config.maxMemory ∧ p.config.maxMemory < p.stats.reserved + size then
      0
    else
      max size (2 * 1024 * 1024)

theorem Grows.handOut (h : Grows p q n) (hq : q.stats.allocated = p.stats.allocated) :
    Grows p ((q.trimBlock i size).handOut i) n ∧ ((q.trimBlock i size).handOut i).stats.allocated =
      p.stats.allocated + (((q.trimBlock i size).handOut i).heap i).size := by
  have ht := @accounts_trimBlock q i size
  simp only [accounts, Prod.mk.injEq] at ht
  refine ⟨⟨ht.1.trans h.config, ?_, ht.2.2.2.trans h.nextPtr, fun r hr => ?_⟩, ?_⟩
  · exact (congrArg MemoryStats.reserved ht.2.1).trans h.reserved
  · exact h.regions r (ht.2.2.1 ▸ hr)
  · exact congrArg (· + _) ((congrArg MemoryStats.allocated ht.2.1).trans hq)

theorem allocate_grows (ha : p.allocate request = some (p', out)) :
    Grows p p' (opened p request) ∧
    p'.stats.allocated = p.stats.allocated + out.elim 0 fun i => (p'.heap i).size := by
  obtain ⟨size, hsize, ha⟩ := bind_eq_some_iff.mp ha
  simp only [opened, hsize]
  cases hf : p.findFreeBlock (getSizeClass size) request.stream
  case some r =>
    rw [hf] at ha
    cases ha
    obtain ⟨-, -, -, -, blocks, hr, -⟩ := exists_of_findFreeBlock hf
    have hg : Grows p r.1 0 := by rw [hr]; exact ⟨rfl, by simp, by simp, fun _ => .inl⟩
    exact hg.handOut (by rw [hr])
  case none =>
    rw [hf] at ha
    by_cases hmax : 0 < p.config.maxMemory ∧ p.config.maxMemory < p.stats.reserved + size
    case pos =>
      rw [allocateNewRegion, if_pos hmax] at ha
      rw [if_pos (.inr hmax)]
      cases ha
      exact ⟨⟨rfl, by simp, by simp, fun _ => .inl⟩, by simp⟩
    rw [allocateNewRegion, if_neg hmax] at ha
    rw [if_neg (not_or.mpr ⟨nofun, hmax⟩)]
    cases ha
    refine Grows.handOut ⟨rfl, rfl, rfl, fun r hr => ?_⟩ rfl
    cases List.mem_append.mp hr
    case inl hr => exact .inl hr
    case inr hr => exact .inr (List.mem_singleton.mp hr ▸ rfl)

theorem opened_nonneg : 0 ≤ opened p request := by
  unfold opened
  split
  · exact le_rfl
  · split
    case isTrue => exact le_rfl
    case isFalse => exact le_max_of_le_right (by decide)

-- The block behind is not one that a freed block takes over.
def BackTaken (p : MemoryPool) (i : BlockId) : Prop :=
  ∀ j ∈ (p.heap i).next, (p.heap i).canMergeWith (p.heap j) = false

theorem released_eq (h : Inv p held room ∅) (hl : Live p i) (hb : BackTaken p i) :
    released p i = takeBack p i := by
  have hself : (takeBack p i).heap i = { p.heap i with allocated := false } := setBlock_self ..
  rw [released, coalesceNext, hself]
  split
  case h_2 => rfl
  case h_1 j hn =>
    have hother : (takeBack p i).heap j = p.heap j :=
      setBlock_of_ne _ (h.tiles.tiled.ne_of_linked (h.mem_of_live hl).1 hn).symm _
    rw [hother]
    exact if_neg (Bool.eq_false_iff.mp (hb j hn))

-- The regions lie one behind the other.
structure Bounded (p : MemoryPool) : Prop where
  nonneg : 0 ≤ p.stats.reserved
  nextPtr : p.nextPtr = 0x100000 + p.stats.reserved
  regions : ∀ r ∈ p.regions, 0x100000 ≤ r.start

theorem Bounded.grows (h : Bounded p) (hg : Grows p p' n) (hn : 0 ≤ n) : Bounded p' where
  nonneg := hg.reserved ▸ add_nonneg h.nonneg hn
  nextPtr := by rw [hg.nextPtr, h.nextPtr, hg.reserved, add_assoc]
  regions r hr := by
    cases hg.regions r hr
    case inl hr => exact h.regions r hr
    case inr hr =>
      rw [hr, h.nextPtr]
      exact le_add_of_nonneg_right h.nonneg

namespace PoolRun

variable {s s' : PoolRun}

-- The live blocks are disjoint parts of what is reserved.
theorem Sound.sum_bounds (h : Sound s) (hb : Bounded s.pool) :
    0 ≤ ∑ i ∈ s.live, (s.pool.heap i).size ∧
      ∑ i ∈ s.live, (s.pool.heap i).size ≤ s.pool.stats.reserved := by
  obtain ⟨held, room, h, hlive⟩ := h
  have hheld : ∀ i ∈ s.live, i ∈ held := fun i hi => (h.mem_of_live (hlive i hi)).1
  have hcard : ∀ i ∈ s.live,
      (s.pool.heap i).size = (Finset.Ico (s.pool.pieces i).lo (s.pool.pieces i).hi).card := by
    intro i hi
    have := h.size_pos (hheld i hi)
    simp only [pieces, Function.comp_apply, piece, Int.card_Ico]
    omega
  have hsub : s.live.biUnion (fun i => Finset.Ico (s.pool.pieces i).lo (s.pool.pieces i).hi) ⊆
      Finset.Ico 0x100000 s.pool.nextPtr := by
    refine Finset.biUnion_subset.mpr fun i hi =>
      Finset.Ico_subset_Ico ?_ (h.tiles.tiled.below i (hheld i hi))
    obtain ⟨r, hr, he⟩ := h.tiles.rooms i (hheld i hi)
    have hlo := h.tiles.tiled.within i (hheld i hi) _ le_rfl (h.tiles.tiled.nonempty i (hheld i hi))
    rw [he] at hlo
    exact (hb.regions _ hr).trans hlo.1
  have hle := Finset.card_le_card hsub
  rw [Finset.card_biUnion fun i hi j hj hne => by
    simpa [← Finset.disjoint_coe] using h.tiles.tiled.disjoint (hheld i hi) (hheld j hj) hne,
    Int.card_Ico, hb.nextPtr] at hle
  rw [Finset.sum_congr rfl hcard, ← Nat.cast_sum]
  have := hb.nonneg
  exact ⟨Int.natCast_nonneg _, by omega⟩

structure Accounted (s : PoolRun) : Prop where
  total : s.pool.stats.allocated = ∑ i ∈ s.live, (s.pool.heap i).size
  nonneg : 0 ≤ s.pool.stats.allocated
  reserved : s.pool.stats.allocated ≤ s.pool.stats.reserved
  limit : 0 < s.pool.config.maxMemory → s.pool.stats.reserved ≤ s.pool.config.maxMemory

-- A new region keeps to the limit, and a freed block is not joined with the one behind it.
def Measured (s : PoolRun) (e : PoolEvent) : Prop :=
  Careful s e ∧ match e with
    | .allocate request => 0 < s.pool.config.maxMemory →
        s.pool.stats.reserved + opened s.pool request ≤ s.pool.config.maxMemory
    | .free block => BackTaken s.pool block

instance (s : PoolRun) : (e : PoolEvent) → Decidable (Measured s e)
  | .allocate _ => inferInstanceAs <| Decidable (_ ∧ (_ → _))
  | .free block => inferInstanceAs <| Decidable (_ ∧ ∀ j ∈ (s.pool.heap block).next, _)

theorem Accounted.step (h : Accounted s) (hb : Bounded s.pool) (hs : Sound s)
    (hc : Measured s e) (he : s.step e = some s') : Accounted s' ∧ Bounded s'.pool ∧ Sound s' := by
  have hs' := hs.step hc.1 he
  -- The rest follows from the total and the limit.
  have hsuffices (hb' : Bounded s'.pool)
      (ht : s'.pool.stats.allocated = ∑ i ∈ s'.live, (s'.pool.heap i).size)
      (hl : 0 < s'.pool.config.maxMemory → s'.pool.stats.reserved ≤ s'.pool.config.maxMemory) :
      Accounted s' ∧ Bounded s'.pool ∧ Sound s' :=
    have hsum := hs'.sum_bounds hb'
    ⟨⟨ht, ht ▸ hsum.1, ht ▸ hsum.2, hl⟩, hb', hs'⟩
  obtain ⟨held, room, hi, hlive⟩ := hs
  cases e
  case allocate request =>
    obtain ⟨⟨pool, result⟩, ha, he⟩ := bind_eq_some_iff.mp he
    cases he
    obtain ⟨hg, htotal⟩ := allocate_grows ha
    obtain ⟨_, _, _, hnew, hold⟩ := allocate_inv hi hc.1 ha
    have hsum : ∑ i ∈ s.live, (pool.heap i).size = s.pool.stats.allocated :=
      h.total ▸ Finset.sum_congr rfl fun i hi => (hold i (hlive i hi)).2
    refine hsuffices (hb.grows hg opened_nonneg) ?_ (hg.config ▸ hg.reserved ▸ hc.2)
    cases result
    case none => simpa [hsum] using htotal
    case some j =>
      have hj : j ∉ s.live := fun hj => (hnew j rfl).2 (hlive j hj)
      simpa [Finset.sum_insert hj, hsum, add_comm] using htotal
  case free block =>
    simp only [PoolRun.step, ite_none_right_eq_some] at he
    obtain ⟨hmem, he⟩ := he
    cases he
    obtain ⟨_, _, _, _, heq⟩ := free_inv hi (hlive block hmem) hc.1
    rw [released_eq hi (hlive block hmem) hc.2] at heq
    have hsize : ∀ j, ((takeBack s.pool block).heap j).size = (s.pool.heap j).size :=
      setBlock_field _ _ rfl
    refine hsuffices ?_ ?_ ?_ <;> simp only [heq]
    · exact ⟨hb.nonneg, hb.nextPtr, hb.regions⟩
    · refine Eq.trans ?_ (Finset.sum_congr rfl fun j _ => (hsize j).symm)
      rw [Finset.sum_erase_eq_sub hmem, ← h.total, ← hsize block]
      rfl
    · exact h.limit

theorem accounting_exact {config : MemoryConfig}
    (r : Reaches step Measured { pool := { config } } s) : Accounted s :=
  have ⟨ha, _⟩ := r.invariant (P := fun s => Accounted s ∧ Bounded s.pool ∧ Sound s)
    ⟨⟨rfl, le_rfl, le_rfl, le_of_lt⟩, ⟨le_rfl, rfl, nofun⟩, sound_new config⟩
    fun ⟨ha, hb, hs⟩ hc he => ha.step hb hs hc he
  ha

-- Two blocks are cut from the only region that the limit allows, and the first is freed.
theorem accounting_exact_one : ∃ s,
    Reaches step Measured { pool := { config := { maxMemory := 2097152 } } } s ∧
    s.live = {1} ∧ Accounted s := by
  obtain ⟨s, r, hs⟩ : ∃ s : PoolRun,
      Reaches step Measured { pool := { config := { maxMemory := 2097152 } } } s ∧ s.live = {1} :=
    Reaches.exists_of_run [.allocate ⟨512, 0⟩, .allocate ⟨1000, 0⟩, .free 0] (by decide +kernel)
  exact ⟨s, r, hs, accounting_exact r⟩

-- The freed block takes the rest of its region over before its size is subtracted.
theorem allocated_is_negative : ∃ s, Reaches step anyEvent { pool := { config := {} } } s ∧
    s.live = ∅ ∧ s.pool.stats.allocated < 0 :=
  Reaches.exists_of_run [.allocate ⟨512, 0⟩, .free 0] (by decide +kernel)

end PoolRun

end GpuMemory
