import AppliedCs.GpuMemory.Allocator
import AppliedCs.GpuMemory.Theorems.Accounting
import AppliedCs.Lib.Shelves

open Transition Shelves

namespace GpuMemory

open MemoryPool CachingAllocator List Function

variable {p : MemoryPool} {size stream : ℤ}

-- No block gets smaller, and none is put on a list.
structure Grown (p p' : MemoryPool) : Prop where
  config : p'.config = p.config
  fresh : p'.fresh = p.fresh
  lists : ∀ c, (p'.freeList c).Sublist (p.freeList c)
  size : (∀ j, 0 ≤ (p.heap j).size) → ∀ j, (p.heap j).size ≤ (p'.heap j).size

theorem Grown.of_size (hc : p'.config = p.config) (hf : p'.fresh = p.fresh)
    (hl : ∀ c, (p'.freeList c).Sublist (p.freeList c))
    (hs : ∀ j, (p'.heap j).size = (p.heap j).size) : Grown p p' :=
  ⟨hc, hf, hl, fun _ j => (hs j).ge⟩

theorem Grown.refl : Grown p p :=
  .of_size rfl rfl (fun _ => .refl _) fun _ => rfl

theorem Grown.trans (h : Grown p q) (h' : Grown q r) : Grown p r where
  config := h'.config.trans h.config
  fresh := h'.fresh.trans h.fresh
  lists c := (h'.lists c).trans (h.lists c)
  size hn j := (h.size hn j).trans (h'.size (fun j => (hn j).trans (h.size hn j)) j)

theorem grown_setAllocated : Grown p (p.setBlock i { p.heap i with allocated }) :=
  .of_size rfl rfl (fun _ => .refl _) <| p.setBlock_field MemoryBlock.size rfl

theorem grown_removeFromFreeList : Grown p (p.removeFromFreeList i) := by
  obtain ⟨blocks, hr, hl⟩ := p.exists_of_removeFromFreeList i
  rw [hr] at hl ⊢
  refine .of_size rfl rfl (fun c => ?_) fun _ => rfl
  rw [hl, update_apply]
  split
  case isTrue he => exact he ▸ eraseP_sublist
  case isFalse => exact .refl _

theorem grown_merge : Grown p (p.merge i j).1 := by
  unfold MemoryPool.merge
  dsimp only
  split
  case isTrue => exact .refl
  case isFalse =>
    have ha := alike_setPrev (p.setBlock i { p.heap i with
      size := (p.heap i).size + (p.heap j).size, next := (p.heap j).next }) (p.heap j).next i
    refine ⟨congrArg Prod.fst accounts_setPrev, ha.fresh, fun c => ?_, fun hn k => ?_⟩
    · cases (p.heap j).next <;> exact .refl _
    · rw [ha.size]
      by_cases hk : k = i
      case neg => rw [setBlock_of_ne p hk]
      case pos =>
        subst hk
        rw [setBlock_self]
        exact le_add_of_nonneg_right (hn j)

theorem grown_coalesce : Grown p (p.coalesce i).1 := by
  have hnext : Grown p (p.coalesceNext i) := by
    unfold coalesceNext
    split
    · split
      · exact grown_removeFromFreeList.trans grown_merge
      · exact .refl
    · exact .refl
  refine hnext.trans ?_
  unfold coalesce coalescePrev
  split
  · split
    · exact grown_removeFromFreeList.trans grown_merge
    · exact .refl
  · exact .refl

theorem getSizeClass_mono : Monotone getSizeClass := by
  intro a b hab
  have hsort : sizeClasses.Pairwise (· ≤ ·) := by decide
  unfold getSizeClass
  generalize sizeClasses = l at hsort ⊢
  induction hsort
  case nil => exact hab
  case cons c l hc _ hi =>
    by_cases hb : b ≤ c
    case pos => simp [hab.trans hb, hb]
    by_cases ha : a ≤ c
    case neg => simpa [ha, hb] using hi
    simp only [find?_cons, ha, hb, decide_true, decide_false, Option.getD_some]
    cases hf : l.find? (b ≤ ·)
    case none => exact (not_le.mp hb).le
    case some d => exact hc d (mem_of_find?_eq_some hf)

theorem smallSizeClass_mono : Monotone smallSizeClass := by
  intro a b hab
  simp only [smallSizeClass, Int.fdiv_eq_ediv_of_nonneg _ (show (0 : ℤ) ≤ 4096 by decide)]
  split_ifs <;> omega

-- A block is filed under its class, or a smaller one if it has grown.
def Fits : ℤ ⊕ ℤ → ℤ → Prop
  | .inl c, n => c ≤ getSizeClass n
  | .inr c, n => c ≤ smallSizeClass n

theorem Fits.mono (h : Fits k m) (hmn : m ≤ n) : Fits k n :=
  match k with
  | .inl _ => le_trans h (getSizeClass_mono hmn)
  | .inr _ => le_trans h (smallSizeClass_mono hmn)

-- Blocks that are live are on none of the shelves.
structure Kept (p : MemoryPool) (cache : ℤ → List BlockId) (live : Set BlockId) : Prop where
  config : p.config = {}
  nonneg : ∀ i, 0 ≤ (p.heap i).size
  created : ∀ i ∈ live, i < p.fresh
  stocked : Stocked (fun k i => Fits k (p.heap i).size) (Sum.elim p.freeList cache)
    (live ∪ Set.Ici p.fresh)

def rounded (size : ℤ) : ℤ :=
  (size + 511) / 512 * 512

-- Every block that is not handed out and smaller than the request is in a smaller class.
def Separate (p : MemoryPool) (live : Set BlockId) (size : ℤ) : Prop :=
  ∀ i < p.fresh, i ∉ live → (p.heap i).size < size →
    getSizeClass (p.heap i).size < getSizeClass (rounded size) ∧
      (size ≤ smallThreshold → smallSizeClass (p.heap i).size < smallSizeClass size)

instance [DecidablePred (· ∈ live)] : Decidable (Separate p live size) :=
  inferInstanceAs <| Decidable (∀ i < p.fresh, i ∉ live → _ → _ ∧ (_ → _))

namespace Kept

variable {cache cache' : ℤ → List BlockId} {live : Set BlockId} (h : Kept p cache live)

include h

theorem grown (hg : Grown p p') : Kept p' cache live where
  config := hg.config.trans h.config
  nonneg i := (h.nonneg i).trans (hg.size h.nonneg i)
  created := hg.fresh ▸ h.created
  stocked := by
    rw [hg.fresh]
    refine h.stocked.mono ?_ fun _ ho hf => ⟨ho, hf.mono (hg.size h.nonneg _)⟩
    rintro (c | c)
    exacts [hg.lists c, .refl _]

theorem put (hi : i ∈ live) (hk : Fits k (p.heap i).size)
    (hl : Sum.elim (freeList { p with freeBlocks := blocks }) cache' =
      update (Sum.elim p.freeList cache) k (Sum.elim p.freeList cache k ++ [i])) :
    Kept { p with freeBlocks := blocks } cache' (live \ {i}) where
  config := h.config
  nonneg := h.nonneg
  created j hj := h.created j hj.1
  stocked := by
    rw [hl]
    refine h.stocked.put (.inl hi) hk ?_
    rintro j (hj | hj)
    · exact ⟨.inl hj.1, hj.2⟩
    · exact ⟨.inr hj, fun he => (h.created i hi).not_ge (he ▸ hj)⟩

theorem inside (hi : i ∈ Sum.elim p.freeList cache k) : i < p.fresh ∧ i ∉ live :=
  ⟨not_le.mp fun hle => h.stocked.inside hi (.inr hle), fun hm => h.stocked.inside hi (.inl hm)⟩

theorem take (hk : Sum.elim p.freeList cache k = l₁ ++ i :: l₂)
    (hl : Sum.elim (freeList { p with freeBlocks := blocks }) cache' =
      update (Sum.elim p.freeList cache) k (l₁ ++ l₂)) :
    Kept { p with freeBlocks := blocks } cache' (insert i live) where
  config := h.config
  nonneg := h.nonneg
  created := by
    rintro j (rfl | hj)
    · exact (h.inside (k := k) (by simp [hk])).1
    · exact h.created j hj
  stocked := by
    rw [hl]
    refine h.stocked.take hk fun j hj hne => ?_
    rintro ((he | hj') | hj')
    exacts [hne he, hj (.inl hj'), hj (.inr hj')]

-- A block is new, and those that are live may have another size.
theorem enter (hc : p'.config = p.config) (hf : p'.fresh = p.fresh + 1)
    (hl : p'.freeList = p.freeList) (hn : ∀ j, 0 ≤ (p'.heap j).size)
    (hs : ∀ j ∉ live, j ≠ p.fresh → (p'.heap j).size = (p.heap j).size) :
    Kept p' cache (insert p.fresh live) where
  config := hc.trans h.config
  nonneg := hn
  created := by
    rw [hf]
    rintro j (rfl | hj)
    · exact Nat.lt_succ_self _
    · exact (h.created j hj).trans (Nat.lt_succ_self _)
  stocked := by
    rw [hf, hl]
    refine h.stocked.mono (fun _ => .refl _) fun {j k} _ ho hk => ?_
    obtain ⟨hj, hlt⟩ := not_or.mp ho
    have hlt : j < p.fresh := not_le.mp hlt
    refine ⟨?_, hs j hj hlt.ne ▸ hk⟩
    rintro ((he | hj') | hj')
    exacts [hlt.ne he, hj hj', hlt.not_gt hj']

theorem findFreeBlock (hf : p.findFreeBlock c stream = some (p', i)) :
    Kept p' cache (insert i live) ∧ p'.heap = p.heap ∧ (i < p.fresh ∧ i ∉ live) ∧
      c ≤ getSizeClass (p.heap i).size := by
  obtain ⟨c', hle, l₁, l₂, blocks, rfl, hl, hl'⟩ := exists_of_findFreeBlock hf
  have hmem : i ∈ Sum.elim p.freeList cache (.inl c') := by simp [hl]
  refine ⟨h.take (k := .inl c') hl ?_, rfl, h.inside hmem, hle.trans (h.stocked.filed hmem)⟩
  rw [Sum.update_elim_inl, hl']

theorem addFreeBlock (hi : i ∈ live) : Kept (p.addFreeBlock i) cache (live \ {i}) := by
  refine h.put (k := .inl (getSizeClass (p.heap i).size)) hi le_rfl ?_
  rw [Sum.update_elim_inl]
  exact congrArg (Sum.elim · _) (p.setFreeList_freeList ..)

theorem trimBlock (hi : i ∈ live) (hn : 0 ≤ n) : Kept (p.trimBlock i n) cache live ∧
    min n (p.heap i).size ≤ ((p.trimBlock i n).heap i).size := by
  have hnew : p.fresh ∉ live := fun hm => (h.created _ hm).ne rfl
  have hmin : p.config.minSplitSize = 512 := by rw [h.config]
  unfold MemoryPool.trimBlock
  rw [hmin]
  split
  case isFalse => exact ⟨h, min_le_right ..⟩
  case isTrue hlt =>
    have hlt : n < (p.heap i).size := by omega
    have ha := split_alike hlt (h.created i hi).ne
    rw [← Prod.mk.eta (p := p.split i n), split_fresh hlt]
    have hsize (j) : ((p.split i n).1.heap j).size =
        if j = i then n else if j = p.fresh then (p.heap i).size - n else (p.heap j).size := by
      rw [ha.size, cutPool]
      split_ifs with hj hj'
      case pos => rw [hj, setBlock_self]
      case pos => rw [setBlock_of_ne _ hj, hj', setBlock_self]
      case neg => rw [setBlock_of_ne _ hj, setBlock_of_ne _ hj']
    refine ⟨?_, (min_le_left ..).trans ((hsize i).trans (if_pos rfl)).ge⟩
    have hk := h.enter (congrArg Prod.fst accounts_split) ha.fresh
      (funext fun c => congrFun (shelves_split hlt) (.inl c)) (fun j => ?_) fun j hj hj' => ?_
    · have := hk.addFreeBlock (Set.mem_insert ..)
      rwa [Set.insert_sdiff_self_of_notMem hnew] at this
    · rw [hsize]
      have := h.nonneg j
      split_ifs <;> omega
    · rw [hsize, if_neg (ne_of_mem_of_not_mem hi hj).symm, if_neg hj']

theorem allocateNewRegion : ∃ r, p.allocateNewRegion n request = some r ∧
    Kept r.1 cache (insert r.2 live) ∧ n ≤ (r.1.heap r.2).size := by
  have hmax : ¬ (0 < p.config.maxMemory ∧ p.config.maxMemory < p.stats.reserved + n) := by
    simp [h.config]
  rw [MemoryPool.allocateNewRegion, if_neg hmax]
  refine ⟨_, rfl, h.enter rfl rfl rfl (fun j => ?_) fun j _ hj => ?_, by simp⟩
  · by_cases hj : j = p.fresh
    case pos => simp [hj]
    case neg => simpa [setBlock, hj] using h.nonneg j
  · exact congrArg MemoryBlock.size (setBlock_of_ne _ hj _)

theorem allocate (stream : ℤ) (hs : 1 ≤ size) :
    ∃ p' i, p.allocate { size, stream } = some (p', some i) ∧
    Kept p' cache (insert i live) ∧ (Separate p live size → size ≤ (p'.heap i).size) := by
  have hround : p.roundSize size = some (rounded size) := by
    rw [roundSize, if_neg (by simp [h.config]), rounded]
    simp only [h.config, Int.fdiv_eq_ediv_of_nonneg _ (show (0 : ℤ) ≤ 512 by decide)]
    congr 4
    omega
  have hle : size ≤ rounded size := by rw [rounded]; omega
  have hout {q i} (hq : Kept q cache (insert i live))
      (hsize : Separate p live size → size ≤ (q.heap i).size) :
      Kept ((q.trimBlock i (rounded size)).handOut i) cache (insert i live) ∧
        (Separate p live size →
          size ≤ (((q.trimBlock i (rounded size)).handOut i).heap i).size) := by
    obtain ⟨hk, hmin⟩ := hq.trimBlock (Set.mem_insert ..) (show 0 ≤ rounded size by omega)
    have hg : Grown (q.trimBlock i (rounded size)) ((q.trimBlock i (rounded size)).handOut i) :=
      .of_size rfl rfl (fun _ => .refl _) <| setBlock_field _ MemoryBlock.size rfl
    exact ⟨hk.grown hg, fun h => (le_min hle (hsize h)).trans (hmin.trans (hg.size hk.nonneg i))⟩
  simp only [MemoryPool.allocate, hround, Option.bind_eq_bind, Option.bind_some]
  cases hf : p.findFreeBlock (getSizeClass (rounded size)) stream
  case some r =>
    obtain ⟨hk, hheap, ⟨hlt, hfree⟩, hc⟩ := h.findFreeBlock hf
    refine ⟨_, r.2, rfl, hout hk fun hsep => ?_⟩
    rw [hheap]
    exact not_lt.mp fun hlt' => hc.not_gt (hsep _ hlt hfree hlt').1
  case none =>
    obtain ⟨r, hr, hk, hsize⟩ := h.allocateNewRegion (n := rounded size)
    rw [Option.none_or, hr]
    exact ⟨_, r.2, rfl, hout hk fun _ => hle.trans hsize⟩

theorem free (hi : i ∈ live) : Kept (p.free i) cache (live \ {i}) := by
  unfold MemoryPool.free
  dsimp only
  split
  case h_1 =>
    refine ⟨h.config, h.nonneg, fun j hj => h.created j hj.1,
      h.stocked.mono (fun _ => .refl _) fun _ ho hf => ⟨fun hj => ho (hj.imp_left And.left), hf⟩⟩
  case h_2 =>
    have hg : Grown p (takeBack p i) :=
      .of_size rfl rfl (fun _ => .refl _) <| setBlock_field _ MemoryBlock.size rfl
    have hk := (h.grown (hg.trans (grown_coalesce (i := i)))).addFreeBlock hi
    exact ⟨hk.config, hk.nonneg, hk.created, hk.stocked⟩

end Kept

inductive AllocatorEvent
  | allocate (size stream : ℤ)
  | free (stream : ℤ) (block : BlockId)

-- An allocator with the blocks that were handed out.
structure AllocatorRun where
  allocator : CachingAllocator := {}
  live : Finset (ℤ × BlockId) := ∅

namespace AllocatorRun

variable {s s' : AllocatorRun}

def step (s : AllocatorRun) : AllocatorEvent → Option AllocatorRun
  | .allocate size stream => (s.allocator.allocate size stream).map fun r =>
      ⟨r.1, r.2.elim s.live fun i => insert (stream, i) s.live⟩
  | .free stream i => some ⟨s.allocator.free stream i, s.live.erase (stream, i)⟩

-- Nothing is freed that was not handed out.
def Careful (s : AllocatorRun) : AllocatorEvent → Prop
  | .allocate size _ => 1 ≤ size
  | .free stream i => (stream, i) ∈ s.live

instance (s : AllocatorRun) : DecidablePred s.Careful
  | .allocate size _ => inferInstanceAs <| Decidable (1 ≤ size)
  | .free stream i => inferInstanceAs <| Decidable ((stream, i) ∈ s.live)

abbrev liveOn (s : AllocatorRun) (stream : ℤ) : Set BlockId :=
  {i | (stream, i) ∈ s.live}

def Inv (s : AllocatorRun) : Prop :=
  ∀ t, Kept (s.allocator.pools t) (fun c => s.allocator.smallPools (t, c)) (s.liveOn t)

-- Only what belongs to one stream changes.
theorem Inv.change (h : Inv s) (stream : ℤ) {out : Finset (ℤ × BlockId)}
    (hf : ∀ t ≠ stream, ∀ c, f (t, c) = s.allocator.smallPools (t, c))
    (hl : ∀ t ≠ stream, ∀ i, (t, i) ∈ out ↔ (t, i) ∈ s.live)
    (hk : Kept p (fun c => f (stream, c)) {i | (stream, i) ∈ out}) :
    Inv ⟨{ s.allocator.setPool stream p with smallPools := f }, out⟩ := by
  intro t
  by_cases ht : t = stream
  case pos =>
    subst ht
    simpa [setPool] using hk
  case neg => simpa [liveOn, setPool, ht, hf t ht, hl t ht] using h t

theorem update_cache (f : ℤ × ℤ → List BlockId) (c : ℤ) :
    (fun c' => update f (stream, c) l (stream, c')) = update (fun c' => f (stream, c')) c l := by
  ext1 c'
  simp [update_apply]

theorem Inv.allocate (h : Inv s) (stream : ℤ) (hs : 1 ≤ size) : ∃ a i,
    s.allocator.allocate size stream = some (a, some i) ∧ Inv ⟨a, insert (stream, i) s.live⟩ ∧
      (Separate (s.allocator.pools stream) (s.liveOn stream) size →
        size ≤ ((a.pools stream).heap i).size) := by
  have hk := h stream
  have hlive (i) : {j | (stream, j) ∈ insert (stream, i) s.live} =
      insert i (s.liveOn stream) := by
    ext j
    simp
  rw [CachingAllocator.allocate]
  split
  case h_1 a i heq =>
    obtain ⟨hsmall, heq⟩ := Option.ite_none_right_eq_some.mp heq
    obtain ⟨j, hi, he⟩ := Option.map_eq_some_iff.mp heq
    cases he
    have hl := (dropLast_append_getLast? i hi).symm
    refine ⟨_, i, rfl, ?_, fun hsep => ?_⟩
    · refine h.change stream (fun t ht c => update_of_ne (by simp [ht]) ..) (by simp +contextual) ?_
      rw [update_cache]
      refine hlive i ▸ (hk.take (k := .inr (smallSizeClass size)) hl ?_).grown grown_setAllocated
      rw [Sum.update_elim_inr, append_nil]
    · have hmem : i ∈ Sum.elim (s.allocator.pools stream).freeList
        (fun c => s.allocator.smallPools (stream, c)) (.inr (smallSizeClass size)) :=
          mem_of_getLast? hi
      have ⟨hin, hfree⟩ := hk.inside hmem
      have hc : smallSizeClass size ≤ _ := hk.stocked.filed hmem
      simpa [setAllocated, setPool] using
        not_lt.mp fun hlt => hc.not_gt ((hsep i hin hfree hlt).2 hsmall)
  case h_2 =>
    obtain ⟨p, i, hp, hk', hsize⟩ := hk.allocate stream hs
    refine ⟨s.allocator.setPool stream p, i, by simp [hp], ?_, by simpa [setPool] using hsize⟩
    exact h.change stream (fun t ht c => rfl) (by simp +contextual) (hlive i ▸ hk')

theorem Inv.step (h : Inv s) (hc : Careful s e) (hs : s.step e = some s') : Inv s' := by
  cases e
  case allocate size stream =>
    obtain ⟨a, i, ha, hi, -⟩ := h.allocate stream hc
    rw [AllocatorRun.step, ha] at hs
    exact Option.some.inj hs ▸ hi
  case free stream i =>
    cases hs
    have hk := h stream
    have hlive : {j | (stream, j) ∈ s.live.erase (stream, i)} = s.liveOn stream \ {i} := by
      ext j
      simp [and_comm]
    dsimp only [CachingAllocator.free]
    split
    case isTrue =>
      refine h.change stream (fun t ht c => update_of_ne (by simp [ht]) ..) (by simp +contextual) ?_
      rw [update_cache]
      refine hlive ▸ (hk.put (k := .inr _) hc le_rfl ?_).grown grown_setAllocated
      rw [Sum.update_elim_inr]
      rfl
    case isFalse =>
      exact h.change stream (fun t ht c => rfl) (by simp +contextual) (hlive ▸ hk.free hc)

theorem allocated_is_enough (r : Reaches step Careful {} s) (hs : 1 ≤ size)
    (hsep : Separate (s.allocator.pools stream) (s.liveOn stream) size) : ∃ a i,
      s.allocator.allocate size stream = some (a, some i) ∧
        size ≤ ((a.pools stream).heap i).size := by
  have h : Inv s := r.invariant (P := Inv) (fun t => {
    config := rfl
    nonneg := fun _ => le_rfl
    created := by simp
    stocked := by constructor <;> simp [freeList] }) Inv.step
  obtain ⟨a, i, ha, -, hi⟩ := h.allocate stream hs
  exact ⟨a, i, ha, hi hsep⟩

-- The first block, of 1536 bytes, is freed and handed out again.
theorem allocated_is_enough_reused : ∃ s a, Reaches step Careful {} s ∧ s.live = {(0, 1)} ∧
    s.allocator.allocate 1200 0 = some (a, some 0) ∧ 1200 ≤ ((a.pools 0).heap 0).size := by
  obtain ⟨s, r, hl, hi, hsep⟩ : ∃ s, Reaches step Careful {} s ∧ s.live = {(0, 1)} ∧
      (s.allocator.allocate 1200 0).any (·.2 = some 0) ∧
        Separate (s.allocator.pools 0) (s.liveOn 0) 1200 :=
    Reaches.exists_of_run [.allocate 1500 0, .allocate 600 0, .free 0 0] (by decide +kernel)
  obtain ⟨a, i, ha, hsize⟩ := allocated_is_enough r (by decide) hsep
  obtain rfl : i = 0 := by simpa [ha] using hi
  exact ⟨s, a, r, hl, ha, hsize⟩

-- A block of 2560 bytes is in the bucket for up to 4096.
theorem allocation_too_small : ∃ s, Reaches step Careful {} s ∧
    (s.allocator.allocate 4096 0).any fun r => r.2.any fun i =>
      ((r.1.pools 0).heap i).size = 2560 :=
  Reaches.exists_of_run [.allocate 2100 0, .free 0 0] (by decide +kernel)

end AllocatorRun

end GpuMemory
