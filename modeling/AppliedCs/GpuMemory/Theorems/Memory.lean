import AppliedCs.GpuMemory.Memory
import AppliedCs.Lib.Ranges
import AppliedCs.Lib.Shelves
import AppliedCs.Lib.Transition

namespace GpuMemory

open Ranges Shelves Transition MemoryPool Function AList Option List MemoryBlock

def MemoryBlock.piece (b : MemoryBlock) : Piece BlockId ℤ :=
  ⟨b.ptr, b.ptr + b.size, b.next⟩

-- Where the pool looks for a block: on a free list, or under the address of an allocated block.
def MemoryBlock.shelf (b : MemoryBlock) : ℤ ⊕ ℤ :=
  if b.allocated then .inr b.ptr else .inl (getSizeClass b.size)

theorem MemoryBlock.shelf_free {b : MemoryBlock} (h : b.allocated = false) :
    b.shelf = .inl (getSizeClass b.size) :=
  if_neg (by simp [h])

namespace MemoryPool

variable {p : MemoryPool} {stream : ℤ}

def pieces (p : MemoryPool) : BlockId → Piece BlockId ℤ :=
  piece ∘ p.heap

def shelves (p : MemoryPool) : ℤ ⊕ ℤ → List BlockId :=
  Sum.elim p.freeList fun ptr => (p.allocatedBlocks.lookup ptr).toList

section Fields

variable (p)

@[simp]
theorem setBlock_self (i : BlockId) (b : MemoryBlock) : (p.setBlock i b).heap i = b :=
  update_self ..

theorem setBlock_of_ne (h : j ≠ i) (b : MemoryBlock) : (p.setBlock i b).heap j = p.heap j :=
  update_of_ne h ..

theorem pieces_setBlock (i : BlockId) (b : MemoryBlock) :
    (p.setBlock i b).pieces = update p.pieces i b.piece :=
  comp_update ..

theorem setBlock_field {β : Type*} (f : MemoryBlock → β) (hf : f b = f (p.heap i)) (j : BlockId) :
    f ((p.setBlock i b).heap j) = f (p.heap j) := by
  by_cases h : j = i
  case pos => rw [h, setBlock_self, hf]
  case neg => rw [setBlock_of_ne _ h]

theorem setPrev_field {β : Type*} (f : MemoryBlock → β) (hf : ∀ b prev, f { b with prev } = f b)
    (i : Option BlockId) (k j : BlockId) : f ((p.setPrev i k).heap j) = f (p.heap j) := by
  cases i
  case none => rfl
  case some i => exact p.setBlock_field f (hf ..) j

theorem setFreeList_freeList (sc : ℤ) (blocks : List BlockId) :
    (p.setFreeList sc blocks).freeList = update p.freeList sc blocks := by
  ext1 sc'
  by_cases h : sc' = sc
  case neg => simp [freeList, setFreeList, h]
  case pos =>
    subst h
    simp [freeList, setFreeList]

theorem shelves_addFreeBlock (i : BlockId) : (p.addFreeBlock i).shelves =
    update p.shelves (.inl (getSizeClass (p.heap i).size))
      (p.shelves (.inl (getSizeClass (p.heap i).size)) ++ [i]) := by
  rw [shelves, shelves, Sum.update_elim_inl]
  exact congrArg (Sum.elim · _) (p.setFreeList_freeList ..)

theorem taken_handOut :
    (p.handOut i).allocatedBlocks = p.allocatedBlocks.insert (p.heap i).ptr i := by
  simp [handOut, setBlock]

theorem shelves_handOut (h : p.allocatedBlocks.lookup (p.heap i).ptr = none) :
    (p.handOut i).shelves =
      update p.shelves (.inr (p.heap i).ptr) (p.shelves (.inr (p.heap i).ptr) ++ [i]) := by
  simp only [shelves, Sum.update_elim_inr, Sum.elim_inr, taken_handOut, h]
  refine congrArg (Sum.elim _) (funext fun ptr => ?_)
  by_cases hp : ptr = (p.heap i).ptr
  case pos =>
    subst hp
    simp
  case neg => simp [hp]

theorem exists_of_removeFromFreeList (i : BlockId) : ∃ blocks,
    p.removeFromFreeList i = { p with freeBlocks := blocks } ∧
      (p.removeFromFreeList i).freeList = update p.freeList (getSizeClass (p.heap i).size)
        ((p.freeList (getSizeClass (p.heap i).size)).eraseP fun j =>
          (p.heap j).ptr == (p.heap i).ptr) := by
  unfold removeFromFreeList
  dsimp only
  split
  case h_1 hl =>
    refine ⟨_, rfl, (update_eq_self_iff.mpr ?_).symm⟩
    simp [freeList, hl]
  case h_2 blocks hl =>
    refine ⟨_, rfl, (p.setFreeList_freeList ..).trans ?_⟩
    simp [freeList, hl]

end Fields

theorem exists_of_findFreeBlock (hf : p.findFreeBlock sc stream = some (p', i)) :
    ∃ c ≥ sc, ∃ l₁ l₂ blocks, p' = { p with freeBlocks := blocks } ∧
      p.freeList c = l₁ ++ i :: l₂ ∧ p'.freeList = update p.freeList c (l₁ ++ l₂) := by
  obtain ⟨c, hle, ht⟩ : ∃ c ≥ sc, p.takeFrom stream c = some (p', i) := by
    cases or_eq_some_iff.mp hf
    case inl hf => exact ⟨_, le_rfl, hf⟩
    case inr hf =>
      have ⟨_, hc, hf⟩ := exists_of_findSome?_eq_some hf.2
      exact ⟨_, (of_decide_eq_true (mem_filter.mp hc).2).le, hf⟩
  obtain ⟨index, -, ht⟩ := bind_eq_some_iff.mp ht
  obtain ⟨i', hi, he⟩ := map_eq_some_iff.mp ht
  cases he
  obtain ⟨hlt, rfl⟩ := List.getElem?_eq_some_iff.mp hi
  have hsplit := (take_append_drop index (p.freeList c)).symm
  rw [drop_eq_getElem_cons hlt] at hsplit
  refine ⟨c, hle, _, _, _, rfl, hsplit, ?_⟩
  rw [← eraseIdx_eq_take_drop_succ]
  exact p.setFreeList_freeList ..

-- The blocks have the same places and are linked to the same blocks behind them.
structure Alike (p p' : MemoryPool) : Prop where
  pieces : p'.pieces = p.pieces
  fresh : p'.fresh = p.fresh
  regions : p'.regions = p.regions
  nextPtr : p'.nextPtr = p.nextPtr

theorem Alike.ptr (h : Alike p p') (j : BlockId) : (p'.heap j).ptr = (p.heap j).ptr :=
  congrArg Piece.lo (congrFun h.pieces j)

theorem Alike.size (h : Alike p p') (j : BlockId) : (p'.heap j).size = (p.heap j).size := by
  have hhi : (p'.heap j).ptr + _ = _ + _ := congrArg Piece.hi (congrFun h.pieces j)
  rwa [h.ptr, add_right_inj] at hhi

theorem alike_setPrev (p : MemoryPool) (i : Option BlockId) (k : BlockId) :
    Alike p (p.setPrev i k) where
  pieces := funext <| p.setPrev_field piece (fun _ _ => rfl) i k
  fresh := by cases i <;> rfl
  regions := by cases i <;> rfl
  nextPtr := by cases i <;> rfl

theorem taken_setPrev (p : MemoryPool) (i : Option BlockId) (k : BlockId) :
    (p.setPrev i k).allocatedBlocks = p.allocatedBlocks := by
  cases i <;> rfl

theorem shelves_setPrev (p : MemoryPool) (i : Option BlockId) (k : BlockId) :
    (p.setPrev i k).shelves = p.shelves := by
  cases i <;> rfl

end MemoryPool

-- The blocks that the pool knows of are pieces of its regions.
structure Tiles (p : MemoryPool) (held : Set BlockId) (room : BlockId → Set ℤ) : Prop where
  fresh : ∀ i ∈ held, i < p.fresh
  tiled : Tiled held p.pieces room p.nextPtr
  rooms : ∀ i ∈ held, ∃ r ∈ p.regions, room i = Set.Ico r.start (r.start + r.size)

variable {p : MemoryPool} {held : Set BlockId} {size stream : ℤ}

namespace Tiles

variable (h : Tiles p held room)

include h

theorem congr (ha : Alike p p') : Tiles p' held room :=
  ⟨ha.fresh ▸ h.fresh, ha.pieces ▸ ha.nextPtr ▸ h.tiled, ha.regions ▸ h.rooms⟩

theorem fresh_notMem : p.fresh ∉ held :=
  fun hm => Nat.lt_irrefl _ (h.fresh _ hm)

theorem ne_fresh (hj : j ∈ held) : j ≠ p.fresh :=
  Nat.ne_of_lt (h.fresh j hj)

theorem fresh_insert : ∀ j ∈ insert p.fresh held, j < p.fresh + 1 := by
  rintro j (rfl | hj)
  · exact Nat.lt_succ_self _
  · exact Nat.lt_succ_of_lt (h.fresh j hj)

end Tiles

-- Every block that is listed is listed where it is looked for.
abbrev Books (p : MemoryPool) (out : Set BlockId) : Prop :=
  Stocked (fun k i => (p.heap i).shelf = k) p.shelves out

-- Between two calls no block is in hand.
structure Inv (p : MemoryPool) (held : Set BlockId) (room : BlockId → Set ℤ) (hand : Set BlockId) :
    Prop where
  tiles : Tiles p held room
  books : Books p (heldᶜ ∪ hand)

-- An operation does not move the blocks that were held, nor does it list them otherwise.
structure Keeps (p p' : MemoryPool) (held : Set BlockId) : Prop where
  ptr : ∀ j ∈ held, (p'.heap j).ptr = (p.heap j).ptr
  taken : p'.allocatedBlocks = p.allocatedBlocks

-- The pool lists the block as allocated.
def Live (p : MemoryPool) (i : BlockId) : Prop :=
  p.allocatedBlocks.lookup (p.heap i).ptr = some i

-- The pool after the first part of `free`, with the block in hand.
def takeBack (p : MemoryPool) (i : BlockId) : MemoryPool :=
  { p with allocatedBlocks := p.allocatedBlocks.erase (p.heap i).ptr }.setBlock i
    { p.heap i with allocated := false }

theorem shelves_takeBack :
    (takeBack p i).shelves = update p.shelves (.inr (p.heap i).ptr) ([] ++ []) := by
  simp only [shelves, Sum.update_elim_inr, takeBack, setBlock]
  refine congrArg (Sum.elim _) (funext fun ptr => ?_)
  by_cases hp : ptr = (p.heap i).ptr
  case pos =>
    subst hp
    simp
  case neg => simp [hp]

section Cut

-- The pool after a block was cut, without the link back from the block behind.
def cutPool (p : MemoryPool) (i : BlockId) (size : ℤ) : MemoryPool :=
  ({ p with fresh := p.fresh + 1 }.setBlock p.fresh
    { ptr := (p.heap i).ptr + size
      size := (p.heap i).size - size
      allocated := false
      stream := (p.heap i).stream
      prev := some i
      next := (p.heap i).next }).setBlock i { p.heap i with size, next := some p.fresh }

theorem cutPool_of_ne (hj : j ≠ i) (hj' : j ≠ p.fresh) : (cutPool p i size).heap j = p.heap j := by
  rw [cutPool, setBlock_of_ne _ hj, setBlock_of_ne _ hj']

theorem Tiles.cut (h : Tiles p held room) (hi : i ∈ held) (h₁ : 0 < size)
    (h₂ : size < (p.heap i).size) :
    Tiles (cutPool p i size) (insert p.fresh held) (update room p.fresh (room i)) where
  fresh := h.fresh_insert
  tiled := by
    have hhi : (p.heap i).ptr + size + ((p.heap i).size - size) = (p.pieces i).hi := by
      simp [pieces, piece]
    simp only [cutPool, pieces_setBlock, piece, hhi]
    exact h.tiled.cut hi h.fresh_notMem (lt_add_of_pos_right (p.heap i).ptr h₁)
      (add_lt_add_right h₂ _)
  rooms := by
    rintro j (rfl | hj)
    · rw [update_self]
      exact h.rooms i hi
    · rw [update_of_ne (h.ne_fresh hj)]
      exact h.rooms j hj

theorem split_eq_none (h : (p.heap i).size ≤ size) : p.split i size = (p, none) :=
  if_pos h

variable (h : size < (p.heap i).size)

include h

theorem split_fresh : (p.split i size).2 = some p.fresh := by
  rw [split, if_neg (not_le.mpr h)]

theorem split_field (hi : i ≠ p.fresh) {β : Type*}
    (f : MemoryBlock → β) (hf : ∀ b prev, f { b with prev } = f b) (j : BlockId) :
    f ((p.split i size).1.heap j) = f ((cutPool p i size).heap j) := by
  simp only [split, ge_iff_le, if_neg (not_le.mpr h), cutPool]
  by_cases hj : j = i
  case pos =>
    subst hj
    rw [setBlock_self, setBlock_self]
    refine (setPrev_field _ (fun b => f { b with size, next := some p.fresh })
      (fun b prev => hf { b with size, next := some p.fresh } prev) ..).trans ?_
    rw [setBlock_of_ne _ hi]
  case neg =>
    rw [setBlock_of_ne _ hj, setBlock_of_ne _ hj]
    exact setPrev_field _ f hf ..

theorem split_alike (hi : i ≠ p.fresh) : Alike (cutPool p i size) (p.split i size).1 where
  pieces := funext <| split_field h hi piece fun _ _ => rfl
  fresh := by
    rw [split, if_neg (not_le.mpr h)]
    exact (alike_setPrev ..).fresh
  regions := by
    rw [split, if_neg (not_le.mpr h)]
    exact (alike_setPrev ..).regions
  nextPtr := by
    rw [split, if_neg (not_le.mpr h)]
    exact (alike_setPrev ..).nextPtr

theorem taken_split : (p.split i size).1.allocatedBlocks = p.allocatedBlocks := by
  rw [split, if_neg (not_le.mpr h)]
  exact taken_setPrev ..

theorem shelves_split : (p.split i size).1.shelves = p.shelves := by
  rw [split, if_neg (not_le.mpr h)]
  exact shelves_setPrev ..

end Cut

namespace Books

variable {out out' : Set BlockId} (h : Books p out)

include h

theorem change (hs : p'.shelves = p.shelves)
    (hh : ∀ j ∉ out, j ∉ out' ∧ (p'.heap j).shelf = (p.heap j).shelf) : Books p' out' :=
  h.mono (fun _ => hs ▸ .refl _) fun _ ho hk => ⟨(hh _ ho).1, (hh _ ho).2.trans hk⟩

theorem addFreeBlock (hi : i ∈ out) (ha : (p.heap i).allocated = false)
    (ho : ∀ j ∈ out', j ∈ out ∧ j ≠ i) : Books (p.addFreeBlock i) out' := by
  rw [Books, shelves_addFreeBlock]
  exact h.put hi (shelf_free ha) ho

end Books

theorem Keeps.trans (h₁ : Keeps p₁ p₂ held) (h₂ : Keeps p₂ p₃ held') (hs : held ⊆ held') :
    Keeps p₁ p₃ held :=
  ⟨fun j hj => (h₂.ptr j (hs hj)).trans (h₁.ptr j hj), h₂.taken.trans h₁.taken⟩

theorem Keeps.live (h : Keeps p p' held) (hj : j ∈ held) : Live p' j ↔ Live p j := by
  rw [Live, Live, h.ptr j hj, h.taken]

namespace Inv

theorem mem_held (h : Inv p held room hand) (hi : i ∈ p.shelves k) : i ∈ held ∧ i ∉ hand := by
  simpa using h.books.inside hi

theorem mem_of_live (h : Inv p held room hand) (hl : Live p i) : i ∈ held ∧ i ∉ hand :=
  h.mem_held (k := .inr _) (mem_toList.mpr hl)

theorem size_pos (h : Inv p held room hand) (hi : i ∈ held) : 0 < (p.heap i).size :=
  lt_add_iff_pos_right _ |>.mp (h.tiles.tiled.nonempty i hi)

-- No other block has the address.
theorem eq_of_shelf (h : Inv p held room hand) (hi : i ∈ held) (hj : j ∈ held)
    (ha : (p.heap j).shelf = .inr (p.heap i).ptr) : j = i := by
  refine h.tiles.tiled.eq_of_lo_eq hj hi ?_
  unfold shelf at ha
  split at ha
  case isTrue => exact Sum.inr.inj ha
  case isFalse => cases ha

theorem findFreeBlock (h : Inv p held room ∅) (hf : p.findFreeBlock sc stream = some (p', i)) :
    Inv p' held room {i} ∧ i ∈ held ∧ Keeps p p' held ∧ p'.heap = p.heap := by
  obtain ⟨c, -, l₁, l₂, blocks, rfl, hl, hl'⟩ := exists_of_findFreeBlock hf
  have hk : p.shelves (.inl c) = l₁ ++ i :: l₂ := hl
  refine ⟨⟨h.tiles.congr ⟨rfl, rfl, rfl, rfl⟩, ?_⟩, (h.mem_held (k := .inl c) ?_).1,
    ⟨fun _ _ => rfl, rfl⟩, rfl⟩
  · rw [Books, shelves, hl', ← Sum.update_elim_inl]
    exact h.books.take hk (by simp +contextual)
  · simp [hk]

theorem allocateNewRegion (h : Inv p held room ∅)
    (ha : p.allocateNewRegion size request = some (p', i)) :
    ∃ room', Inv p' (insert i held) room' {i} ∧ Keeps p p' held ∧
      ∀ j ∈ held, p'.heap j = p.heap j := by
  unfold MemoryPool.allocateNewRegion at ha
  split at ha
  case isTrue => cases ha
  cases ha
  have hpos : 0 < max size (2 * 1024 * 1024) := lt_of_lt_of_le (by decide) (le_max_right _ _)
  have hne {j} (hj : j ∈ held) := h.tiles.ne_fresh hj
  refine ⟨update room p.fresh (Set.Ico p.nextPtr (p.nextPtr + max size (2 * 1024 * 1024))),
    ⟨⟨h.tiles.fresh_insert, ?_, ?_⟩, h.books.change rfl fun j hj => ?_⟩,
    ⟨fun j hj => congrArg ptr (setBlock_of_ne _ (hne hj) _), rfl⟩,
    fun j hj => setBlock_of_ne _ (hne hj) _⟩
  · rw [pieces_setBlock]
    exact h.tiles.tiled.add h.tiles.fresh_notMem (lt_add_of_pos_right _ hpos)
  · rintro j (rfl | hj)
    · exact ⟨_, mem_append_right _ (mem_singleton_self _), update_self ..⟩
    · obtain ⟨r, hr, he⟩ := h.tiles.rooms j hj
      exact ⟨r, mem_append_left _ hr, by rw [update_of_ne (hne hj), he]⟩
  · have hj : j ∈ held := by simpa using hj
    exact ⟨by simp [hj, hne hj], congrArg shelf (setBlock_of_ne _ (hne hj) _)⟩

theorem trimBlock (h : Inv p held room {i}) (hi : i ∈ held) (hs : 0 < size) :
    ∃ held' room', held ⊆ held' ∧ Inv (p.trimBlock i size) held' room' {i} ∧
      Keeps p (p.trimBlock i size) held ∧
      ∀ j ∈ held, j ≠ i → ((p.trimBlock i size).heap j).size = (p.heap j).size := by
  have hne : i ≠ p.fresh := h.tiles.ne_fresh hi
  by_cases hcut : (p.heap i).size > size + p.config.minSplitSize ∧ size < (p.heap i).size
  case neg =>
    have heq : p.trimBlock i size = p := by
      unfold MemoryPool.trimBlock
      split
      case isFalse => rfl
      case isTrue hc =>
        rw [split_eq_none (not_lt.mp fun hlt => hcut ⟨hc, hlt⟩)]
    rw [heq]
    exact ⟨held, room, le_rfl, h, ⟨fun _ _ => rfl, rfl⟩, fun _ _ _ => rfl⟩
  obtain ⟨hc, hlt⟩ := hcut
  have heq : p.trimBlock i size = (p.split i size).1.addFreeBlock p.fresh := by
    unfold MemoryPool.trimBlock
    rw [if_pos hc, ← Prod.mk.eta (p := p.split i size), split_fresh hlt]
  have halike := split_alike hlt hne
  have hother {j} (hj : j ∈ held) (hji : j ≠ i) : (cutPool p i size).heap j = p.heap j :=
    cutPool_of_ne hji (h.tiles.ne_fresh hj)
  have hbooks : Books (p.split i size).1 (heldᶜ ∪ {i}) := by
    refine h.books.change (shelves_split hlt) fun j hj => ⟨hj, ?_⟩
    have hj : j ≠ i ∧ j ∈ held := by simpa using hj
    rw [split_field hlt hne shelf fun _ _ => rfl, hother hj.2 hj.1]
  have hnew : ((p.split i size).1.heap p.fresh).allocated = false := by
    rw [split_field hlt hne allocated fun _ _ => rfl, cutPool, setBlock_of_ne _ hne.symm,
      setBlock_self]
  rw [heq]
  refine ⟨_, _, Set.subset_insert _ _,
    ⟨((h.tiles.cut hi hs hlt).congr halike).congr ⟨rfl, rfl, rfl, rfl⟩,
      hbooks.addFreeBlock (.inl h.tiles.fresh_notMem) hnew ?_⟩,
    ⟨fun j hj => (halike.ptr j).trans ?_, taken_split hlt⟩,
    fun j hj hji => hother hj hji ▸ halike.size j⟩
  · rintro j (hj | rfl)
    · exact ⟨.inl fun hm => hj (.inr hm), fun he => hj (.inl he)⟩
    · exact ⟨.inr rfl, hne⟩
  · by_cases hji : j = i
    case pos => rw [hji, cutPool, setBlock_self]
    case neg => rw [hother hj hji]

theorem handOut (h : Inv p held room {i}) (hi : i ∈ held) :
    Inv (p.handOut i) held room ∅ ∧ Alike p (p.handOut i) := by
  have halike : Alike p (p.handOut i) := ⟨funext <| p.setBlock_field piece rfl, rfl, rfl, rfl⟩
  have hnone : p.allocatedBlocks.lookup (p.heap i).ptr = none := by
    refine eq_none_iff_forall_ne_some.mpr fun j hl => ?_
    have hm : j ∈ p.shelves (.inr (p.heap i).ptr) := mem_toList.mpr hl
    have ⟨hj, hji⟩ := h.mem_held hm
    exact hji (h.eq_of_shelf hi hj (h.books.filed hm))
  have hbooks : Books (p.setBlock i { p.heap i with allocated := true }) (heldᶜ ∪ {i}) :=
    h.books.change rfl fun j hj => ⟨hj, congrArg shelf <| setBlock_of_ne _ (by simp_all) _⟩
  refine ⟨⟨h.tiles.congr halike, ?_⟩, halike⟩
  rw [Books, shelves_handOut _ hnone]
  refine hbooks.put (.inr rfl) (by simp [shelf]) fun j hj => ?_
  have hj : j ∉ held := by simpa using hj
  exact ⟨.inl hj, (ne_of_mem_of_not_mem hi hj).symm⟩

theorem takeBack (h : Inv p held room ∅) (hl : Live p i) : Inv (takeBack p i) held room {i} := by
  refine ⟨h.tiles.congr ⟨funext <| setBlock_field _ piece rfl, rfl, rfl, rfl⟩, ?_⟩
  have hk : p.shelves (.inr (p.heap i).ptr) = [] ++ i :: [] := by
    rw [shelves, Sum.elim_inr, show p.allocatedBlocks.lookup _ = _ from hl]
    rfl
  rw [Books, shelves_takeBack]
  refine (h.books.take hk fun j hj hji => ?_).mono (fun _ => .refl _) fun {j k} _ hj hs => ⟨hj, ?_⟩
  · simpa [hji] using hj
  · rw [← hs]
    exact congrArg shelf (setBlock_of_ne _ (by simp_all) _)

end Inv

theorem allocate_inv (h : Inv p held room ∅) (hr : (p.roundSize request.size).any (0 < ·))
    (ha : p.allocate request = some (p', out)) :
    ∃ held' room', Inv p' held' room' ∅ ∧ (∀ i ∈ out, Live p' i ∧ ¬Live p i) ∧
      ∀ j, Live p j → Live p' j ∧ (p'.heap j).size = (p.heap j).size := by
  obtain ⟨size, hsize, ha⟩ := bind_eq_some_iff.mp ha
  have hpos : 0 < size := by simpa [hsize] using hr
  split at ha
  · cases ha
    exact ⟨held, room, ⟨h.tiles.congr ⟨rfl, rfl, rfl, rfl⟩, h.books⟩, nofun, fun j hj => ⟨hj, rfl⟩⟩
  case h_2 q i hq =>
    cases ha
    -- The block comes from a free list or from a new region.
    have ⟨held₁, room₁, hsub₁, h₁, hi₁, hk₁, hheap₁⟩ : ∃ held₁ room₁, held ⊆ held₁ ∧
        Inv q held₁ room₁ {i} ∧ i ∈ held₁ ∧ Keeps p q held ∧ ∀ j ∈ held, q.heap j = p.heap j := by
      cases or_eq_some_iff.mp hq
      case inl hf =>
        have ⟨h₁, hi₁, hk₁, hheap₁⟩ := h.findFreeBlock hf
        exact ⟨held, room, le_rfl, h₁, hi₁, hk₁, fun j _ => congrFun hheap₁ j⟩
      case inr hf =>
        have ⟨room₁, h₁, hk₁, hheap₁⟩ := h.allocateNewRegion hf.2
        exact ⟨_, room₁, Set.subset_insert _ _, h₁, .inl rfl, hk₁, hheap₁⟩
    have ⟨held₂, room₂, hsub₂, h₂, hk₂, hsize₂⟩ := h₁.trimBlock hi₁ hpos
    have ⟨h₃, halike⟩ := h₂.handOut (hsub₂ hi₁)
    have hold : ∀ j, Live p j → Live (q.trimBlock i size) j ∧ j ∈ held₂ ∧ j ≠ i := fun j hj =>
      have hj₂ := ((hk₁.trans hk₂ hsub₁).live (h.mem_of_live hj).1).mpr hj
      ⟨hj₂, h₂.mem_of_live hj₂⟩
    refine ⟨held₂, room₂, h₃, ?_, fun j hj => ?_⟩
    · rintro _ ⟨⟩
      rw [Live, halike.ptr, taken_handOut, lookup_insert]
      exact ⟨rfl, fun hl => (hold i hl).2.2 rfl⟩
    · have ⟨hj₂, hmem, hne⟩ := hold j hj
      have hheld := (h.mem_of_live hj).1
      have hptr : ((q.trimBlock i size).heap j).ptr ≠ ((q.trimBlock i size).heap i).ptr :=
        hne ∘ h₂.tiles.tiled.eq_of_lo_eq hmem (hsub₂ hi₁)
      rw [Live, halike.ptr, taken_handOut, lookup_insert_ne hptr]
      refine ⟨hj₂, (halike.size j).trans ?_⟩
      rw [hsize₂ j (hsub₁ hheld) hne, hheap₁ j hheld]

section Coalesce

-- What the coalescing with the block in front looks at.
structure SameFront (p p' : MemoryPool) (i : BlockId) : Prop where
  prev : (p'.heap i).prev = (p.heap i).prev
  place : ∀ j, (p'.heap j).ptr = (p.heap j).ptr ∧ (p'.heap j).stream = (p.heap j).stream
  front : ∀ j, j ≠ i → (p'.heap j).allocated = (p.heap j).allocated ∧
            (p'.heap j).size = (p.heap j).size

-- A free block goes away. Its address is that of no other block on the list.
theorem Inv.removeFromFreeList (h : Inv p held room hand) (hj : j ∈ held)
    (ha : (p.heap j).allocated = false) :
    Books (p.removeFromFreeList j) ((held \ {j})ᶜ ∪ hand) := by
  obtain ⟨blocks, hr, hl⟩ := p.exists_of_removeFromFreeList j
  have honly {l} (hl : l ∈ p.freeList (getSizeClass (p.heap j).size))
      (he : (p.heap l).ptr == (p.heap j).ptr) : l = j :=
    h.tiles.tiled.eq_of_lo_eq (h.mem_held (k := .inl _) hl).1 hj (eq_of_beq he)
  rw [hr] at hl ⊢
  by_cases hm : j ∈ p.freeList (getSizeClass (p.heap j).size)
  case pos =>
    obtain ⟨l, l₁, l₂, -, hptr, hsplit, he⟩ :=
      exists_of_eraseP (p := fun l => (p.heap l).ptr == (p.heap j).ptr) hm (beq_self_eq_true _)
    obtain rfl := honly (by simp [hsplit]) hptr
    rw [Books, shelves, hl, he, ← Sum.update_elim_inl]
    refine h.books.take hsplit fun l' hl' hne => ?_
    simpa [hne] using hl'
  case neg =>
    rw [eraseP_of_forall_not fun l hl he => hm (honly hl he ▸ hl), update_eq_self] at hl
    rw [Books, shelves, hl]
    refine h.books.mono (fun _ => .refl _) fun {l k} hl _ hk => ⟨?_, hk⟩
    have hlj : l ≠ j := by
      rintro rfl
      rw [shelf_free ha] at hk
      subst hk
      exact hm hl
    simpa [hlj] using h.mem_held hl

theorem coalesceNext_inv (h : Inv p held room {i}) (hi : i ∈ held) :
    ∃ held', i ∈ held' ∧ Inv (p.coalesceNext i) held' room {i} ∧ Keeps p (p.coalesceNext i) held ∧
      ((p.coalesceNext i).heap i).allocated = (p.heap i).allocated ∧
      SameFront p (p.coalesceNext i) i := by
  have hsame : SameFront p p i := ⟨rfl, fun _ => ⟨rfl, rfl⟩, fun _ _ => ⟨rfl, rfl⟩⟩
  unfold coalesceNext
  split
  case h_2 => exact ⟨held, hi, h, ⟨fun _ _ => rfl, rfl⟩, rfl, hsame⟩
  case h_1 j hn =>
    split
    case isFalse => exact ⟨held, hi, h, ⟨fun _ _ => rfl, rfl⟩, rfl, hsame⟩
    case isTrue hcm =>
      obtain ⟨hj, hadj, -⟩ := h.tiles.tiled.linked i hi j hn
      have hadj : (p.heap i).ptr + (p.heap i).size = (p.heap j).ptr := hadj
      have halloc : (p.heap j).allocated = false := by
        simp only [canMergeWith, Bool.and_eq_true, Bool.not_eq_true'] at hcm
        exact hcm.1.1
      have hji : j ≠ i := (h.tiles.tiled.ne_of_linked hi hn).symm
      have hbooks := h.removeFromFreeList hj halloc
      obtain ⟨blocks, hr, -⟩ := p.exists_of_removeFromFreeList j
      rw [hr] at hbooks ⊢
      -- The block with both sizes.
      let joined := { p with freeBlocks := blocks }.setBlock i
        { p.heap i with size := (p.heap i).size + (p.heap j).size, next := (p.heap j).next }
      have hself : joined.heap i = { p.heap i with
          size := (p.heap i).size + (p.heap j).size, next := (p.heap j).next } := setBlock_self ..
      have hother {l} (hl : l ≠ i) : joined.heap l = p.heap l := setBlock_of_ne _ hl _
      have hmerge : (MemoryPool.merge { p with freeBlocks := blocks } i j).1 =
          joined.setPrev (p.heap j).next i := by
        rw [MemoryPool.merge, if_neg (not_not.mpr hadj.symm)]
      have htiles : Tiles joined (held \ {j}) room := by
        refine ⟨fun l hl => h.tiles.fresh l hl.1, ?_, fun l hl => h.tiles.rooms l hl.1⟩
        have hhi : (p.heap i).ptr + ((p.heap i).size + (p.heap j).size) = (p.pieces j).hi := by
          rw [← add_assoc, hadj]
          rfl
        simp only [joined, pieces_setBlock, piece, hhi]
        exact h.tiles.tiled.join hi hn
      have halike := alike_setPrev joined (p.heap j).next i
      have hkeep {β : Type} (f : MemoryBlock → β) (hf : ∀ b prev, f { b with prev } = f b)
          (hf' : f (joined.heap i) = f (p.heap i)) (l : BlockId) :
          f ((joined.setPrev (p.heap j).next i).heap l) = f (p.heap l) :=
        (setPrev_field _ f hf ..).trans <| setBlock_field _ f (hself ▸ hf') l
      rw [hmerge]
      refine ⟨held \ {j}, ⟨hi, hji.symm⟩, ⟨htiles.congr halike,
        hbooks.change (shelves_setPrev ..) fun l hl => ⟨hl, ?_⟩⟩, ⟨fun l _ => ?_, taken_setPrev ..⟩,
        hkeep allocated (fun _ _ => rfl) (hself ▸ rfl) i, ?_, fun l => ?_, fun l hl => ?_⟩
      · rw [setPrev_field _ shelf fun _ _ => rfl, hother (by simp_all)]
      · exact hkeep ptr (fun _ _ => rfl) (hself ▸ rfl) l
      · cases hnj : (p.heap j).next
        case none => rw [setPrev, hself]
        case some l =>
          have hil : i ≠ l := by
            rintro rfl
            have hlo := (h.tiles.tiled.linked j hj i hnj).2.1
            have := h.tiles.tiled.nonempty i hi
            have := h.tiles.tiled.nonempty j hj
            simp only [pieces, piece, comp_apply] at *
            omega
          rw [setPrev, setBlock_of_ne _ hil, hself]
      · exact ⟨hkeep ptr (fun _ _ => rfl) (hself ▸ rfl) l,
          hkeep stream (fun _ _ => rfl) (hself ▸ rfl) l⟩
      · rw [halike.size, hother hl]
        exact ⟨hkeep allocated (fun _ _ => rfl) (hself ▸ rfl) l, rfl⟩

-- The block in front is not free, or it is not what the block was cut from.
def FrontTaken (p : MemoryPool) (i : BlockId) : Prop :=
  ∀ j ∈ (p.heap i).prev, (p.heap j).allocated ∨ (p.heap i).stream ≠ (p.heap j).stream ∨
    (p.heap i).ptr ≠ (p.heap j).ptr + (p.heap j).size

instance (p : MemoryPool) (i : BlockId) : Decidable (FrontTaken p i) :=
  inferInstanceAs <| Decidable (∀ j ∈ (p.heap i).prev, _)

theorem coalescePrev_eq (hf : FrontTaken p i) : p.coalescePrev i = (p, i) := by
  unfold coalescePrev
  split
  case h_2 => rfl
  case h_1 j hj =>
    have := hf j hj
    rw [if_neg]
    simp only [canMergeWith, Bool.and_eq_true, Bool.not_eq_true', beq_iff_eq]
    rintro ⟨ha, ⟨_, hs⟩, hp⟩
    simp [ha, hs, hp] at this

theorem FrontTaken.of_sameFront (hf : FrontTaken p i) (hs : SameFront p p' i)
    (hpos : 0 < (p'.heap i).size) : FrontTaken p' i := by
  intro j hj
  rw [hs.prev] at hj
  by_cases hji : j = i
  case pos =>
    -- A block is not in front of itself.
    subst hji
    exact .inr <| .inr (by omega)
  case neg =>
    rw [(hs.place j).1, (hs.place j).2, (hs.place i).1, (hs.place i).2, (hs.front j hji).1,
      (hs.front j hji).2]
    exact hf j hj

end Coalesce

theorem sameFront_takeBack : SameFront p (takeBack p i) i where
  prev := setBlock_field _ prev (by rfl) i
  place j := ⟨setBlock_field _ ptr (by rfl) j, setBlock_field _ stream (by rfl) j⟩
  front j hj := by
    rw [show (takeBack p i).heap j = p.heap j from setBlock_of_ne _ hj _]
    exact ⟨rfl, rfl⟩

-- The block is taken back and takes the block behind it over.
def released (p : MemoryPool) (i : BlockId) : MemoryPool :=
  (takeBack p i).coalesceNext i

theorem free_inv (h : Inv p held room ∅) (hl : Live p i) (hf : FrontTaken p i) :
    ∃ held' room', Inv (p.free i) held' room' ∅ ∧
      (∀ j, j ≠ i → Live p j → Live (p.free i) j) ∧
      p.free i = { (released p i).addFreeBlock i with
        stats := updateStatsFree (released p i).stats ((released p i).heap i).size } := by
  have hi : i ∈ held := (h.mem_of_live hl).1
  have h₁ := h.takeBack hl
  have ⟨held₂, hi₂, h₂, hk₂, ha₂, hs₂⟩ := coalesceNext_inv h₁ hi
  have hf₁ := hf.of_sameFront sameFront_takeBack (h₁.size_pos hi)
  have hf₂ := hf₁.of_sameFront hs₂ (h₂.size_pos hi₂)
  have halloc₁ : ((takeBack p i).heap i).allocated = false := by
    rw [show (takeBack p i).heap i = _ from setBlock_self ..]
  rw [released]
  generalize hq : (takeBack p i).coalesceNext i = q at h₂ hk₂ ha₂ hf₂ ⊢
  have heq : p.free i = { q.addFreeBlock i with
      stats := updateStatsFree q.stats (q.heap i).size } := by
    simp only [free, show p.allocatedBlocks.lookup (p.heap i).ptr = some i from hl]
    rw [show MemoryPool.setBlock _ _ _ = takeBack p i from rfl, coalesce, hq, coalescePrev_eq hf₂]
    rfl
  have hbooks : Books (q.addFreeBlock i) (held₂ᶜ ∪ ∅) :=
    h₂.books.addFreeBlock (.inr rfl) (ha₂.trans halloc₁) fun j hj => by
      have hj : j ∉ held₂ := by simpa using hj
      exact ⟨.inl hj, (ne_of_mem_of_not_mem hi₂ hj).symm⟩
  rw [heq]
  refine ⟨held₂, room, ⟨h₂.tiles.congr ⟨rfl, rfl, rfl, rfl⟩, hbooks⟩, fun j hji hj => ?_, rfl⟩
  have hheld := (h.mem_of_live hj).1
  have hptr : (p.heap j).ptr ≠ (p.heap i).ptr := hji ∘ h.tiles.tiled.eq_of_lo_eq hheld hi
  refine (hk₂.live hheld).mpr ?_
  rw [Live, show (takeBack p i).heap j = p.heap j from setBlock_of_ne _ hji _]
  exact (lookup_erase_ne hptr).trans hj

-- A pool with the blocks that its callers have got and not freed.
structure PoolRun where
  pool : MemoryPool
  live : Finset BlockId := ∅

inductive PoolEvent
  | allocate (request : AllocationRequest)
  | free (block : BlockId)

namespace PoolRun

variable (s : PoolRun)

def step : PoolEvent → Option PoolRun
  | .allocate request => do
    let r ← s.pool.allocate request
    return { pool := r.1, live := r.2.elim s.live (insert · s.live) }
  | .free block =>
    if block ∈ s.live then some { pool := s.pool.free block, live := s.live.erase block } else none

-- Sizes are rounded up to positive ones, and a block is not freed while the block in front of it is
-- free.
def Careful : PoolEvent → Prop
  | .allocate request => (s.pool.roundSize request.size).any (0 < ·)
  | .free block => FrontTaken s.pool block

instance (s : PoolRun) : (e : PoolEvent) → Decidable (Careful s e)
  | .allocate request => inferInstanceAs <| Decidable ((s.pool.roundSize request.size).any _)
  | .free block => inferInstanceAs <| Decidable (FrontTaken s.pool block)

def addresses (i : BlockId) : Set ℤ :=
  Set.Ico (s.pool.heap i).ptr ((s.pool.heap i).ptr + (s.pool.heap i).size)

-- What holds of a pool between two calls.
def Sound : Prop :=
  ∃ held room, Inv s.pool held room ∅ ∧ ∀ i ∈ s.live, Live s.pool i

theorem sound_new (config : MemoryConfig) : Sound { pool := { config } } := by
  refine ⟨∅, fun _ => ∅, ⟨⟨nofun, ⟨nofun, nofun, nofun, nofun, nofun⟩, nofun⟩, ?_⟩, by simp⟩
  have hnil (k) : MemoryPool.shelves { config } k = [] := by cases k <;> rfl
  constructor <;> simp [hnil]

theorem Sound.step {s : PoolRun} (h : Sound s) (hc : Careful s e) (hs : s.step e = some s') :
    Sound s' := by
  obtain ⟨held, room, h, hlive⟩ := h
  cases e
  case allocate request =>
    obtain ⟨⟨pool, result⟩, ha, he⟩ := bind_eq_some_iff.mp hs
    cases he
    have ⟨held', room', h', hnew, hold⟩ := allocate_inv h hc ha
    refine ⟨held', room', h', fun i hi => ?_⟩
    cases result
    case none => exact (hold i (hlive i hi)).1
    case some j =>
      cases Finset.mem_insert.mp hi
      case inl he => exact he ▸ (hnew j rfl).1
      case inr hi => exact (hold i (hlive i hi)).1
  case free block =>
    simp only [PoolRun.step, ite_none_right_eq_some] at hs
    obtain ⟨hmem, he⟩ := hs
    cases he
    have ⟨held', room', h', hold, _⟩ := free_inv h (hlive block hmem) hc
    refine ⟨held', room', h', fun i hi => ?_⟩
    have ⟨hne, hi⟩ := Finset.mem_erase.mp hi
    exact hold i hne (hlive i hi)

theorem live_blocks_apart {config : MemoryConfig} {s : PoolRun}
    (r : Reaches step Careful { pool := { config } } s) :
    (∀ i ∈ s.live, ∀ j ∈ s.live, i ≠ j → Disjoint (s.addresses i) (s.addresses j)) ∧
    ∀ i ∈ s.live, ∃ region ∈ s.pool.regions,
      s.addresses i ⊆ Set.Ico region.start (region.start + region.size) := by
  obtain ⟨held, room, h, hlive⟩ := r.invariant (P := Sound) (sound_new config) .step
  have hheld : ∀ i ∈ s.live, i ∈ held := fun i hi => (h.mem_of_live (hlive i hi)).1
  refine ⟨fun i hi j hj hne => h.tiles.tiled.disjoint (hheld i hi) (hheld j hj) hne, fun i hi => ?_⟩
  obtain ⟨r, hr, he⟩ := h.tiles.rooms i (hheld i hi)
  exact ⟨r, hr, fun a ha => he ▸ h.tiles.tiled.within i (hheld i hi) a ha.1 ha.2⟩

-- Two blocks are cut from a region, and the first is freed and taken again.
theorem live_blocks_apart_two : ∃ s, Reaches step Careful { pool := { config := {} } } s ∧
    s.live = {0, 1} ∧ Disjoint (s.addresses 0) (s.addresses 1) := by
  obtain ⟨s, r, hs⟩ : ∃ s, Reaches step Careful { pool := { config := {} } } s ∧ s.live = {0, 1} :=
    Reaches.exists_of_run [.allocate ⟨512, 0⟩, .allocate ⟨1000, 0⟩, .free 0, .allocate ⟨300, 0⟩]
      (by decide +kernel)
  exact ⟨s, r, hs, (live_blocks_apart r).1 0 (by simp [hs]) 1 (by simp [hs]) (by decide)⟩

-- Three neighbours are freed, the one in the middle first. The first takes the second over, which
-- has taken the third over, while the third is on a free list of its own.
theorem live_blocks_overlap : ∃ s, Reaches step anyEvent { pool := { config := {} } } s ∧
    s.live = {0, 2} ∧ ¬Disjoint (s.addresses 0) (s.addresses 2) := by
  obtain ⟨s, r, hs, h₀, h₂⟩ : ∃ s, Reaches step anyEvent { pool := { config := {} } } s ∧
      s.live = {0, 2} ∧
      ((s.pool.heap 0).ptr = 0x100000 ∧ (s.pool.heap 0).size = 2 * 1024 * 1024) ∧
      (s.pool.heap 2).ptr = 0x100000 + 1024 ∧ (s.pool.heap 2).size = 512 :=
    Reaches.exists_of_run
      [.allocate ⟨512, 0⟩, .allocate ⟨512, 0⟩, .allocate ⟨512, 0⟩, .free 1, .free 2, .free 0,
        .allocate ⟨512, 0⟩, .allocate ⟨2 * 1024 * 1024, 0⟩]
      (by decide +kernel)
  refine ⟨s, r, hs, Set.not_disjoint_iff.mpr ⟨0x100000 + 1024, ?_, ?_⟩⟩ <;> simp [addresses, h₀, h₂]

end PoolRun

end GpuMemory
