import AppliedCs.GpuMemory.Topology
import AppliedCs.Lib.ShortestPath

namespace GpuMemory.GpuTopology

open List ShortestPath

variable {t : GpuTopology n} {src dst : Fin n} {pq : List (Candidate n)}

-- A path along links, with the sum of their latencies and the smallest of their bandwidths.
inductive IsPath (t : GpuTopology n) (src : Fin n) :
    List (Fin n) → Fin n → ℚ → WithTop ℚ → Prop
  | refl : IsPath t src [src] src 0 ⊤
  | step {path : List (Fin n)} {v w : Fin n} {l : ℚ} {b : WithTop ℚ} {link : GpuLink}
    (h : IsPath t src path v l b) (hl : t.links v w = some link) :
    IsPath t src (path ++ [w]) w (l + link.latencyUs) (min b link.bandwidthGbps)

def Link (t : GpuTopology n) (v w : Fin n) (d : ℚ) : Prop :=
  ∃ link, t.links v w = some link ∧ link.latencyUs = d

theorem IsPath.walk (h : t.IsPath src path v l b) : Walk t.Link src v l := by
  induction h
  case refl => exact .refl
  case step link _ hl hi => exact .step hi ⟨link, hl, rfl⟩

structure Wired (t : GpuTopology n) : Prop where
  adjacent : ∀ v w, (t.links v w).isSome → w ∈ t.adjacency v
  latency : ∀ v w d, t.Link v w d → 0 ≤ d

theorem Wired.setLink (h : t.Wired) (hl : 0 ≤ link.latencyUs) : (t.setLink v w link).Wired := by
  constructor
  case adjacent =>
    intro v' w' hs
    have ha := h.adjacent v' w'
    by_cases hv : v' = v
    case neg => simp_all [GpuTopology.setLink]
    case pos => subst hv; by_cases hw : w' = w <;> simp_all [GpuTopology.setLink]
  case latency =>
    rintro v' w' _ ⟨link', hl', rfl⟩
    have hold := h.latency v' w' link'.latencyUs
    by_cases hv : v' = v
    case neg => simp_all [GpuTopology.setLink, Link]
    case pos => subst hv; by_cases hw : w' = w <;> simp_all [GpuTopology.setLink, Link]

-- A candidate of the queue is a path. The search has not come to the destination yet.
structure Searching (t : GpuTopology n) (src dst : Fin n) (visited : Finset (Fin n))
    (pq : List (Candidate n)) : Prop where
  isPath : ∀ c ∈ pq, t.IsPath src c.path c.current c.latency c.minBw
  frontier : Frontier t.Link src visited fun v l => ∃ c ∈ pq, c.current = v ∧ c.latency = l
  dst : dst ∉ visited

theorem latency_le_of_argmin (h : c ∈ pq.argmin Candidate.key) (hc : c' ∈ pq) :
    c.latency ≤ c'.latency := by
  obtain hlt | ⟨heq, -⟩ := Prod.Lex.le_iff.mp (le_of_mem_argmin hc h)
  · exact hlt.le
  · exact heq.le

theorem mem_neighbors : c' ∈ t.neighbors visited c ↔
    ∃ w ∈ t.adjacency c.current, w ∉ visited ∧ ∃ link, t.links c.current w = some link ∧
      c' = ⟨c.latency + link.latencyUs, w, c.path ++ [w], min c.minBw link.bandwidthGbps⟩ := by
  simp only [neighbors, mem_filterMap, Option.ite_none_left_eq_some, Option.map_eq_some_iff,
    eq_comm (b := c')]

section

variable (ht : t.Wired) (h : t.Searching src dst visited pq) (hc : c ∈ pq.argmin Candidate.key)

include h

theorem Searching.drop (hv : c.current ∈ visited) : t.Searching src dst visited (pq.erase c) where
  isPath c' hm := h.isPath c' (mem_of_mem_erase hm)
  frontier := h.frontier.mono fun w hw l ⟨c', hm, hcur, hlat⟩ => by
    have hne : c' ≠ c := by
      rintro rfl
      exact hw (hcur ▸ hv)
    exact ⟨c', (mem_erase_of_ne hne).mpr hm, hcur, hlat⟩
  dst := h.dst

include ht hc

theorem Searching.expand (hv : c.current ∉ visited) (hd : c.current ≠ dst) :
    t.Searching src dst (insert c.current visited)
      (pq.erase c ++ t.neighbors (insert c.current visited) c) where
  isPath c' hm := by
    obtain hm | hm := mem_append.mp hm
    · exact h.isPath c' (mem_of_mem_erase hm)
    · obtain ⟨w, -, -, link, hl, rfl⟩ := mem_neighbors.mp hm
      exact .step (h.isPath c (argmin_mem hc)) hl
  frontier := by
    rw [Finset.coe_insert]
    refine h.frontier.settle (l := c.latency) ht.latency hv ?_ ?_ ?_
    · rintro w l ⟨c', hm, -, rfl⟩
      exact latency_le_of_argmin hc hm
    · rintro w hw l ⟨c', hm, rfl, rfl⟩
      refine ⟨c', mem_append.mpr (.inl ?_), rfl, rfl⟩
      exact (mem_erase_of_ne fun he => hw (.inl (congrArg _ he))).mpr hm
    · rintro w hw d ⟨link, hl, rfl⟩
      have hw : w ∉ insert c.current visited := by simpa using hw
      have hm := mem_neighbors.mpr ⟨w, ht.adjacent _ w (by simp [hl]), hw, link, hl, rfl⟩
      exact ⟨_, mem_append.mpr (.inr hm), rfl, rfl⟩
  dst hm := (Finset.mem_insert.mp hm).elim (fun he => hd he.symm) h.dst

end

-- By induction on the rounds: the candidate that is taken is at least as short as any path.
theorem Searching.search (ht : t.Wired) (h : t.Searching src dst visited pq)
    (hp : t.IsPath src path dst l b) : ∃ c, t.search dst visited pq = some c ∧
      t.IsPath src c.path dst c.latency c.minBw ∧
        ∀ path l b, t.IsPath src path dst l b → c.latency ≤ l := by
  fun_induction GpuTopology.search t dst visited pq
  case case1 pq hn =>
    obtain ⟨w, -, l', -, c, hc, -⟩ := h.frontier.exists_le ht.latency hp.walk h.dst
    exact absurd (argmin_eq_none.mp hn ▸ hc) not_mem_nil
  case case2 c hc hd =>
    subst hd
    refine ⟨c, rfl, h.isPath c (argmin_mem hc), fun path l b hp => ?_⟩
    obtain ⟨w, -, l', hl, c', hc', -, rfl⟩ := h.frontier.exists_le ht.latency hp.walk h.dst
    exact (latency_le_of_argmin hc hc').trans hl
  case case3 pq c hc hd hv hi => exact hi (h.drop hv)
  case case4 pq c hc hd hv visited hi => exact hi (h.expand ht hc hv hd)

structure LinkCall (n : ℕ) where
  src : Fin n
  dst : Fin n
  link : GpuLink
  bidirectional : Bool := true

def build (calls : List (LinkCall n)) : GpuTopology n :=
  calls.foldl (fun t call => t.addLink call.src call.dst call.link call.bidirectional) {}

theorem wired_build {calls : List (LinkCall n)} (h : ∀ call ∈ calls, 0 ≤ call.link.latencyUs) :
    (build calls).Wired := by
  refine foldlRecOn calls _ ⟨by simp, ?_⟩ fun t ht call hm => ?_
  · rintro v w d ⟨link, hl, -⟩
    cases hl
  · have hset := ht.setLink (v := call.src) (w := call.dst) (h call hm)
    unfold addLink
    dsimp only
    split
    case isTrue => exact hset.setLink (h call hm)
    case isFalse => exact hset

theorem optimal_path {calls : List (LinkCall n)} (h : ∀ call ∈ calls, 0 ≤ call.link.latencyUs)
    (hne : src ≠ dst) (hc : ∃ path l b, (build calls).IsPath src path dst l b) :
    let r := (build calls).computeOptimalPath src dst
    (build calls).IsPath src r.1 dst r.2.2 r.2.1 ∧
      ∀ path l b, (build calls).IsPath src path dst l b → r.2.2 ≤ l := by
  obtain ⟨path, l, b, hp⟩ := hc
  have hs : (build calls).Searching src dst ∅ [⟨0, src, [src], ⊤⟩] := by
    refine ⟨fun c hc => ?_, ⟨fun _ => ⟨0, le_rfl, _, mem_singleton_self _, rfl, rfl⟩, by simp⟩,
      by simp⟩
    cases mem_singleton.mp hc
    exact .refl
  obtain ⟨c, hc, hpath, hmin⟩ := hs.search (wired_build h) hp
  simp only [computeOptimalPath, if_neg hne, hc]
  exact ⟨hpath, hmin⟩

def relayed : GpuTopology 3 :=
  build [⟨0, 2, ⟨(100 : ℚ), 5⟩, true⟩, ⟨0, 1, ⟨(200 : ℚ), 1⟩, true⟩, ⟨1, 2, ⟨(200 : ℚ), 2⟩, true⟩]

-- The way over the device between is faster than the direct link.
theorem optimal_path_relayed :
    relayed.IsPath 0 (relayed.computeOptimalPath 0 2).1 2 (relayed.computeOptimalPath 0 2).2.2
        (relayed.computeOptimalPath 0 2).2.1 ∧ (relayed.computeOptimalPath 0 2).2.2 ≤ 3 := by
  have hp₁ : relayed.IsPath 0 [0, 1] 1 (0 + 1) (min ⊤ (200 : ℚ)) :=
    @IsPath.step 3 _ 0 [0] 0 1 0 ⊤ ⟨(200 : ℚ), 1⟩ .refl rfl
  have hp : relayed.IsPath 0 [0, 1, 2] 2 (0 + 1 + 2) (min (min ⊤ (200 : ℚ)) (200 : ℚ)) :=
    @IsPath.step 3 _ 0 [0, 1] 1 2 (0 + 1) _ ⟨(200 : ℚ), 2⟩ hp₁ rfl
  obtain ⟨h, hmin⟩ := optimal_path (by decide +kernel) (by decide) ⟨_, _, _, hp⟩
  exact ⟨h, (hmin _ _ _ hp).trans (by decide +kernel)⟩

end GpuMemory.GpuTopology
