import Mathlib.Algebra.Order.Ring.Rat
import Mathlib.Data.Fintype.Card
import Mathlib.Data.List.Lex
import Mathlib.Data.List.MinMax
import Mathlib.Data.Prod.Lex

namespace GpuMemory

open Function

structure GpuLink where
  bandwidthGbps : WithTop ℚ
  latencyUs : ℚ

-- The devices of a topology are its numbers below `n`.
structure GpuTopology (n : ℕ) where
  links : Fin n → Fin n → Option GpuLink := fun _ _ => none
  adjacency : Fin n → List (Fin n) := fun _ => []

-- What waits in the priority queue.
structure Candidate (n : ℕ) where
  latency : ℚ
  current : Fin n
  path : List (Fin n)
  minBw : WithTop ℚ
  deriving DecidableEq

namespace Candidate

-- Tuples and lists are compared from the front.
def key (c : Candidate n) : ℚ ×ₗ Fin n ×ₗ List (Fin n) ×ₗ WithTop ℚ :=
  toLex (c.latency, toLex (c.current, toLex (c.path, c.minBw)))

end Candidate

namespace GpuTopology

variable (t : GpuTopology n)

def setLink (src dst : Fin n) (link : GpuLink) : GpuTopology n where
  links := update t.links src (update (t.links src) dst (some link))
  adjacency := update t.adjacency src (t.adjacency src ++ [dst])

def addLink (src dst : Fin n) (link : GpuLink) (bidirectional : Bool) : GpuTopology n :=
  let t := t.setLink src dst link
  if bidirectional then t.setLink dst src link else t

def neighbors (visited : Finset (Fin n)) (c : Candidate n) : List (Candidate n) :=
  (t.adjacency c.current).filterMap fun neighbor =>
    if neighbor ∈ visited then none
    else (t.links c.current neighbor).map fun link =>
      ⟨c.latency + link.latencyUs, neighbor, c.path ++ [neighbor], min c.minBw link.bandwidthGbps⟩

-- Every round takes a candidate from the queue or visits a device.
def search (dst : Fin n) (visited : Finset (Fin n)) (pq : List (Candidate n)) :
    Option (Candidate n) :=
  match _ : pq.argmin Candidate.key with
  | none => none
  | some c =>
    if c.current = dst then some c
    else if _ : c.current ∈ visited then search dst visited (pq.erase c)
    else
      let visited := insert c.current visited
      search dst visited (pq.erase c ++ t.neighbors visited c)
termination_by (visitedᶜ.card, pq.length)
decreasing_by
  · have hm := List.argmin_mem ‹_›
    have hlt := List.length_pos_of_mem hm
    refine .right _ ?_
    rw [List.length_erase_of_mem hm]
    omega
  · refine .left _ _ (Finset.card_lt_card ?_)
    simp [Finset.compl_insert, Finset.erase_ssubset, *]

-- Without a path the transfer goes over the host.
def computeOptimalPath (src dst : Fin n) : List (Fin n) × WithTop ℚ × ℚ :=
  if src = dst then ([src], ⊤, 0)
  else
    match t.search dst ∅ [⟨0, src, [src], ⊤⟩] with
    | some c => (c.path, c.minBw, c.latency)
    | none => ([src, dst], (32 / 2 : ℚ), 3 * 2)

end GpuTopology

end GpuMemory
