import AppliedCs.Crdt.Performance
import AppliedCs.Crdt.Theorems.Document
import Mathlib.Order.Bounds.Basic

namespace Crdt

open List

namespace VectorClock

variable {a b vc : VectorClock} {clocks : List VectorClock}

theorem get_of_mem (h : p ∈ vc.clocks.entries) : vc.get p.1 = p.2 := by
  rw [get, AList.mem_lookup_iff.mpr h]
  rfl

theorem mem_entries_of_get (h : vc.get c ≠ 0) : ⟨c, vc.get c⟩ ∈ vc.clocks.entries := by
  rw [get] at h ⊢
  cases hc : vc.clocks.lookup c
  case none => simp [hc] at h
  case some t => exact AList.mem_lookup_iff.mp hc

theorem mem_clients_of_get (h : vc.get c ≠ 0) : c ∈ vc.clients :=
  mem_map_of_mem (mem_entries_of_get h)

theorem dominates_iff : b.dominates a ↔ ∀ c, a.get c ≤ b.get c := by
  rw [dominates, all_eq_true]
  constructor
  case mp =>
    intro h c
    by_cases hc : a.get c = 0
    case pos => exact hc ▸ Nat.zero_le _
    case neg => simpa using h _ (mem_entries_of_get hc)
  case mpr =>
    intro h p hp
    simpa [get_of_mem hp] using h p.1

-- One clock is below another if it is dominated by it.
instance : Preorder VectorClock where
  le a b := b.dominates a
  le_refl a := dominates_iff.mpr fun _ => le_rfl
  le_trans a b d h h' := dominates_iff.mpr fun c =>
    (dominates_iff.mp h c).trans (dominates_iff.mp h' c)

theorem le_iff : a ≤ b ↔ ∀ c, a.get c ≤ b.get c :=
  dominates_iff

theorem lt_iff : a < b ↔ a ≤ b ∧ ∃ c, a.get c < b.get c := by
  rw [lt_iff_le_not_ge, le_iff (a := b), not_forall]
  simp only [not_le]

theorem get_foldl_merge_le {l : List ((_ : ClientId) × Timestamp)} :
    (l.foldl (fun vc p => vc.set p.1 (max (vc.get p.1) p.2)) vc).get c ≤ t ↔
      vc.get c ≤ t ∧ ∀ p ∈ l, p.1 = c → p.2 ≤ t := by
  induction l generalizing vc
  case nil => simp
  case cons p l hi =>
    rw [foldl_cons, hi, forall_mem_cons]
    by_cases hc : p.1 = c
    case pos =>
      subst hc
      rw [get_set_self, max_le_iff]
      tauto
    case neg =>
      rw [get_set_of_ne (Ne.symm hc)]
      tauto

theorem get_merge_le : (a.merge b).get c ≤ t ↔ a.get c ≤ t ∧ b.get c ≤ t := by
  rw [merge, get_foldl_merge_le]
  refine and_congr_right fun _ => ?_
  constructor
  case mp =>
    intro h
    by_cases hc : b.get c = 0
    case pos => exact hc ▸ Nat.zero_le _
    case neg => exact h _ (mem_entries_of_get hc) rfl
  case mpr =>
    rintro h p hp rfl
    exact get_of_mem hp ▸ h

theorem merge_isLUB (a b : VectorClock) : IsLUB {a, b} (a.merge b) := by
  refine ⟨?_, fun d hd => ?_⟩
  · rw [upperBounds_insert, upperBounds_singleton]
    exact ⟨le_iff.mpr fun c => (get_merge_le.mp le_rfl).1,
      le_iff.mpr fun c => (get_merge_le.mp le_rfl).2⟩
  · rw [upperBounds_insert, upperBounds_singleton] at hd
    exact le_iff.mpr fun c => get_merge_le.mpr ⟨le_iff.mp hd.1 c, le_iff.mp hd.2 c⟩

theorem get_foldl_minimum {l : List ClientId} {f : ClientId → Timestamp} :
    (l.foldl (fun vc clientId =>
        if f clientId > 0 then vc.set clientId (f clientId) else vc) vc).get c =
      if c ∈ l ∧ f c > 0 then f c else vc.get c := by
  induction l generalizing vc
  case nil => simp
  case cons d l hi =>
    rw [foldl_cons, hi]
    by_cases hc : c = d
    case pos =>
      subst hc
      by_cases hpos : f c > 0 <;> simp [hpos]
    have hg : (if f d > 0 then vc.set d (f d) else vc).get c = vc.get c := by
      split
      · exact get_set_of_ne hc
      · rfl
    simp [hc, hg]

theorem get_minimumWith : (minimumWith a b).get c = min (a.get c) (b.get c) := by
  rw [minimumWith, get_foldl_minimum (f := fun c => min (a.get c) (b.get c))]
  split
  case isTrue => rfl
  case isFalse h =>
    -- A client that is left out has the minimum zero.
    have hz : (({} : VectorClock)).get c = 0 := rfl
    rw [hz]
    by_contra hne
    exact h ⟨mem_clients_of_get fun ha => hne (by simp [ha]), Nat.pos_of_ne_zero (Ne.symm hne)⟩

theorem le_get_foldl_minimumWith :
    t ≤ (clocks.foldl minimumWith a).get c ↔ t ≤ a.get c ∧ ∀ vc ∈ clocks, t ≤ vc.get c := by
  induction clocks generalizing a
  case nil => simp
  case cons vc clocks hi => rw [foldl_cons, hi, get_minimumWith, le_min_iff,
      forall_mem_cons, and_assoc]

theorem le_get_computeMinimumClock (h : clocks ≠ []) :
    t ≤ (computeMinimumClock clocks).get c ↔ ∀ vc ∈ clocks, t ≤ vc.get c := by
  cases clocks
  case nil => exact (h rfl).elim
  case cons vc clocks => rw [computeMinimumClock, le_get_foldl_minimumWith, forall_mem_cons]

theorem computeMinimumClock_isGLB (h : clocks ≠ []) :
    IsGLB {vc | vc ∈ clocks} (computeMinimumClock clocks) := by
  refine ⟨fun vc hvc => le_iff.mpr fun c => (le_get_computeMinimumClock h).mp le_rfl vc hvc,
    fun d hd => le_iff.mpr fun c => (le_get_computeMinimumClock h).mpr fun vc hvc => ?_⟩
  exact le_iff.mp (hd hvc) c

theorem happensBefore_iff_lt : a.happensBefore b ↔ a < b := by
  have hle : a ≤ b ↔ ¬ (a.clocks.entries.any fun p => p.2 > b.get p.1) := by
    change a.clocks.entries.all _ ↔ _
    rw [all_eq_true, any_eq_true, not_exists]
    exact forall_congr' fun p => by simp
  rw [lt_iff, happensBefore]
  split
  case isTrue h => simp [hle, h]
  case isFalse h =>
    rw [and_iff_right (hle.mpr h), Bool.or_eq_true, any_eq_true, any_eq_true]
    constructor
    case mp =>
      rintro (⟨p, hp, hlt⟩ | ⟨p, hp, hlt⟩)
      · exact ⟨p.1, by simpa [get_of_mem hp] using hlt⟩
      · obtain ⟨hn, hpos⟩ := of_decide_eq_true hlt
        have hz : a.get p.1 = 0 := by rw [get, AList.lookup_eq_none.mpr hn]; rfl
        exact ⟨p.1, by rw [hz, get_of_mem hp]; exact hpos⟩
    case mpr =>
      rintro ⟨c, hc⟩
      by_cases hm : c ∈ a.clocks
      case pos =>
        obtain ⟨t, ht⟩ := Option.isSome_iff_exists.mp (AList.lookup_isSome.mpr hm)
        have hmem := AList.mem_lookup_iff.mp ht
        have hget : a.get c = t := get_of_mem hmem
        exact .inl ⟨_, hmem, decide_eq_true (hget ▸ hc)⟩
      case neg =>
        have hpos : 0 < b.get c := (Nat.zero_le _).trans_lt hc
        exact .inr ⟨_, mem_entries_of_get hpos.ne', decide_eq_true ⟨hm, hpos⟩⟩

instance : IsStrictOrder VectorClock (·.happensBefore ·) where
  irrefl a := fun h => lt_irrefl a (happensBefore_iff_lt.mp h)
  trans _ _ _ h h' := happensBefore_iff_lt.mpr <|
    (happensBefore_iff_lt.mp h).trans (happensBefore_iff_lt.mp h')

end VectorClock

namespace TombstoneGC

variable {gc : TombstoneGC}

theorem collectTombstones_snd : (gc.collectTombstones docId tombstones docClock allClocks now).2 =
    gc.toRemove tombstones docClock allClocks now := by
  rw [collectTombstones]
  split <;> rfl

theorem dominates_of_mem
    (h : pos ∈ (gc.collectTombstones docId tombstones docClock allClocks now).2) :
    (computeMinimumClock allClocks).dominates docClock := by
  rw [collectTombstones_snd] at h
  obtain ⟨p, hp, -⟩ := mem_map.mp h
  exact (of_decide_eq_true (mem_filter.mp hp).2).2

end TombstoneGC

open VectorClock TombstoneGC

theorem vector_clock_lattice : (∀ a b : VectorClock, b.dominates a ↔ ∀ c, a.get c ≤ b.get c) ∧
    (∀ a b : VectorClock, IsLUB {a, b} (a.merge b)) ∧
    (∀ clocks ≠ [], IsGLB {vc | vc ∈ clocks} (computeMinimumClock clocks)) ∧
    (∀ a b : VectorClock, a.happensBefore b ↔ b.dominates a ∧ ∃ c, a.get c < b.get c) ∧
    IsStrictOrder VectorClock (·.happensBefore ·) ∧
    (∀ (gc : TombstoneGC) docId tombstones docClock allClocks now,
      ∀ pos ∈ (gc.collectTombstones docId tombstones docClock allClocks now).2,
        ∀ vc ∈ allClocks, vc.dominates docClock) ∧
    ∀ (gc : TombstoneGC) docId tombstones docClock now c, 0 < docClock.get c →
      (gc.collectTombstones docId tombstones docClock [] now).2 = [] := by
  refine ⟨fun _ _ => dominates_iff, merge_isLUB, fun _ => computeMinimumClock_isGLB,
    fun _ _ => happensBefore_iff_lt.trans lt_iff, inferInstance, ?stable, ?nobody⟩
  case stable =>
    intro gc docId tombstones docClock allClocks now pos hpos vc hvc
    have hne : allClocks ≠ [] := ne_nil_of_mem hvc
    exact le_trans (dominates_of_mem hpos : docClock ≤ _) ((computeMinimumClock_isGLB hne).1 hvc)
  case nobody =>
    intro gc docId tombstones docClock now c hc
    refine eq_nil_iff_forall_not_mem.mpr fun pos hpos => ?_
    have hle : docClock.get c ≤ 0 := dominates_iff.mp (dominates_of_mem hpos) c
    exact hc.not_ge hle

end Crdt
