import AppliedCs.Crdt.Performance
import AppliedCs.Lib.Transition

namespace Crdt

open Transition List

def VersionComparison.of (v₁ v₂ : Version) : VersionComparison where
  fromVersion := v₁.versionNumber
  toVersion := v₂.versionNumber
  fromTimestamp := v₁.createdAt
  toTimestamp := v₂.createdAt
  fromSeq := v₁.sequenceNumber
  toSeq := v₂.sequenceNumber
  operationsBetween := v₂.sequenceNumber - v₁.sequenceNumber

namespace VersionHistory

section Lists

variable {maxVersions : ℕ}

theorem prune_sublist : (prune maxVersions rounds docVersions).Sublist docVersions := by
  induction rounds generalizing docVersions
  case zero => exact .refl _
  case succ rounds hi =>
    rw [prune]
    split_ifs
    · exact hi.trans (eraseIdx_sublist ..)
    · exact .refl _
    · exact .refl _

end Lists

variable {h : VersionHistory}

theorem getVersions_createVersion_self : (h.createVersion req).1.getVersions req.docId =
    prune h.maxVersions ((h.getVersions req.docId).length + 1)
      (h.getVersions req.docId ++ [h.nextVersion req]) := by
  simp [createVersion, getVersions]

theorem getVersions_createVersion_of_ne (hne : docId ≠ req.docId) :
    (h.createVersion req).1.getVersions docId = h.getVersions docId := by
  simp [createVersion, getVersions, AList.lookup_insert_ne hne]

theorem getVersions_deleteVersion : (h.deleteVersion docId number).1.getVersions docId' =
    if docId' = docId then (h.getVersions docId).filter (·.versionNumber != number)
    else h.getVersions docId' := by
  by_cases hd : docId' = docId
  case pos =>
    subst hd
    cases hl : h.versions.lookup docId' <;> simp [deleteVersion, getVersions, hl]
  case neg =>
    cases hl : h.versions.lookup docId <;>
      simp [deleteVersion, getVersions, hl, hd, AList.lookup_insert_ne hd]

-- The history with all versions that were ever created for a document, the first one first.
structure Run where
  history : VersionHistory
  created : DocumentId → List Version := fun _ => []

namespace Run

inductive Event
  | createVersion (req : VersionRequest)
  | deleteVersion (docId : DocumentId) (versionNumber : ℕ)

def step (s : Run) : Event → Option Run
  | .createVersion req =>
    let r := s.history.createVersion req
    some {
      history := r.1
      created := Function.update s.created req.docId (s.created req.docId ++ [r.2]) }
  | .deleteVersion docId versionNumber =>
    some { s with history := (s.history.deleteVersion docId versionNumber).1 }

-- A version is only created while all versions of the document are still there.
def Complete (s : Run) : Event → Prop
  | .createVersion req => (s.history.getVersions req.docId).length = (s.created req.docId).length
  | .deleteVersion _ _ => True

instance (s : Run) (e : Event) : Decidable (Complete s e) :=
  match e with
  | .createVersion _ => inferInstanceAs <| Decidable (_ = _)
  | .deleteVersion _ _ => .isTrue trivial

-- The versions of a document are numbered one by one, and some of them are still there.
structure Inv (s : Run) (docId : DocumentId) : Prop where
  numbers : (s.created docId).map (·.versionNumber) = range' 1 (s.created docId).length
  retained : (s.history.getVersions docId).Sublist (s.created docId)

theorem Inv.step (hi : ∀ docId, Inv s docId) (hc : Complete s e) (hs : step s e = some s')
    (docId : DocumentId) : Inv s' docId := by
  cases e <;> cases hs
  case createVersion req =>
    by_cases hd : docId = req.docId
    case neg =>
      refine ⟨?_, ?_⟩
      · simpa [Function.update_of_ne hd] using (hi docId).numbers
      · simpa [Function.update_of_ne hd, getVersions_createVersion_of_ne hd] using
          (hi docId).retained
    subst hd
    -- Nothing is missing, so that the length is the last number.
    have heq := (hi req.docId).retained.eq_of_length hc
    refine ⟨?_, ?_⟩
    · have hnum : (s.history.nextVersion req).versionNumber = (s.created req.docId).length + 1 :=
        congrArg (· + 1) hc
      simp only [Function.update_self, map_append, (hi req.docId).numbers, length_append,
        map_singleton, createVersion, hnum]
      rw [length_singleton, range'_concat, Nat.one_mul, Nat.add_comm]
    · simp only [Function.update_self, getVersions_createVersion_self]
      rw [heq]
      exact prune_sublist
  case deleteVersion docId' versionNumber =>
    refine ⟨(hi docId).numbers, ?_⟩
    dsimp only
    rw [getVersions_deleteVersion]
    split
    case isTrue heq => subst heq; exact filter_sublist.trans (hi docId).retained
    case isFalse => exact (hi docId).retained

theorem Inv.pairwise (h : Inv s docId) :
    (s.created docId).Pairwise (·.versionNumber < ·.versionNumber) := by
  refine pairwise_map.mp ?_
  rw [h.numbers]
  exact pairwise_lt_range'

theorem Inv.eq_of_number (h : Inv s docId) (hv : v ∈ s.created docId) (hw : w ∈ s.created docId)
    (heq : v.versionNumber = w.versionNumber) : v = w := by
  have hn : ((s.created docId).map (·.versionNumber)).Nodup := by
    rw [h.numbers]
    exact nodup_range'
  exact inj_on_of_nodup_map hn hv hw heq

theorem Inv.getVersion_eq (h : Inv s docId) (hv : v ∈ s.created docId)
    (hw : s.history.getVersion docId v.versionNumber = some w) : w = v := by
  have hm := h.retained.subset (mem_of_find?_eq_some hw)
  exact h.eq_of_number hm hv (by simpa using find?_some hw)

-- A number is given a second time once a version is missing.
theorem Inv.exists_same_number (h : Inv s req.docId) (hc : ¬ Complete s (.createVersion req)) :
    ∃ v ∈ s.created req.docId, v.versionNumber = (s.history.createVersion req).2.versionNumber := by
  have hlt := lt_of_le_of_ne h.retained.length_le hc
  have hmem : (s.history.getVersions req.docId).length + 1 ∈
      (s.created req.docId).map (·.versionNumber) := by
    rw [h.numbers, mem_range'_1]
    omega
  obtain ⟨v, hv, hnum⟩ := mem_map.mp hmem
  exact ⟨v, hv, hnum⟩

theorem Inv.compareVersions_eq (h : Inv s docId) (h₁ : v₁ ∈ s.created docId)
    (h₂ : v₂ ∈ s.created docId)
    (hc : s.history.compareVersions docId v₁.versionNumber v₂.versionNumber = some comparison) :
    comparison = .of v₁ v₂ := by
  obtain ⟨w₁, hw₁, hc⟩ := Option.bind_eq_some_iff.mp hc
  obtain ⟨w₂, hw₂, hc⟩ := Option.bind_eq_some_iff.mp hc
  obtain rfl := h.getVersion_eq h₁ hw₁
  obtain rfl := h.getVersion_eq h₂ hw₂
  exact (Option.some.inj hc).symm

end Run

end VersionHistory

open VersionHistory Run

theorem version_numbers_identify {autoVersionInterval maxVersions : ℕ} {s : Run}
    (r : Reaches step Complete { history := .new autoVersionInterval maxVersions } s)
    (docId : DocumentId) : (s.created docId).Pairwise (·.versionNumber < ·.versionNumber) ∧
    ((s.history.getVersions docId).map (·.versionNumber)).Nodup ∧ (∀ v ∈ s.created docId, ∀ w,
      s.history.getVersion docId v.versionNumber = some w → w = v) ∧
    ∀ v₁ ∈ s.created docId, ∀ v₂ ∈ s.created docId, ∀ comparison,
      s.history.compareVersions docId v₁.versionNumber v₂.versionNumber = some comparison →
        comparison = .of v₁ v₂ := by
  have h : Inv s docId := r.invariant (P := fun s => ∀ docId, Inv s docId)
    (fun _ => ⟨rfl, Sublist.refl _⟩) (fun hi hc hs => Inv.step hi hc hs) docId
  refine ⟨h.pairwise, ?_, fun v hv w hw => h.getVersion_eq hv hw,
    fun v₁ h₁ v₂ h₂ comparison hc => h.compareVersions_eq h₁ h₂ hc⟩
  have hn : ((s.created docId).map (·.versionNumber)).Nodup :=
    pairwise_map.mpr (h.pairwise.imp fun hlt => hlt.ne)
  exact hn.sublist (h.retained.map _)

section Sample

theorem version_numbers_identify_after_delete : ∃ s : Run,
    Reaches step Complete { history := .new 100 5 } s ∧
      (s.history.getVersions 1).map (·.versionNumber) = [2, 3] ∧
      ((s.history.getVersions 1).map (·.versionNumber)).Nodup := by
  obtain ⟨s, r, hs⟩ : ∃ s : Run, Reaches step Complete { history := .new 100 5 } s ∧
      (s.history.getVersions 1).map (·.versionNumber) = [2, 3] :=
    Reaches.exists_of_run [.createVersion ⟨1, none, 0, {}, 0, none, 71, 10⟩,
      .createVersion ⟨1, none, 0, {}, 4, none, 72, 20⟩,
      .createVersion ⟨1, none, 0, {}, 9, none, 73, 30⟩, .deleteVersion 1 1] (by decide +kernel)
  exact ⟨s, r, hs, (version_numbers_identify r 1).2.1⟩

-- After a deletion the number of the last version is given again. With room for two versions the
-- third and the fourth get the same number, and only the fourth can be found under it.
theorem version_number_given_twice : (∃ s : Run, Reaches step anyEvent { history := .new 100 5 } s ∧
      (s.history.getVersions 1).map (·.versionNumber) = [2, 2]) ∧
    ∃ s : Run, Reaches step anyEvent { history := .new 100 2 } s ∧
      (s.created 1).map (fun v => (v.id, v.versionNumber)) = [(71, 1), (72, 2), (73, 3), (74, 3)] ∧
        (s.history.getVersion 1 3).map (·.id) = some 74 :=
  ⟨Reaches.exists_of_run [.createVersion ⟨1, none, 0, {}, 0, none, 71, 10⟩,
      .createVersion ⟨1, none, 0, {}, 4, none, 72, 20⟩, .deleteVersion 1 1,
      .createVersion ⟨1, none, 0, {}, 9, none, 73, 30⟩] (by decide +kernel),
    Reaches.exists_of_run [.createVersion ⟨1, none, 0, {}, 0, none, 71, 10⟩,
      .createVersion ⟨1, none, 0, {}, 4, none, 72, 20⟩,
      .createVersion ⟨1, none, 0, {}, 9, none, 73, 30⟩,
      .createVersion ⟨1, none, 0, {}, 9, none, 74, 40⟩] (by decide +kernel)⟩

end Sample

end Crdt
