import AppliedCs.Tsdb.Database
import AppliedCs.Tsdb.Theorems.Wal

namespace Tsdb

open Codec SortedList Transition LogRun List

namespace WriteAheadLog

variable [Hashing] {w : WriteAheadLog} {e : WalEntry} {es log : List WalEntry}
  {bs : Bytes} {cut : ℕ}

-- The files that a crash leaves behind if only `cut` bytes of the last segment have been written.
def torn (w : WriteAheadLog) (cut : ℕ) : SortedMap ℕ Bytes :=
  w.dir.insert w.segmentNumber (w.segment.take cut)

-- The entries of a segment whose frames are complete.
def surviving (es : List WalEntry) (cut : ℕ) : List WalEntry :=
  complete frame es (cut - 4)

-- The magic is complete, and the complete frames are followed by fewer bytes than a length has.
def CleanCut (es : List WalEntry) (cut : ℕ) : Prop :=
  4 ≤ cut ∧ ((encodeSegment es).take cut).length < (encodeSegment (surviving es cut)).length + 4

instance : Decidable (CleanCut es cut) :=
  inferInstanceAs <| Decidable <|
    4 ≤ cut ∧ ((encodeSegment es).take cut).length < (encodeSegment (surviving es cut)).length + 4

-- Once the length is complete, a missing byte of the data or the checksum is an error.
theorem readFrame_torn (hs : Small e) (hp : bs <+: frame e) (hne : bs ≠ frame e)
    (hl : 4 ≤ bs.length) : readFrame bs = some (.error (.error .io), []) := by
  have hlt : bs.length < (frame e).length :=
    hp.length_le.lt_of_ne fun he => hne (hp.eq_of_length he)
  have hb : bs = encodeLE 4 e.serialize.length ++
      (e.serialize ++ encodeLE 4 (Hashing.crc32 e.serialize).toNat).take (bs.length - 4) := by
    rw [prefix_iff_eq_take.mp hp, frame, take_append, length_encodeLE,
      take_of_length_le (by rwa [length_encodeLE]), length_append, length_encodeLE]
    simp only [frame, length_append, length_encodeLE] at hlt
    congr 2
    simp only [length_take, length_append, length_encodeLE]
    omega
  simp only [frame, length_append, length_encodeLE] at hlt
  rw [hb, readFrame, decodeLE_inverts 4 _ hs]
  refine congrArg some ?_
  by_cases hd : bs.length - 4 < e.serialize.length
  case pos =>
    have hn : takeBytes e.serialize.length ((e.serialize ++
        encodeLE 4 (Hashing.crc32 e.serialize).toNat).take (bs.length - 4)) = none := by
      rw [takeBytes, if_neg]
      simp only [length_take]
      omega
    simp only [hn]
  have hd := Nat.le_of_not_lt hd
  have hn : decodeLE 4 ((encodeLE 4 (Hashing.crc32 e.serialize).toNat).take
      (bs.length - 4 - e.serialize.length)) = none := by
    refine decodeLE_eq_none ?_
    rw [length_take]
    omega
  simp only [take_append, take_of_length_le hd, takeBytes, length_append,
    Nat.le_add_right, if_true, drop_left, hn]

theorem readSegment_take (hs : ∀ e ∈ es, Small e) : readSegment ((encodeSegment es).take cut) =
      if CleanCut es cut then .ok (surviving es cut) else .error (.error .io) := by
  by_cases hc : 4 ≤ cut
  case neg =>
    have hn : decodeLE 4 ((encodeSegment es).take cut) = none := by
      refine decodeLE_eq_none ?_
      rw [length_take]
      omega
    rw [if_neg fun h => hc h.1, readSegment, readLE, hn]
    rfl
  obtain ⟨rest, ht, hr⟩ := take_flatMap frame es hs (cut - 4)
  have hf : (encodeSegment es).take cut =
      encodeLE 4 walMagic ++ ((surviving es cut).flatMap frame ++ rest) := by
    rw [encodeSegment, take_append, length_encodeLE,
      take_of_length_le (by rwa [length_encodeLE]), hr]
    rfl
  have hclean : CleanCut es cut ↔ rest.length < 4 := by
    rw [CleanCut, hf, encodeSegment]
    simp only [length_append]
    omega
  have hall : ∀ e ∈ surviving es cut, ∀ rest, readFrame (frame e ++ rest) = some (.ok e, rest) :=
    fun e he => readFrame_frame (hs e ((complete_isPrefix frame es _).subset he))
  have hle := length_le_flatMap frame_pos (surviving es cut) rest
  rw [readSegment, hf, readLE_encodeLE (by decide), ok_bind, if_neg (by simp)]
  split
  case isTrue h =>
    refine readRecords_flatMap hall ?_ hle
    rw [readFrame, decodeLE_eq_none (hclean.mp h)]
    rfl
  case isFalse h =>
    have h := Nat.le_of_not_lt (hclean.not.mp h)
    obtain rfl | ⟨e, he, hp, hne⟩ := ht
    · cases h
    · refine readRecords_error hall (readFrame_torn he hp hne h) ?_
      have hle := length_le_flatMap frame_pos (surviving es cut) []
      rw [append_nil] at hle
      rw [length_append]
      omega

theorem Logged.torn (h : w.Logged log) :
    ∃ (segments : List (ℕ × List WalEntry)) (es : List WalEntry),
    log = segments.flatMap (·.2) ++ es ∧ w.segment = encodeSegment es ∧ ∀ cut,
      (w.torn cut).entries = segments.map (fun s => (s.1, encodeSegment s.2)) ++
        [(w.segmentNumber, (encodeSegment es).take cut)] := by
  obtain ⟨-, segments, es, hd, hl⟩ := h
  rw [map_append] at hd
  have hs : w.segment = encodeSegment es := segment_last hd
  refine ⟨segments, es, by simpa using hl.symm, hs, fun cut => ?_⟩
  rw [WriteAheadLog.torn, hs]
  exact insert_last hd

section Open

variable {segments : List (ℕ × List WalEntry)} {dir : SortedMap ℕ Bytes} {n maxSegmentSize : ℕ}
  (hd : dir.entries =
    segments.map (fun s => (s.1, encodeSegment s.2)) ++ [(n, (encodeSegment es).take cut)])
  (hs : ∀ e ∈ segments.flatMap (·.2) ++ es, Small e) (hn : n + 1 < 10 ^ 10)

include hd hs hn

-- Opening the log adds a segment and reads nothing that matters.
theorem open_torn : ∃ w, withOptions dir maxSegmentSize = .ok w ∧ (∀ k ∈ w.dir.keys, k < 10 ^ 10) ∧
    w.dir.values = segments.map (fun s => encodeSegment s.2) ++
      [(encodeSegment es).take cut, encodeSegment []] := by
  have hv : dir.values =
      segments.map (fun s => encodeSegment s.2) ++ [(encodeSegment es).take cut] := by
    rw [SortedMap.values, hd, map_append, map_map]
    rfl
  have hk : ∀ k ∈ dir.keys, k ≤ n := fun k hk => SortedMap.le_of_last hd hk
  have hread : ∀ file ∈ dir.values, readSegment file ≠ .error .panic := by
    intro file hfile
    rw [hv, mem_append, mem_singleton] at hfile
    rcases hfile with hfile | rfl
    · exact not_panic_of_reads (reads_segments fun e he => hs e (mem_append_left _ he)) file hfile
    · rw [readSegment_take fun e he => hs e (mem_append_right _ he)]
      split <;> exact fun he => by cases he
  obtain ⟨w, hw, -, hnum, hdir⟩ := @withOptions_eq _ dir maxSegmentSize hread
  refine ⟨w, hw, fun k hk' => ?_, ?_⟩
  · have hmax := Nat.succ_le_succ <| foldl_max_le (Nat.zero_le n) hk
    rw [SortedMap.keys, hdir, map_append, mem_append] at hk'
    rcases hk' with hk' | hk'
    · have := hk k hk'
      omega
    · rw [mem_singleton.mp hk']
      omega
  · rw [SortedMap.values, hdir, map_append]
    exact (congrArg (· ++ _) hv).trans (append_assoc ..)

theorem replay_torn : ∃ w, withOptions dir maxSegmentSize = .ok w ∧
    (∀ σ callback (init : σ), CleanCut es cut → w.replay callback init =
      ((segments.flatMap (·.2) ++ surviving es cut).foldlM callback init).map
        (·, (segments.flatMap (·.2) ++ surviving es cut).length)) ∧
    ∀ σ callback (init : σ), ¬ CleanCut es cut → (w.replay callback init).toOption = none := by
  obtain ⟨w, hw, hk, hv⟩ := @open_torn _ _ _ _ dir n maxSegmentSize hd hs hn
  have ht := @readSegment_take _ es cut fun e he => hs e (mem_append_right _ he)
  refine ⟨w, hw, fun σ callback init hc => ?_, fun σ callback init hc => ?_⟩
  · rw [if_pos hc] at ht
    have hall : Forall₂ (fun file es => readSegment file = .ok es) w.dir.values
        (segments.map (·.2) ++ [surviving es cut, []]) :=
      hv ▸ rel_append (reads_segments fun e he => hs e (mem_append_left _ he))
        (.cons ht (.cons rfl .nil))
    have hl : (segments.map (·.2) ++ [surviving es cut, []]).flatten =
        segments.flatMap (·.2) ++ surviving es cut := by
      simp [flatMap_def]
    rw [replay_eq hall hk, hl]
  · rw [if_neg hc] at ht
    refine replay_fails ?_ ht
    rw [hv]
    simp

end Open

end WriteAheadLog

open WriteAheadLog

theorem torn_tail_iff [Hashing] {maxSegmentSize₀ maxSegmentSize : ℕ} {w₀ : WriteAheadLog}
    {s : State} (h₀ : withOptions ∅ maxSegmentSize₀ = .ok w₀)
    (r : Reaches step Careful { wal := w₀ } s)
    (hn : s.wal.segmentNumber + 1 < 10 ^ 10) :
    ∃ earlier es, s.log = earlier ++ es ∧ s.wal.segment = encodeSegment es ∧ ∀ cut,
      ((∃ w, withOptions (s.wal.torn cut) maxSegmentSize = .ok w ∧ ∀ σ callback (init : σ),
        w.replay callback init = ((earlier ++ surviving es cut).foldlM callback init).map
          (·, (earlier ++ surviving es cut).length)) ↔ CleanCut es cut) ∧
      ∀ {F} {config : DatabaseConfig} (dirs : ShardDirs F), config.enableWal →
        ((TimeSeriesDB.open config dirs (s.wal.torn cut)).toOption.map (·.storage) =
          if CleanCut es cut then ((earlier ++ surviving es cut).foldlM TimeSeriesDB.replayEntry
            (StorageEngine.open config.shardDuration dirs)).toOption
          else none) := by
  have h := r.invariant (inv_new h₀) Inv.step
  obtain ⟨segments, es, hl, hseg, hd⟩ := h.logged.torn
  have hs := h.small
  rw [hl] at hs
  refine ⟨segments.flatMap (·.2), es, hl, hseg, fun cut => ⟨?_, fun {F config} dirs he => ?_⟩⟩
  · obtain ⟨w, hw, hclean, hfail⟩ := @replay_torn _ _ _ _ _ _ maxSegmentSize (hd cut) hs hn
    refine ⟨fun ⟨w', hw', hr⟩ => ?_, fun hc => ⟨w, hw, fun σ callback init => hclean _ _ _ hc⟩⟩
    cases hw.symm.trans hw'
    by_contra hc
    have hnone := hfail Unit (fun _ _ => pure ()) () hc
    rw [hr, foldlM_pure] at hnone
    cases hnone
  · obtain ⟨w, hw, hclean, hfail⟩ := @replay_torn _ _ _ _ _ _ (64 * 1024 * 1024) (hd cut) hs hn
    simp only [TimeSeriesDB.open, he, if_true, WriteAheadLog.new, hw, Except.map, ok_bind,
      TimeSeriesDB.replayWal]
    split
    case isTrue hc =>
      rw [hclean _ _ _ hc]
      cases (segments.flatMap (·.2) ++ surviving es cut).foldlM TimeSeriesDB.replayEntry
        (StorageEngine.open config.shardDuration dirs) <;> rfl
    case isFalse hc =>
      have hnone := hfail _ TimeSeriesDB.replayEntry
        (StorageEngine.open config.shardDuration dirs) hc
      cases hr : w.replay TimeSeriesDB.replayEntry (StorageEngine.open config.shardDuration dirs)
      case error => rfl
      case ok => rw [hr] at hnone; cases hnone

section Sample

local instance tornSample : Hashing := .sample

def firstCheckpoint : WalEntry :=
  .checkpoint 7

-- Two frames of 17 bytes follow the magic. A cut in the length of the second one is tolerated.
theorem torn_tail_iff_in_length : ∃ s w, Reaches step Careful { wal := shortSegments } s ∧
    s.log = [firstCheckpoint, firstCheckpoint] ∧ withOptions (s.wal.torn 24) 40 = .ok w ∧
      w.replay (fun es e => .ok (es ++ [e])) [] = .ok ([firstCheckpoint], 1) := by
  obtain ⟨s, r, hlog, hfile, hn⟩ : ∃ s, Reaches step Careful { wal := shortSegments } s ∧
      s.log = [firstCheckpoint, firstCheckpoint] ∧
        s.wal.segment = encodeSegment [firstCheckpoint, firstCheckpoint] ∧
          s.wal.segmentNumber + 1 < 10 ^ 10 :=
    Reaches.exists_of_run [.append firstCheckpoint, .append firstCheckpoint] (by decide +kernel)
  obtain ⟨earlier, es, hl, hs, ht⟩ := @torn_tail_iff _ 40 40 shortSegments s rfl r hn
  obtain ⟨rfl, rfl⟩ : earlier = [] ∧ es = [firstCheckpoint, firstCheckpoint] := by
    have hsize := congrArg length (hs.symm.trans hfile)
    rw [hlog] at hl
    match earlier, es, hl with
    | [], _, hl => exact ⟨rfl, hl.symm⟩
    | [_], [_], hl => cases hl; revert hsize; decide +kernel
    | [_, _], [], hl => cases hl; revert hsize; decide +kernel
  obtain ⟨w, hw, hr⟩ := (ht 24).1.mpr (by decide +kernel)
  refine ⟨s, w, r, hlog, hw, ?_⟩
  rw [hr,
    show surviving [firstCheckpoint, firstCheckpoint] 24 = [firstCheckpoint] by decide +kernel]
  rfl

-- The first entry is lost with the second one if the cut is in its data.
theorem torn_data_fails : ∃ s, Reaches step anyEvent { wal := shortSegments } s ∧
    s.log = [firstCheckpoint, firstCheckpoint] ∧
      ((withOptions (s.wal.torn 30) 40).bind fun w =>
        w.replay (fun es e => .ok (es ++ [e])) []) = .error (.error .io) :=
  Reaches.exists_of_run [.append firstCheckpoint, .append firstCheckpoint] (by decide +kernel)

end Sample

end Tsdb
