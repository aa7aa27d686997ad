import AppliedCs.Lib.Transition
import AppliedCs.Tsdb.Theorems.SSTable
import AppliedCs.Tsdb.Wal

namespace Tsdb

open Codec SortedList SortedMap WalEntry List

namespace WalEntry

variable {rest : Bytes}

theorem takeVarint_encodeVarint (v : UInt64) :
    takeVarint (encodeVarint v ++ rest) = .ok (v, rest) := by
  rw [takeVarint, decodeVarint_encodeVarint, ok_bind, drop_left]
  rfl

theorem takeNumber_encodeLE (h : n < UInt64.size) :
    takeNumber (encodeLE 8 n ++ rest) = .ok (n, rest) := by
  rw [takeNumber, decodeLE_inverts 8 n h rest]

theorem takeString_encodeSized (h : (encodeSized (utf8 s)).length < UInt64.size) :
    takeString (encodeSized (utf8 s) ++ rest) = .ok (s, rest) := by
  rw [encodeSized, length_append] at h
  have hlen : (UInt64.ofNat (utf8 s).length).toNat = (utf8 s).length :=
    UInt64.toNat_ofNat_of_lt' (by omega)
  have hslice : takeSlice (utf8 s).length (utf8 s ++ rest) = .ok (utf8 s, rest) := by
    simp [takeSlice, takeBytes]
  simp only [takeString, encodeSized, append_assoc, takeVarint_encodeVarint, ok_bind, hlen, hslice,
    fromUTF8?_utf8]
  rfl

theorem takeTags_flatMap {entries : List (String × String)}
    (h : (entries.flatMap encodeTag).length < UInt64.size) :
    takeTags tags (entries.flatMap encodeTag ++ rest) entries.length =
      .ok (entries.foldl (fun tags tag => tags.insert tag.1 tag.2) tags, rest) := by
  induction entries generalizing tags
  case nil => rfl
  case cons tag tags' hi =>
    simp only [flatMap_cons, encodeTag, length_append] at h
    simp only [flatMap_cons, encodeTag, append_assoc, length_cons, takeTags]
    rw [takeString_encodeSized (by omega), ok_bind, takeString_encodeSized (by omega), ok_bind]
    exact hi (by omega)

theorem takeRow_encodeRow (h : (encodeRow row).length < UInt64.size) :
    takeRow (encodeRow row ++ rest) = .ok (row, rest) := by
  obtain ⟨name, tags, timestamp, value⟩ := row
  have hle := length_le_flatMap_encodeTag tags.entries
  simp only [encodeRow, length_append] at h
  have hlen : (UInt64.ofNat tags.entries.length).toNat = tags.entries.length :=
    UInt64.toNat_ofNat_of_lt' (by omega)
  simp only [encodeRow, append_assoc, takeRow]
  rw [takeString_encodeSized (by omega), ok_bind, takeVarint_encodeVarint, ok_bind, hlen,
    takeTags_flatMap (by omega), ok_bind, foldl_insert_entries,
    takeNumber_encodeLE (UInt64.toNat_lt _), ok_bind, takeNumber_encodeLE (BitVec.isLt value),
    ok_bind]
  simp
  rfl

theorem takeRows_flatMap {rows : List Row} (h : (rows.flatMap encodeRow).length < UInt64.size) :
    takeRows (rows.flatMap encodeRow ++ rest) rows.length = .ok (rows, rest) := by
  induction rows
  case nil => rfl
  case cons row rows hi =>
    rw [flatMap_cons, length_append] at h
    rw [flatMap_cons, append_assoc, length_cons, takeRows,
      takeRow_encodeRow (by omega), ok_bind, hi (by omega), ok_bind]
    rfl

theorem encodeRow_pos (row : Row) : 0 < (encodeRow row).length := by
  simp only [encodeRow, length_append, length_encodeLE]
  omega

theorem takeEntry_serialize (h : e.serialize.length < UInt64.size) :
    takeEntry e.serialize = .ok (e, []) := by
  cases e
  case write name tags timestamp value =>
    rw [serialize, length_cons] at h
    have hr := @takeRow_encodeRow [] (name, tags, timestamp, value) (by omega)
    rw [append_nil] at hr
    simp only [serialize, takeEntry, hr, ok_bind]
    rfl
  case writeBatch rows =>
    have hle := length_le_flatMap encodeRow_pos rows []
    rw [append_nil] at hle
    rw [serialize, length_cons, length_append] at h
    have hr := @takeRows_flatMap [] rows (by omega)
    have hlen : (UInt64.ofNat rows.length).toNat = rows.length :=
      UInt64.toNat_ofNat_of_lt' (by omega)
    rw [append_nil] at hr
    simp only [serialize, takeEntry, takeVarint_encodeVarint, ok_bind, hlen, hr]
    rfl
  case checkpoint sequence =>
    have hn := @takeNumber_encodeLE [] _ sequence.toNat_lt
    rw [append_nil] at hn
    simp only [serialize, takeEntry, hn, ok_bind, UInt64.ofNat_toNat]
    rfl

theorem deserialize_serialize (h : e.serialize.length < UInt64.size) :
    deserialize e.serialize = .ok (e, e.serialize.length) := by
  rw [deserialize, takeEntry_serialize h]
  rfl

end WalEntry

section Names

theorem append_lt_append {m₂ : List Char} (h : l₁ < l₂) (hl : l₁.length = l₂.length) :
    l₁ ++ m₁ < l₂ ++ m₂ := by
  induction l₁ generalizing l₂
  case nil => cases eq_nil_of_length_eq_zero hl.symm; exact (lt_irrefl _ h).elim
  case cons c₁ l₁ hi =>
    cases l₂
    case nil => cases hl
    case cons c₂ l₂ =>
      rw [cons_append, cons_append, cons_lt_cons_iff]
      rcases cons_lt_cons_iff.mp h with hc | ⟨hc, h⟩
      · exact .inl hc
      · exact .inr ⟨hc, hi h (Nat.succ.inj hl)⟩

-- The last digit of a padded number.
theorem leftpad_toDigits (w n : ℕ) : (Nat.toDigits 10 n).leftpad (w + 2) '0' =
    (Nat.toDigits 10 (n / 10)).leftpad (w + 1) '0' ++ [(n % 10).digitChar] := by
  by_cases h : n < 10
  case pos =>
    rw [Nat.toDigits_of_lt_base h, Nat.div_eq_of_lt h, Nat.mod_eq_of_lt h]
    simp [leftpad, ← replicate_succ']
  case neg =>
    rw [Nat.toDigits_of_base_le (by decide) (Nat.le_of_not_lt h)]
    simp [leftpad]

theorem length_leftpad_toDigits (h : n < 10 ^ (w + 1)) :
    ((Nat.toDigits 10 n).leftpad (w + 1) '0').length = w + 1 := by
  have hl := (Nat.length_toDigits_le_iff (by decide) w.succ_pos).mpr h
  rw [length_leftpad]
  omega

theorem digitChar_lt (h : a < b) (hb : b < 10) : a.digitChar < b.digitChar := by
  have hall : ∀ b < 10, ∀ a < b, a.digitChar < b.digitChar := by decide
  exact hall b hb a h

theorem leftpad_lt {w a b : ℕ} (h : a < b) (hb : b < 10 ^ (w + 1)) :
    (Nat.toDigits 10 a).leftpad (w + 1) '0' < (Nat.toDigits 10 b).leftpad (w + 1) '0' := by
  induction w generalizing a b
  case zero =>
    have hb : b < 10 := hb
    rw [Nat.toDigits_of_lt_base (h.trans hb), Nat.toDigits_of_lt_base hb]
    exact cons_lt_cons_iff.mpr (.inl (digitChar_lt h hb))
  case succ w hi =>
    have hdb : b / 10 < 10 ^ (w + 1) := Nat.div_lt_of_lt_mul (by rwa [← pow_succ'])
    have hda : a / 10 < 10 ^ (w + 1) := (Nat.div_le_div_right h.le).trans_lt hdb
    rw [leftpad_toDigits, leftpad_toDigits]
    by_cases he : a / 10 = b / 10
    case pos =>
      rw [he]
      exact append_left_lt <| cons_lt_cons_iff.mpr (.inl (digitChar_lt (by omega) (by omega)))
    case neg =>
      refine append_lt_append (hi (by omega) hdb) ?_
      rw [length_leftpad_toDigits hda, length_leftpad_toDigits hdb]

-- Ten digits are enough for the names to keep the order of the numbers.
theorem segmentName_lt (h : a < b) (hb : b < 10 ^ 10) : segmentName a < segmentName b := by
  refine append_left_lt <| append_lt_append (@leftpad_lt 9 a b h hb) ?_
  rw [length_leftpad_toDigits (h.trans hb), length_leftpad_toDigits hb]

end Names

namespace WriteAheadLog

theorem le_foldl_max {ks : List ℕ} : n ≤ ks.foldl max n ∧ ∀ k ∈ ks, k ≤ ks.foldl max n := by
  induction ks generalizing n
  case nil => simp
  case cons k ks hi =>
    have ⟨h, hks⟩ := @hi (max n k)
    simp only [foldl_cons, mem_cons, forall_eq_or_imp]
    exact ⟨by omega, by omega, hks⟩

theorem foldl_max_le {ks : List ℕ} (hn : n ≤ m) (h : ∀ k ∈ ks, k ≤ m) : ks.foldl max n ≤ m := by
  induction ks generalizing n
  case nil => exact hn
  case cons k ks hi =>
    exact hi (max_le hn (h k mem_cons_self)) fun k' hk => h k' (mem_cons_of_mem k hk)

variable [Hashing] {w : WriteAheadLog} {log : List WalEntry}

-- An entry whose length fits into a frame.
def Small (e : WalEntry) : Prop :=
  e.serialize.length < UInt32.size

instance : DecidablePred Small := fun e =>
  inferInstanceAs <| Decidable <| e.serialize.length < UInt32.size

theorem readFrame_frame (h : Small e) (rest : Bytes) :
    readFrame (frame e ++ rest) = some (.ok e, rest) := by
  have hd := @deserialize_serialize e (h.trans (by decide))
  have hl := decodeLE_inverts 4 e.serialize.length h
  have hc := decodeLE_inverts 4 _ (Hashing.crc32 e.serialize).toNat_lt
  simp only [readFrame, frame, append_assoc, hl, Option.map_some, takeBytes, length_append,
    Nat.le_add_right, if_true, take_left, drop_left, hc, ne_eq, not_true, if_false, hd]
  rfl

theorem frame_pos (e : WalEntry) : 0 < (frame e).length := by
  simp only [frame, length_append, length_encodeLE]
  omega

def encodeSegment (es : List WalEntry) : Bytes :=
  encodeLE 4 walMagic ++ es.flatMap frame

theorem readSegment_encodeSegment (h : ∀ e ∈ es, Small e) :
    readSegment (encodeSegment es) = .ok es := by
  have hle := length_le_flatMap frame_pos es []
  have hr := readRecords_flatMap (fun e he => readFrame_frame (h e he))
    (show readFrame [] = none from rfl) hle
  rw [append_nil] at hr
  exact hr

-- The files of a log, which hold its entries in the order in which they have been appended.
def Stored (dir : SortedMap ℕ Bytes) (log : List WalEntry) : Prop :=
  ∃ segments : List (ℕ × List WalEntry),
    dir.entries = segments.map (fun s => (s.1, encodeSegment s.2)) ∧ segments.flatMap (·.2) = log

-- The last of the files is the one that is written to.
def Logged (w : WriteAheadLog) (log : List WalEntry) : Prop :=
  w.writer ∧ ∃ segments es,
    w.dir.entries = (segments ++ [(w.segmentNumber, es)]).map (fun s => (s.1, encodeSegment s.2)) ∧
      (segments ++ [(w.segmentNumber, es)]).flatMap (·.2) = log

theorem Logged.stored (h : w.Logged log) : Stored w.dir log :=
  have ⟨_, _, _, hd, hl⟩ := h
  ⟨_, hd, hl⟩

theorem Logged.keys_le (h : w.Logged log) : ∀ k ∈ w.dir.keys, k ≤ w.segmentNumber := by
  obtain ⟨-, segments, es, hd, -⟩ := h
  rw [map_append] at hd
  exact fun k hk => SortedMap.le_of_last hd hk

theorem stored_empty : Stored ∅ [] :=
  ⟨[], rfl, rfl⟩

section Last

variable (h : w.dir.entries = files ++ [(w.segmentNumber, bytes)])

omit [Hashing]

include h

theorem segment_last : w.segment = bytes := by
  rw [segment, get?_eq_some.mpr (h ▸ mem_append_right files (mem_singleton_self _))]
  rfl

theorem insert_last :
    (w.dir.insert w.segmentNumber bs).entries = files ++ [(w.segmentNumber, bs)] := by
  have hlt : ∀ f ∈ files, f.1 < w.segmentNumber := fun f hf =>
    (pairwise_append.mp (h ▸ w.dir.sorted)).2.2 f hf _ (mem_singleton_self _)
  simp only [SortedMap.insert, h]
  rw [insert_append hlt, SortedList.insert, if_neg (lt_irrefl _), if_pos rfl]

theorem writeAll_last :
    (w.writeAll bs).dir.entries = files ++ [(w.segmentNumber, bytes ++ bs)] := by
  rw [writeAll, segment_last h]
  exact insert_last h

end Last

omit [Hashing] in
theorem ensureSegment_eq (hn : ∀ k ∈ w.dir.keys, k < w.segmentNumber) (hw : w.writer = false) :
    w.ensureSegment.writer ∧ w.ensureSegment.segmentNumber = w.segmentNumber ∧
      w.ensureSegment.dir.entries =
        w.dir.entries ++ [(w.ensureSegment.segmentNumber, encodeLE 4 walMagic)] := by
  have hlt : ∀ f ∈ w.dir.entries, f.1 < w.segmentNumber := fun f hf =>
    hn f.1 (mem_map_of_mem hf)
  have hs : w.segment = [] := by
    have hnone : w.dir.get? w.segmentNumber = none := by
      rw [← Option.not_isSome_iff_eq_none, ← SortedMap.mem_keys]
      exact fun hk => lt_irrefl _ (hn _ hk)
    rw [segment, hnone]
    rfl
  rw [ensureSegment, hw, if_pos hs]
  refine ⟨rfl, rfl, ?_⟩
  simp only [writeAll, SortedMap.insert, hs, nil_append]
  exact insert_eq_append hlt

theorem Stored.extend {dir dir' : SortedMap ℕ Bytes} (h : Stored dir log)
    (hd : dir'.entries = dir.entries ++ [(n, encodeLE 4 walMagic)]) :
    ∃ segments es, dir'.entries = (segments ++ [(n, es)]).map (fun s => (s.1, encodeSegment s.2)) ∧
      (segments ++ [(n, es)]).flatMap (·.2) = log := by
  obtain ⟨segments, hs, hl⟩ := h
  refine ⟨segments, [], ?_, by simpa using hl⟩
  rw [hd, hs, map_append]
  rfl

theorem Logged.append (h : w.Logged log) (e : WalEntry) : (w.append e).1.Logged (log ++ [e]) := by
  obtain ⟨hw, segments, es, hd, hl⟩ := h
  rw [map_append] at hd
  have hf : (w.writeAll (frame e)).dir.entries =
      (segments ++ [(w.segmentNumber, es ++ [e])]).map fun s => (s.1, encodeSegment s.2) := by
    rw [writeAll_last hd]
    simp [encodeSegment]
  have hlog : (segments ++ [(w.segmentNumber, es ++ [e])]).flatMap (·.2) = log ++ [e] := by
    simp [← hl]
  have he : w.ensureSegment = w := if_pos hw
  have hnew : Logged { w.writeAll (frame e) with
      sequence := w.sequence + 1, currentSize := w.currentSize + (frame e).length } (log ++ [e]) :=
    ⟨hw, segments, _, hf, hlog⟩
  simp only [WriteAheadLog.append, he]
  split
  case isFalse => exact hnew
  obtain ⟨hopen, -, hd⟩ := @ensureSegment_eq
    { w.writeAll (frame e) with
      writer := false
      segmentNumber := w.segmentNumber + 1
      sequence := w.sequence + 1
      currentSize := 0 } (fun k hk => Nat.lt_succ_of_le (hnew.keys_le k hk)) rfl
  exact ⟨hopen, hnew.stored.extend hd⟩

theorem foldlM_scanSegment {files : List Bytes} {n : UInt64}
    (h : ∀ file ∈ files, readSegment file ≠ .error .panic) :
    ∃ m, files.foldlM scanSegment n = .ok m := by
  induction files generalizing n
  case nil => exact ⟨n, rfl⟩
  case cons file files hi =>
    have hm : ∃ m, scanSegment n file = .ok m := by
      rw [scanSegment]
      split
      case h_1 | h_2 => exact ⟨_, rfl⟩
      case h_3 heq => exact (h file mem_cons_self heq).elim
    obtain ⟨m, hm⟩ := hm
    rw [foldlM_cons, hm]
    exact hi fun f hf => h f (mem_cons_of_mem file hf)

-- A new segment is opened behind those that are there, whether they can be read or not.
theorem withOptions_eq {dir : SortedMap ℕ Bytes} {maxSegmentSize : ℕ}
    (hr : ∀ file ∈ dir.values, readSegment file ≠ .error .panic) :
    ∃ w, withOptions dir maxSegmentSize = .ok w ∧ w.writer ∧
      w.segmentNumber = dir.keys.foldl max 0 + 1 ∧
        w.dir.entries = dir.entries ++ [(w.segmentNumber, encodeLE 4 walMagic)] := by
  obtain ⟨sequence, hm⟩ := @foldlM_scanSegment _ _ 0 hr
  rw [withOptions, recoverState]
  simp only [hm, ok_bind]
  exact ⟨_, rfl, ensureSegment_eq (fun k hk => Nat.lt_succ_of_le (le_foldl_max.2 k hk)) rfl⟩

theorem Stored.withOptions {dir : SortedMap ℕ Bytes} {maxSegmentSize : ℕ} (h : Stored dir log)
    (hr : ∀ file ∈ dir.values, readSegment file ≠ .error .panic) :
    ∃ w, withOptions dir maxSegmentSize = .ok w ∧ w.Logged log ∧
      w.segmentNumber = dir.keys.foldl max 0 + 1 := by
  obtain ⟨w, hw, hopen, hn, hd⟩ := @withOptions_eq _ dir maxSegmentSize hr
  exact ⟨w, hw, ⟨hopen, h.extend hd⟩, hn⟩

theorem reads_segments {segments : List (ℕ × List WalEntry)}
    (h : ∀ e ∈ segments.flatMap (·.2), Small e) : Forall₂ (fun file es => readSegment file = .ok es)
      (segments.map fun s => encodeSegment s.2) (segments.map (·.2)) := by
  rw [forall₂_map_left_iff, forall₂_map_right_iff, forall₂_same]
  exact fun s hs => readSegment_encodeSegment fun e he => h e (mem_flatMap_of_mem hs he)

theorem Stored.reads {dir : SortedMap ℕ Bytes} (h : Stored dir log) (hs : ∀ e ∈ log, Small e) :
    ∃ parts, Forall₂ (fun file es => readSegment file = .ok es) dir.values parts ∧
      parts.flatten = log := by
  obtain ⟨segments, hd, rfl⟩ := h
  refine ⟨segments.map (·.2), ?_, (flatMap_def ..).symm⟩
  rw [values, hd, map_map]
  exact reads_segments hs

theorem not_panic_of_reads (h : Forall₂ (fun file es => readSegment file = .ok es) files parts) :
    ∀ file ∈ files, readSegment file ≠ .error .panic := by
  intro file hfile
  induction h
  case nil => cases hfile
  case cons hr h hi =>
    cases hfile
    case head => rw [hr]; exact fun he => by cases he
    case tail hfile => exact hi hfile

theorem Stored.readable {dir : SortedMap ℕ Bytes} (h : Stored dir log) (hs : ∀ e ∈ log, Small e) :
    ∀ file ∈ dir.values, readSegment file ≠ .error .panic :=
  have ⟨_, hr, _⟩ := h.reads hs
  not_panic_of_reads hr

section Replay

variable {σ : Type} {callback : σ → WalEntry → Result σ} {s : σ}

theorem foldlM_files (h : Forall₂ (fun file es => readSegment file = .ok es) files parts) :
    files.foldlM (fun p segment => do
      let entries ← readSegment segment
      let s ← entries.foldlM callback p.1
      return (s, p.2 + entries.length)) (s, n) =
        (parts.flatten.foldlM callback s).map (·, n + parts.flatten.length) := by
  induction h generalizing s n
  case nil => rfl
  case cons file es files parts hr h hi =>
    rw [foldlM_cons, hr, ok_bind, flatten_cons, foldlM_append]
    cases es.foldlM callback s
    case error e => rfl
    case ok s' =>
      rw [length_append, ← Nat.add_assoc]
      exact hi

omit [Hashing] in
theorem sortedSegments_eq (h : ∀ k ∈ w.dir.keys, k < 10 ^ 10) :
    w.sortedSegments = w.dir.values := by
  refine congrArg _ <| List.Pairwise.insertionSort_eq <| w.dir.sorted.imp_of_mem fun _ hb hlt => ?_
  exact (segmentName_lt hlt (h _ (mem_map_of_mem hb))).le

-- A file that cannot be read makes the whole replay fail.
theorem replay_fails {e : Failure} (h : file ∈ w.dir.values) (hr : readSegment file = .error e) :
    (w.replay callback s).toOption = none := by
  have hmem : file ∈ w.sortedSegments :=
    ((perm_insertionSort _ _).map Prod.snd).mem_iff.mpr h
  rw [WriteAheadLog.replay]
  generalize w.sortedSegments = files, (s, 0) = p at hmem ⊢
  induction files generalizing p
  case nil => cases hmem
  case cons file' files hi =>
    rw [foldlM_cons]
    cases hmem
    case head => rw [hr]; rfl
    case tail hmem =>
      cases readSegment file'
      case error => rfl
      case ok es =>
        rw [ok_bind]
        cases es.foldlM callback p.1
        case error => rfl
        case ok s' => exact hi _ hmem

theorem replay_eq (h : Forall₂ (fun file es => readSegment file = .ok es) w.dir.values parts)
    (hn : ∀ k ∈ w.dir.keys, k < 10 ^ 10) :
    w.replay callback s = (parts.flatten.foldlM callback s).map (·, parts.flatten.length) := by
  have hr := @foldlM_files _ σ callback s _ _ 0 h
  rw [Nat.zero_add] at hr
  rw [WriteAheadLog.replay, sortedSegments_eq hn]
  exact hr

theorem Stored.replay (h : Stored w.dir log) (hs : ∀ e ∈ log, Small e)
    (hn : ∀ k ∈ w.dir.keys, k < 10 ^ 10) :
    w.replay callback s = (log.foldlM callback s).map (·, log.length) := by
  obtain ⟨parts, hr, rfl⟩ := h.reads hs
  exact replay_eq hr hn

end Replay

end WriteAheadLog

namespace LogRun

open WriteAheadLog

structure State where
  wal : WriteAheadLog
  log : List WalEntry := []

inductive Event
  | append (entry : WalEntry)
  | reopen (maxSegmentSize : ℕ)

variable [Hashing] {s s' : State}

def step (s : State) : Event → Option State
  | .append entry => some { wal := (s.wal.append entry).1, log := s.log ++ [entry] }
  | .reopen maxSegmentSize =>
    (withOptions s.wal.close.dir maxSegmentSize).toOption.map fun wal => { s with wal }

def Careful (_ : State) : Event → Prop
  | .append entry => Small entry
  | .reopen _ => True

instance (s : State) (e : Event) : Decidable (Careful s e) :=
  match e with
  | .append entry => inferInstanceAs <| Decidable <| Small entry
  | .reopen _ => .isTrue trivial

structure Inv (s : State) : Prop where
  logged : s.wal.Logged s.log
  small : ∀ e ∈ s.log, Small e

theorem inv_new {maxSegmentSize : ℕ} {wal : WriteAheadLog}
    (h : withOptions ∅ maxSegmentSize = .ok wal) : Inv { wal } := by
  obtain ⟨wal', h', hl, -⟩ := @stored_empty.withOptions _ _ _ maxSegmentSize fun _ hf => by cases hf
  cases h.symm.trans h'
  exact ⟨hl, fun _ he => by cases he⟩

theorem Inv.reopen {maxSegmentSize : ℕ} (h : Inv s) :
    ∃ wal, withOptions s.wal.close.dir maxSegmentSize = .ok wal ∧ Inv { s with wal } ∧
      wal.segmentNumber ≤ s.wal.segmentNumber + 1 := by
  obtain ⟨wal, hw, hl, hn⟩ := h.logged.stored.withOptions (h.logged.stored.readable h.small)
  refine ⟨wal, hw, ⟨hl, h.small⟩, ?_⟩
  rw [hn]
  exact Nat.succ_le_succ <| foldl_max_le (Nat.zero_le _) h.logged.keys_le

theorem Inv.step (h : Inv s) (hc : Careful s e) (he : LogRun.step s e = some s') : Inv s' := by
  cases e
  case append entry =>
    cases he
    exact ⟨h.logged.append entry, by simpa [or_imp, forall_and] using ⟨h.small, hc⟩⟩
  case reopen maxSegmentSize =>
    obtain ⟨wal, hw, hi, -⟩ := h.reopen
    rw [LogRun.step, hw] at he
    cases he
    exact hi

end LogRun

open WriteAheadLog LogRun Transition

theorem wal_replays_appended [Hashing] {maxSegmentSize₀ maxSegmentSize : ℕ} {w₀ : WriteAheadLog}
    {s : LogRun.State} (h₀ : withOptions ∅ maxSegmentSize₀ = .ok w₀)
    (r : Reaches LogRun.step LogRun.Careful { wal := w₀ } s)
    (hn : s.wal.segmentNumber + 1 < 10 ^ 10) :
    (∃ w, withOptions s.wal.close.dir maxSegmentSize = .ok w ∧ ∀ σ callback (init : σ),
      w.replay callback init = (s.log.foldlM callback init).map (·, s.log.length)) ∧
    ∀ e : WalEntry, e.serialize.length < UInt64.size →
      deserialize e.serialize = .ok (e, e.serialize.length) := by
  have h := r.invariant (inv_new h₀) Inv.step
  refine ⟨?_, fun e => deserialize_serialize⟩
  obtain ⟨w, hw, hi, hle⟩ := h.reopen
  refine ⟨w, hw, fun σ callback init => hi.logged.stored.replay hi.small fun k hk => ?_⟩
  exact (hi.logged.keys_le k hk).trans_lt (hle.trans_lt hn)

section Sample

local instance walSample : Hashing := .sample

def shortSegments : WriteAheadLog where
  dir := insert ∅ 1 [0x31, 0x4C, 0x41, 0x57]
  writer := true
  segmentNumber := 1
  maxSegmentSize := 40
  currentSize := 4

def sampleBatch : WalEntry :=
  .writeBatch [("cpu", insert ∅ "host" "a", 10, 0x3FF0000000000000), ("mem", ∅, -1, 0)]

theorem wal_replays_appended_three :
    ∃ s w, Reaches LogRun.step LogRun.Careful { wal := shortSegments } s ∧
    withOptions s.wal.close.dir 1000 = .ok w ∧
      w.replay (fun es e => .ok (es ++ [e])) [] =
        .ok ([sampleBatch, .checkpoint 7, sampleBatch], 3) := by
  obtain ⟨s, r, hl, hn⟩ : ∃ s, Reaches LogRun.step LogRun.Careful { wal := shortSegments } s ∧
      s.log = [sampleBatch, .checkpoint 7, sampleBatch] ∧ s.wal.segmentNumber + 1 < 10 ^ 10 :=
    Reaches.exists_of_run [.append sampleBatch, .append (.checkpoint 7), .reopen 10,
      .append sampleBatch]
      (by decide +kernel)
  obtain ⟨⟨w, hw, hr⟩, -⟩ := @wal_replays_appended _ 40 1000 shortSegments s rfl r hn
  refine ⟨s, w, r, hw, ?_⟩
  rw [hr, hl]
  rfl

theorem utf8_replicate (n : ℕ) : utf8 (String.ofList (.replicate n 'a')) = .replicate n 0x61 := by
  rw [utf8, String.toByteArray_ofList, utf8Encode]
  simp only [data_toByteArray, toList_toArray]
  induction n
  case zero => rfl
  case succ n hi =>
    rw [replicate_succ, flatMap_cons, hi]
    rfl

theorem serialize_replicate (n : ℕ) : (write (String.ofList (.replicate n 'a')) ∅ 0 0).serialize =
      1 :: (encodeVarint (UInt64.ofNat n) ++ (replicate n 0x61 ++ replicate 17 0)) := by
  have hz : encodeVarint (UInt64.ofNat 0) ++ ([] ++ (encodeLE 8 0 ++ encodeLE 8 0)) =
    replicate 17 0 := by decide +kernel
  rw [serialize, encodeRow, encodeSized, utf8_replicate, length_replicate, append_assoc]
  exact congrArg (fun bs => _ :: (_ ++ (_ ++ bs))) hz

-- The length in the frame is zero, and the data begins where the checksum is read.
theorem readSegment_truncated {e : WalEntry} {bs : Bytes}
    (hs : e.serialize = 1 :: ([0xE9, 0xFF, 0xFF, 0xFF, 0x0F] ++ bs))
    (hl : e.serialize.length = UInt32.size) :
    readSegment (encodeSegment [e]) = .error (.error (.checksumMismatch 0xFFFFE901 0)) := by
  have hm := @readLE_encodeLE 4 walMagic (by decide) ([e].flatMap frame)
  have hf : [e].flatMap frame = [0, 0, 0, 0] ++ ((1 :: ([0xE9, 0xFF, 0xFF, 0xFF, 0x0F] ++ bs)) ++
      encodeLE 4 (Hashing.crc32 e.serialize).toNat) := by
    rw [flatMap_singleton, frame, hl, ← hs]
    rfl
  have hz : Hashing.crc32 [] = 0 := rfl
  have hlen (bs : Bytes) : decodeLE 4 (0 :: 0 :: 0 :: 0 :: bs) = some (0, bs) := rfl
  have hcrc (bs : Bytes) : decodeLE 4 (1 :: 0xE9 :: 0xFF :: 0xFF :: bs) = some (0xFFFFE901, bs) :=
    rfl
  rw [readSegment, encodeSegment, hm, ok_bind, if_neg (by simp), hf]
  simp [readRecords, readFrame, hlen, hcrc, takeBytes, hz]

-- Where an entry cannot be read, no replay gets past it.
section Unreadable

variable (hr : readSegment (encodeSegment [e]) = .error (.error err))

omit hr in
theorem segments_singleton {segments : List (ℕ × List WalEntry)}
    (h : segments.flatMap (·.2) = [e]) :
    (∀ s ∈ segments, s.2 = [] ∨ s.2 = [e]) ∧ ∃ s ∈ segments, s.2 = [e] := by
  have hall : ∀ s ∈ segments, s.2 = [] ∨ s.2 = [e] := fun s hs => by
    have hsub : s.2.Sublist (segments.flatMap (·.2)) :=
      flatMap_def .. ▸ sublist_flatten_of_mem (mem_map_of_mem hs)
    exact sublist_singleton.mp (h ▸ hsub)
  have hmem : e ∈ segments.flatMap (·.2) := h ▸ mem_singleton_self _
  obtain ⟨s, hs, he⟩ := mem_flatMap.mp hmem
  exact ⟨hall, s, hs, (hall s hs).resolve_left fun hn => by rw [hn] at he; cases he⟩

include hr

theorem not_replayed : ∃ s w, Reaches LogRun.step anyEvent { wal := shortSegments } s ∧
    s.log = [e] ∧ withOptions s.wal.close.dir 40 = .ok w ∧
      (w.replay (fun es e => .ok (es ++ [e])) []).toOption = none := by
  have hl : (shortSegments.append e).1.Logged [e] :=
    (@inv_new _ 40 shortSegments rfl).logged.append e
  have hread : ∀ file ∈ (shortSegments.append e).1.dir.values,
      readSegment file ≠ .error .panic := by
    obtain ⟨segments, hd, hlog⟩ := hl.stored
    intro file hfile
    rw [values, hd, map_map] at hfile
    obtain ⟨s, hs, rfl⟩ := mem_map.mp hfile
    rw [Function.comp_apply]
    rcases (segments_singleton hlog).1 s hs with he | he <;> rw [he]
    · exact fun hp => by cases hp
    · rw [hr]
      exact fun hp => by cases hp
  obtain ⟨w, hw, hlogged, -⟩ := @hl.stored.withOptions _ _ _ 40 hread
  obtain ⟨segments, hd, hlog⟩ := hlogged.stored
  obtain ⟨s, hs, he⟩ := (segments_singleton hlog).2
  refine ⟨_, w, Relation.ReflTransGen.single ⟨.append e, trivial, rfl⟩, rfl, hw, ?_⟩
  refine replay_fails ?_ (he ▸ hr)
  rw [values, hd, map_map]
  exact mem_map_of_mem hs

end Unreadable

def longEntry : WalEntry :=
  .write (String.ofList (.replicate 4294967273 'a')) ∅ 0 0

theorem readSegment_longEntry : readSegment (encodeSegment [longEntry]) =
    .error (.error (.checksumMismatch 0xFFFFE901 0)) := by
  have hv : encodeVarint (UInt64.ofNat 4294967273) = [0xE9, 0xFF, 0xFF, 0xFF, 0x0F] := by
    decide +kernel
  have hs : longEntry.serialize = _ := serialize_replicate 4294967273
  rw [hv] at hs
  refine readSegment_truncated hs ?_
  rw [hs, length_cons, length_append, length_append, length_replicate, length_replicate]
  rfl

theorem long_entry_not_replayed : ∃ s w, Reaches LogRun.step anyEvent { wal := shortSegments } s ∧
    s.log = [longEntry] ∧ withOptions s.wal.close.dir 40 = .ok w ∧
      (w.replay (fun es e => .ok (es ++ [e])) []).toOption = none :=
  not_replayed readSegment_longEntry

end Sample

end Tsdb
