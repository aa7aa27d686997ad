import AppliedCs.LogSystem.Log
import Mathlib.Data.List.TakeWhile

namespace LogSystem

open Codec SortedList List

theorem decodeUInt8_inverts :
    Inverts ((decodeLE 1).map UInt8.ofNat) (encodeLE 1 <| UInt8.toNat ·) fun _ => True :=
  decodeLE_map_inverts (fun _ => UInt8.ofNat_toNat) UInt8.toNat_lt

theorem decodeUInt16_inverts :
    Inverts ((decodeLE 2).map UInt16.ofNat) (encodeLE 2 <| UInt16.toNat ·) fun _ => True :=
  decodeLE_map_inverts (fun _ => UInt16.ofNat_toNat) UInt16.toNat_lt

theorem decodeUInt32_inverts :
    Inverts ((decodeLE 4).map UInt32.ofNat) (encodeLE 4 <| UInt32.toNat ·) fun _ => True :=
  decodeLE_map_inverts (fun _ => UInt32.ofNat_toNat) UInt32.toNat_lt

theorem decodeInt16_inverts : Inverts decodeInt16 encodeInt16 fun _ => True :=
  decodeLE_map_inverts (fun x => by rw [UInt16.ofNat_toNat]; exact Int16.toInt16_toUInt16 x)
    fun _ => UInt16.toNat_lt _

theorem decodeInt64_inverts : Inverts decodeInt64 encodeInt64 fun _ => True :=
  decodeLE_map_inverts (fun x => by rw [UInt64.ofNat_toNat]; exact Int64.toInt64_toUInt64 x)
    fun _ => UInt64.toNat_lt _

theorem Header.deserialize_inverts : InvertsBelow (256 ^ 8) deserialize serialize := by
  have h := (InvertsBelow.pair .text .bytes).map (f := ofFields)
    (g := fun h => (h.key, h.value)) fun _ => rfl
  exact h

theorem Header.length_serialize_pos (h : Header) : 0 < h.serialize.length := by
  rw [serialize, encodeText, encodeBytes, append_assoc, length_append, length_encodeLE]
  omega

theorem Record.deserialize_inverts : InvertsBelow (256 ^ 8) deserialize serialize := by
  have h := (InvertsBelow.pair (.of_inverts decodeUInt8_inverts) <|
    .pair (.of_inverts decodeInt64_inverts) <| .pair (.of_inverts decodeUInt32_inverts) <|
    .pair (.option .bytes) <| .pair (.option .bytes) <|
    .seq Header.deserialize_inverts Header.length_serialize_pos).map
      (f := ofFields)
      (g := fun r => (r.attributes, r.timestampDelta, r.offsetDelta, r.key, r.value, r.headers))
      fun _ => rfl
  exact h

theorem Record.length_serialize_pos (r : Record) : 0 < r.serialize.length := by
  rw [serialize, length_append, length_encodeLE]
  omega

namespace RecordBatch

-- The base offset and the length of a batch that can be read back.
structure Fits (b : RecordBatch) : Prop where
  offset : b.baseOffset < 256 ^ 8
  length : b.serialize.length < UInt32.size

instance (b : RecordBatch) : Decidable b.Fits :=
  decidable_of_iff (_ ∧ _) ⟨fun ⟨ho, hl⟩ => ⟨ho, hl⟩, fun ⟨ho, hl⟩ => ⟨ho, hl⟩⟩

theorem decode_inverts : Inverts decode serialize Fits := by
  have h := (decodePair_inverts (decodeLE_inverts 8) <|
    InvertsBelow.pair (.of_inverts decodeUInt32_inverts) <|
    .pair (.of_inverts decodeUInt32_inverts) <| .pair (.of_inverts decodeUInt8_inverts) <|
    .pair (.of_inverts decodeUInt32_inverts) <| .pair (.of_inverts decodeUInt16_inverts) <|
    .pair (.of_inverts decodeUInt32_inverts) <| .pair (.of_inverts decodeInt64_inverts) <|
    .pair (.of_inverts decodeInt64_inverts) <| .pair (.of_inverts decodeInt64_inverts) <|
    .pair (.of_inverts decodeInt16_inverts) <| .pair (.of_inverts decodeUInt32_inverts) <|
    .seq Record.deserialize_inverts Record.length_serialize_pos).map
      (f := ofFields)
      (g := fun b => (b.baseOffset, b.batchLength, b.partitionLeaderEpoch, b.magic, b.crc,
        b.attributes, b.lastOffsetDelta, b.baseTimestamp, b.maxTimestamp, b.producerId,
        b.producerEpoch, b.baseSequence, b.records))
      fun _ => rfl
  refine Inverts.mono h fun b hb => ⟨hb.offset, ?_⟩
  have hl := hb.length
  rw [serialize, length_append] at hl
  exact (Nat.le_add_left ..).trans_lt (hl.trans (by decide))

theorem deserialize_serialize (h : b.Fits) : deserialize b.serialize = .ok b := by
  have hd := decode_inverts b h []
  rw [append_nil] at hd
  rw [deserialize, hd]

-- The offsets that a batch takes up.
def size (b : RecordBatch) : ℕ :=
  b.lastOffsetDelta.toNat + 1

end RecordBatch

-- Batches one behind the other from an offset on, and the offset behind the last.
def endOffset (start : ℕ) (bs : List RecordBatch) : ℕ :=
  start + (bs.map (·.size)).sum

def Consecutive : ℕ → List RecordBatch → Prop
  | _, [] => True
  | start, b :: bs => b.baseOffset = start ∧ Consecutive (start + b.size) bs

section

@[simp] theorem endOffset_nil : endOffset start [] = start :=
  rfl

@[simp] theorem endOffset_cons : endOffset start (b :: bs) = endOffset (start + b.size) bs := by
  simp [endOffset, Nat.add_assoc]

theorem endOffset_append : endOffset start (bs ++ bs') = endOffset (endOffset start bs) bs' := by
  simp [endOffset, Nat.add_assoc]

theorem le_endOffset : start ≤ endOffset start bs :=
  Nat.le_add_right ..

theorem lt_endOffset (h : bs ≠ []) (start : ℕ) : start < endOffset start bs := by
  have ⟨b, bs, hb⟩ := exists_cons_of_ne_nil h
  rw [hb, endOffset_cons]
  exact (Nat.lt_add_of_pos_right (Nat.succ_pos _)).trans_le le_endOffset

namespace Consecutive

theorem append_iff : Consecutive start (bs ++ bs') ↔
      Consecutive start bs ∧ Consecutive (endOffset start bs) bs' := by
  induction bs generalizing start
  case nil => simp [Consecutive]
  case cons b bs hi => simp [Consecutive, hi, and_assoc]

theorem le_baseOffset (h : Consecutive start bs) (hb : b ∈ bs) : start ≤ b.baseOffset := by
  induction bs generalizing start
  case nil => cases hb
  case cons b' bs hi =>
    cases hb
    case head => exact h.1.ge
    case tail hb => exact (Nat.le_add_right ..).trans (hi h.2 hb)

theorem baseOffset_lt (h : Consecutive start bs) (hb : b ∈ bs) :
    b.baseOffset < endOffset start bs := by
  induction bs generalizing start
  case nil => cases hb
  case cons b' bs hi =>
    rw [endOffset_cons]
    cases hb
    case head => exact h.1 ▸ (Nat.lt_add_of_pos_right (Nat.succ_pos _)).trans_le le_endOffset
    case tail hb => exact hi h.2 hb

-- What has an offset of at least the end of the first part is the second part.
theorem filter_append (h : Consecutive start (bs ++ bs')) :
    (bs ++ bs').filter (endOffset start bs ≤ ·.baseOffset) = bs' := by
  have ⟨h₁, h₂⟩ := append_iff.mp h
  rw [List.filter_append, List.filter_eq_nil_iff.mpr, List.filter_eq_self.mpr, List.nil_append]
  · exact fun b hb => decide_eq_true <| h₂.le_baseOffset hb
  · exact fun b hb => by simpa using h₁.baseOffset_lt hb

end Consecutive

end

section

variable {α : Type*} {l : List α}

theorem map_eq_replicate (h : l.Pairwise fun a b => p b → p a) :
    l.map p = replicate (l.takeWhile p).length true ++
      replicate (l.dropWhile p).length false := by
  induction l
  case nil => rfl
  case cons a l hi =>
    have ⟨ha, hl⟩ := pairwise_cons.mp h
    by_cases hpa : p a
    case pos =>
      rw [takeWhile_cons_of_pos hpa, dropWhile_cons_of_pos hpa, map_cons, hpa, hi hl]
      rfl
    rw [takeWhile_cons_of_neg hpa, dropWhile_cons_of_neg hpa]
    refine map_eq_replicate_iff.mpr fun b hb => ?_
    cases hb
    case head => exact eq_false_of_ne_true hpa
    case tail hb => exact eq_false_of_ne_true fun hpb => hpa (ha b hb hpb)

-- Where all elements that pass the test come first, the binary search counts them.
theorem Platform.partitionPoint_map [Platform] (h : l.Pairwise fun a b => p b → p a) :
    partitionPoint (l.map p) = (l.takeWhile p).length :=
  map_eq_replicate h ▸ partitionPoint_cut _ _

theorem getElem?_takeWhile (h : 0 < (l.takeWhile p).length) :
    ∃ a ∈ l, p a ∧ l[(l.takeWhile p).length - 1]? = some a := by
  have hlt : (l.takeWhile p).length - 1 < (l.takeWhile p).length := Nat.sub_lt h Nat.one_pos
  have hm := getElem_mem hlt
  refine ⟨_, (List.takeWhile_prefix p).mem hm, mem_takeWhile_imp hm, ?_⟩
  exact prefix_iff_getElem?.mp (List.takeWhile_prefix p) _ hlt

end

namespace LogSegment

variable [Platform] {segment : LogSegment} {bs : List RecordBatch}

theorem length_frame (b : RecordBatch) : (frame b).length = 8 + b.serialize.length := by
  simp only [frame, length_append, length_encodeLE]
  omega

theorem readBatch_frame (h : b.Fits) (rest : Bytes) :
    readBatch (frame b ++ rest) = some (.ok (b.serialize.length, b), rest) := by
  have hl := decodeLE_inverts 4 b.serialize.length h.length
    (encodeLE 4 (Platform.crc32 b.serialize).toNat ++ b.serialize ++ rest)
  have hc := decodeLE_inverts 4 _ (Platform.crc32 b.serialize).toNat_lt (b.serialize ++ rest)
  have hd := takeBytes_append b.serialize rest
  rw [append_assoc] at hl
  simp only [readBatch, frame, append_assoc, hl, decodePair, hc, hd, Option.bind_some,
    Option.map_some, if_true, RecordBatch.deserialize_serialize h]
  rfl

def readNext : Decoder (Except Error RecordBatch) :=
  fun bs => (readBatch bs).map fun p => (p.1.map (·.2), p.2)

-- The batches that a walk over the file finds.
def batches (segment : LogSegment) : List RecordBatch :=
  (readRecords readNext segment.logFile.length segment.logFile).toOption.getD []

structure Stores (segment : LogSegment) (bs : List RecordBatch) : Prop where
  file : segment.logFile = bs.flatMap frame
  position : segment.position = segment.logFile.length
  fits : ∀ b ∈ bs, b.Fits
  consecutive : Consecutive segment.baseOffset bs

theorem Stores.batches_eq (h : segment.Stores bs) : segment.batches = bs := by
  have hl : bs.length ≤ (bs.flatMap frame ++ []).length :=
    length_le_flatMap (fun b => by rw [length_frame]; omega) bs []
  have hr :
      readRecords readNext (bs.flatMap frame ++ []).length (bs.flatMap frame ++ []) = .ok bs :=
    readRecords_flatMap (fun b hb rest => by rw [readNext, readBatch_frame (h.fits b hb)]; rfl)
      rfl hl
  rw [append_nil, ← h.file] at hr
  rw [batches, hr]
  rfl

theorem Stores.append (h : segment.Stores bs) (hb : b.Fits)
    (ho : b.baseOffset = endOffset segment.baseOffset bs) :
    (segment.append b).Stores (bs ++ [b]) where
  file := by simp [LogSegment.append, h.file]
  position := by
    simp only [LogSegment.append, h.position, length_append, length_frame]
  fits := by
    intro b' hb'
    rcases mem_append.mp hb' with hb' | hb'
    · exact h.fits b' hb'
    · exact mem_singleton.mp hb' ▸ hb
  consecutive := Consecutive.append_iff.mpr ⟨h.consecutive, ho, trivial⟩

theorem readLoop_flatMap (hf : ∀ b ∈ bs, b.Fits) (offset maxBytes fuel bytesRead) :
    ∃ k, readLoop offset maxBytes fuel bytesRead (bs.flatMap frame) =
      .ok ((bs.take k).filter (offset ≤ ·.baseOffset)) := by
  induction fuel generalizing bs bytesRead
  case zero => exact ⟨0, rfl⟩
  case succ fuel hi =>
    rw [readLoop]
    split
    case isFalse => exact ⟨0, rfl⟩
    cases bs
    case nil => exact ⟨0, rfl⟩
    case cons b bs =>
      have ⟨k, hk⟩ := hi (fun b' hb' => hf b' (mem_cons_of_mem b hb'))
        ((bytesRead + (8 + b.serialize.length)) % UInt32.size)
      refine ⟨k + 1, ?_⟩
      rw [flatMap_cons, readBatch_frame (hf b mem_cons_self)]
      dsimp only
      rw [hk, take_succ_cons, filter_cons]
      simp only [Except.map, decide_eq_true_eq]

-- An index entry leads to the beginning of a batch.
structure Indexed (segment : LogSegment) (bs : List RecordBatch) : Prop where
  entry : ∀ e ∈ segment.indexEntries, ∃ l r, bs = l ++ r ∧ r ≠ [] ∧
    segment.baseOffset + e.relativeOffset.toNat = endOffset segment.baseOffset l ∧
    e.position.toNat = (l.flatMap frame).length
  sorted : segment.indexEntries.Pairwise (·.relativeOffset < ·.relativeOffset)

theorem findPosition_spec (h : segment.Indexed bs) (ho : segment.baseOffset ≤ offset) :
    ∃ l r, bs = l ++ r ∧ endOffset segment.baseOffset l ≤ offset ∧
      segment.findPosition offset = .ok (l.flatMap frame).length := by
  have hp : segment.indexEntries.Pairwise fun e e' =>
      decide (e'.relativeOffset ≤ UInt32.ofNat (offset - segment.baseOffset)) →
      decide (e.relativeOffset ≤ UInt32.ofNat (offset - segment.baseOffset)) :=
    h.sorted.imp fun hlt hle =>
      decide_eq_true <| UInt32.le_trans (UInt32.le_of_lt hlt) (of_decide_eq_true hle)
  rw [findPosition, if_neg (Nat.not_lt.mpr ho)]
  dsimp only
  rw [Platform.partitionPoint_map hp]
  split
  case isFalse => exact ⟨[], bs, rfl, ho, rfl⟩
  case isTrue hpos =>
    have ⟨e, he, hle, hget⟩ := getElem?_takeWhile hpos
    have ⟨l, r, hbs, _, hoff, hpos⟩ := h.entry e he
    refine ⟨l, r, hbs, ?_, by rw [hget, ← hpos]; rfl⟩
    have hle := UInt32.le_iff_toNat_le.mp (of_decide_eq_true hle)
    rw [UInt32.toNat_ofNat'] at hle
    omega

-- A read finds batches from the offset on, up to the number of bytes that was asked for.
theorem Stores.read (h : segment.Stores bs) (hi : segment.Indexed bs)
    (ho : segment.baseOffset ≤ offset) (maxBytes) :
    ∃ found, segment.read offset maxBytes = .ok found ∧
      found <+: bs.filter (offset ≤ ·.baseOffset) := by
  have ⟨l, r, hbs, hle, hp⟩ := findPosition_spec hi ho
  subst hbs
  have ⟨k, hk⟩ := readLoop_flatMap (fun b hb => h.fits b (mem_append_right l hb)) offset
    maxBytes segment.logFile.length 0
  have hd : segment.logFile.drop (l.flatMap frame).length = r.flatMap frame := by
    rw [h.file, flatMap_append, drop_left]
  have hl : l.filter (offset ≤ ·.baseOffset) = [] := by
    refine filter_eq_nil_iff.mpr fun b hb => ?_
    have := (Consecutive.append_iff.mp h.consecutive).1.baseOffset_lt hb
    simp only [decide_eq_true_eq]
    omega
  refine ⟨(r.take k).filter (offset ≤ ·.baseOffset), ?_, ?_⟩
  · rw [LogSegment.read, hp, ← hk, ← hd]
    rfl
  · rw [filter_append, hl]
    exact (List.take_prefix k r).filter _

theorem append_indexEntries (segment : LogSegment) (b : RecordBatch) :
    (segment.append b).indexEntries = segment.indexEntries ∨
    (segment.append b).indexEntries = segment.indexEntries ++
      [⟨UInt32.ofNat (b.baseOffset - segment.baseOffset), UInt32.ofNat segment.position⟩] := by
  by_cases h : segment.config.indexIntervalBytes ≤
      segment.bytesSinceLastIndex + (8 + b.serialize.length)
  · exact .inr (if_pos h)
  · exact .inl (if_neg h)

theorem Indexed.append (hi : segment.Indexed bs) (h : segment.Stores bs)
    (ho : b.baseOffset = endOffset segment.baseOffset bs) (hp : segment.position < UInt32.size)
    (hs : b.baseOffset - segment.baseOffset < UInt32.size) :
    (segment.append b).Indexed (bs ++ [b]) := by
  have hrel : (UInt32.ofNat (b.baseOffset - segment.baseOffset)).toNat =
      b.baseOffset - segment.baseOffset := UInt32.toNat_ofNat_of_lt' hs
  have hpos : (UInt32.ofNat segment.position).toNat = segment.position :=
    UInt32.toNat_ofNat_of_lt' hp
  have hle : segment.baseOffset ≤ b.baseOffset := ho ▸ le_endOffset
  have hold : ∀ e ∈ segment.indexEntries, ∃ l r, bs ++ [b] = l ++ r ∧ r ≠ [] ∧
      segment.baseOffset + e.relativeOffset.toNat = endOffset segment.baseOffset l ∧
      e.position.toNat = (l.flatMap frame).length := by
    intro e he
    have ⟨l, r, hbs, hr, hoff, hpe⟩ := hi.entry e he
    exact ⟨l, r ++ [b], by rw [hbs, append_assoc], by simp, hoff, hpe⟩
  rcases append_indexEntries segment b with heq | heq
  · exact ⟨heq ▸ hold, heq ▸ hi.sorted⟩
  · refine ⟨heq ▸ forall_mem_append.mpr ⟨hold, forall_mem_singleton.mpr ?_⟩, heq ▸ ?_⟩
    · refine ⟨bs, [b], rfl, by simp, ?_, ?_⟩
      · rw [hrel]
        exact (Nat.add_sub_cancel' hle).trans ho
      · rw [hpos, h.position, h.file]
    · refine pairwise_append.mpr
        ⟨hi.sorted, pairwise_singleton _ _, fun e he e' he' => ?_⟩
      have ⟨l, r, hbs, hr, hoff, _⟩ := hi.entry e he
      have hlt := lt_endOffset hr (endOffset segment.baseOffset l)
      rw [← endOffset_append, ← hbs] at hlt
      rw [mem_singleton.mp he', UInt32.lt_iff_toNat_lt, hrel]
      omega

end LogSegment

-- Segments one behind the other from an offset on.
def Chained [Platform] : ℕ → List LogSegment → Prop
  | _, [] => True
  | start, segment :: others =>
    segment.baseOffset = start ∧ segment.Stores segment.batches ∧
    Chained (endOffset start segment.batches) others

namespace Chained

variable [Platform] {segment : LogSegment} {segments : List LogSegment}

theorem append_iff : Chained start (segments ++ others) ↔ Chained start segments ∧
      Chained (endOffset start (segments.flatMap (·.batches))) others := by
  induction segments generalizing start
  case nil => simp [Chained]
  case cons s _ h => simp [Chained, h, and_assoc, flatMap_cons, endOffset_append]

theorem consecutive (h : Chained start segments) :
    Consecutive start (segments.flatMap (·.batches)) := by
  induction segments generalizing start
  case nil => trivial
  case cons s _ hi =>
    have ⟨ho, hs, hr⟩ := h
    exact Consecutive.append_iff.mpr ⟨ho ▸ hs.consecutive, hi hr⟩

theorem fits (h : Chained start segments) : ∀ b ∈ segments.flatMap (·.batches), b.Fits := by
  induction segments generalizing start
  case nil => nofun
  case cons s _ hi =>
    have ⟨_, hs, hr⟩ := h
    exact forall_mem_append.mpr ⟨hs.fits, hi hr⟩

end Chained

namespace Partition

variable [Platform] {p : Partition} {segment : LogSegment}

def batches (p : Partition) : List RecordBatch :=
  p.segments.flatMap (·.batches)

-- The segments that are full, up to an offset.
structure Older (older : List LogSegment) (offset : ℕ) : Prop where
  chained : Chained 0 older
  sorted : Sorted (·.baseOffset) older
  lower : ∀ s ∈ older, s.baseOffset < offset
  offset : offset = endOffset 0 (older.flatMap (·.batches))

variable {older : List LogSegment}

theorem Older.concat (h : Older older segment.baseOffset) (hs : segment.Stores segment.batches)
    (hne : segment.batches ≠ []) :
    Older (older ++ [segment]) (endOffset segment.baseOffset segment.batches) where
  chained := Chained.append_iff.mpr ⟨h.chained, h.offset, hs, trivial⟩
  sorted := pairwise_append.mpr ⟨h.sorted, pairwise_singleton _ _,
    fun s hm _ hm' => mem_singleton.mp hm' ▸ h.lower s hm⟩
  lower := by
    intro s hm
    have hlt := lt_endOffset hne segment.baseOffset
    rcases mem_append.mp hm with hm | hm
    · exact (h.lower s hm).trans hlt
    · exact mem_singleton.mp hm ▸ hlt
  offset := by
    rw [flatMap_append, endOffset_append, ← h.offset, flatMap_singleton]

-- The segments as they are between two calls, the active one last.
structure Split (p : Partition) (older : List LogSegment) (segment : LogSegment) : Prop where
  segments : p.segments = older ++ [segment]
  older : Older older segment.baseOffset
  stores : segment.Stores segment.batches
  active : p.activeSegmentOffset = segment.baseOffset
  logEnd : p.logEndOffset = endOffset segment.baseOffset segment.batches

namespace Split

variable (h : p.Split older segment)
include h

theorem batches_eq : p.batches = older.flatMap (·.batches) ++ segment.batches := by
  rw [batches, h.segments, flatMap_append, flatMap_singleton]

theorem sorted : Sorted (·.baseOffset) p.segments := by
  rw [h.segments]
  exact pairwise_append.mpr ⟨h.older.sorted, pairwise_singleton _ _,
    fun s hm _ hm' => mem_singleton.mp hm' ▸ h.older.lower s hm⟩

theorem getSegment_eq : p.getSegment p.activeSegmentOffset = some segment := by
  rw [h.active]
  exact h.sorted.get_of_mem (h.segments ▸ mem_append_right _ mem_cons_self)

theorem consecutive : Consecutive 0 p.batches := by
  rw [h.batches_eq]
  exact Consecutive.append_iff.mpr
    ⟨h.older.chained.consecutive, h.older.offset ▸ h.stores.consecutive⟩

theorem logEndOffset_eq : p.logEndOffset = endOffset 0 p.batches := by
  rw [h.logEnd, h.batches_eq, endOffset_append, ← h.older.offset]

theorem putSegment (hb : segment'.baseOffset = segment.baseOffset) :
    (p.putSegment segment').segments = older ++ [segment'] := by
  rw [Partition.putSegment, h.segments,
    SortedList.insert_append fun s hs => hb ▸ h.older.lower s hs,
    SortedList.insert, if_neg hb.not_lt, if_pos hb]

end Split

theorem stores_empty (baseOffset config) :
    (LogSegment.mk baseOffset [] 0 0 config 0 []).Stores [] :=
  ⟨rfl, rfl, nofun, trivial⟩

theorem batches_empty (baseOffset config) :
    (LogSegment.mk baseOffset [] 0 0 config 0 []).batches = [] :=
  (stores_empty baseOffset config).batches_eq

-- A new segment takes the place of an empty one, and comes behind all others otherwise.
theorem Split.rollSegment (h : p.Split older segment) :
    ∃ older', p.rollSegment.Split older' { baseOffset := p.logEndOffset, config := p.config } ∧
      p.rollSegment.batches = p.batches ∧ ∀ s ∈ older', s ∈ p.segments := by
  have hempty := batches_empty p.logEndOffset p.config
  suffices ∃ older', p.rollSegment.segments =
        older' ++ [{ baseOffset := p.logEndOffset, config := p.config }] ∧
      Older older' p.logEndOffset ∧ older'.flatMap (·.batches) = p.batches ∧
      ∀ s ∈ older', s ∈ p.segments by
    have ⟨older', hs, ho, hb, hm⟩ := this
    refine ⟨older', ⟨hs, ho, hempty.symm ▸ stores_empty .., rfl, ?_⟩, ?_, hm⟩
    · rw [hempty, endOffset_nil]
      rfl
    · rw [batches, hs, flatMap_append, flatMap_singleton, hempty, hb, append_nil]
  by_cases hn : segment.batches = []
  case pos =>
    have hend : p.logEndOffset = segment.baseOffset := by rw [h.logEnd, hn, endOffset_nil]
    refine ⟨older, h.putSegment hend, hend ▸ h.older, ?_, fun s hs => ?_⟩
    · rw [h.batches_eq, hn, append_nil]
    · exact h.segments ▸ mem_append_left _ hs
  case neg =>
    have ho : Older p.segments p.logEndOffset := h.segments ▸ h.logEnd ▸ h.older.concat h.stores hn
    exact ⟨p.segments, insert_eq_append ho.lower, ho, rfl, fun _ => id⟩

theorem Split.write (h : p.Split older segment) (hb : { b with baseOffset := p.logEndOffset }.Fits)
    : (p.write segment b).2.Split older (segment.append { b with baseOffset := p.logEndOffset }) ∧
    (p.write segment b).2.batches = p.batches ++ [{ b with baseOffset := p.logEndOffset }] := by
  have hst := h.stores.append hb h.logEnd
  have hs : (p.write segment b).2.segments =
      older ++ [segment.append { b with baseOffset := p.logEndOffset }] := h.putSegment rfl
  refine ⟨⟨hs, h.older, hst.batches_eq.symm ▸ hst, h.active, ?_⟩, ?_⟩
  · rw [hst.batches_eq, endOffset_append]
    exact congrArg (endOffset · [{ b with baseOffset := p.logEndOffset }]) h.logEnd
  · rw [batches, hs, flatMap_append, flatMap_singleton, hst.batches_eq, h.batches_eq, append_assoc]

def Sound (p : Partition) : Prop :=
  ∃ older segment, p.Split older segment

theorem sound_new (topic partitionId config) : (Partition.new topic partitionId config).Sound :=
  ⟨[], _, rfl, ⟨trivial, .nil, nofun, rfl⟩, ⟨rfl, rfl, nofun, trivial⟩, rfl, rfl⟩

def Indexed (p : Partition) : Prop :=
  ∀ s ∈ p.segments, s.Indexed s.batches

theorem indexed_new (topic partitionId config) :
    (Partition.new topic partitionId config).Indexed := by
  intro s hs
  cases mem_singleton.mp hs
  exact ⟨nofun, .nil⟩

-- The positions and offsets in the active segment have 32 bits.
def Room (p : Partition) : Prop :=
  ∀ s ∈ p.getSegment p.activeSegmentOffset, ¬s.isFull →
    s.position < UInt32.size ∧ p.logEndOffset - s.baseOffset < UInt32.size

instance (p : Partition) : Decidable p.Room :=
  inferInstanceAs <| Decidable (∀ _ ∈ _, _)

theorem Split.indexed (h : p.Split older segment)
    (hb : { b with baseOffset := p.logEndOffset }.Fits) (ho : ∀ s ∈ older, s.Indexed s.batches)
    (hi : segment.Indexed segment.batches)
    (hr : segment.position < UInt32.size ∧ p.logEndOffset - segment.baseOffset < UInt32.size) :
    (p.write segment b).2.Indexed := by
  have hst := h.stores.append hb h.logEnd
  rw [Indexed, (h.write hb).1.segments]
  refine forall_mem_append.mpr ⟨ho, forall_mem_singleton.mpr ?_⟩
  rw [hst.batches_eq]
  exact hi.append h.stores h.logEnd hr.1 hr.2

theorem Sound.append (h : p.Sound) (hb : { b with baseOffset := p.logEndOffset }.Fits) :
    ∃ p', p.append b = .ok (p.logEndOffset, p') ∧ p'.Sound ∧
      p'.batches = p.batches ++ [{ b with baseOffset := p.logEndOffset }] ∧
      p'.highWatermark = p.highWatermark ∧ (p.Indexed → p.Room → p'.Indexed) := by
  have ⟨older, segment, h⟩ := h
  rw [Partition.append, h.getSegment_eq]
  dsimp only
  by_cases hf : segment.isFull
  case neg =>
    rw [if_neg hf, h.getSegment_eq]
    have ⟨hw, hbs⟩ := h.write hb
    refine ⟨_, rfl, ⟨_, _, hw⟩, hbs, rfl, fun hi hr => ?_⟩
    refine h.indexed hb (fun s hs => hi s ?_) (hi segment ?_) (hr segment h.getSegment_eq hf)
    · exact h.segments ▸ mem_append_left _ hs
    · exact h.segments ▸ mem_append_right _ mem_cons_self
  have ⟨older', hr, hbs, hm⟩ := h.rollSegment
  rw [if_pos hf, hr.getSegment_eq]
  have ⟨hw, hbs'⟩ := hr.write hb
  refine ⟨_, rfl, ⟨_, _, hw⟩, hbs ▸ hbs', rfl, fun hi _ => ?_⟩
  have hpos : 0 < UInt32.size := by decide
  refine hr.indexed hb (fun s hs => hi s (hm s hs)) ⟨nofun, .nil⟩ ⟨hpos, ?_⟩
  exact (Nat.sub_self _).trans_lt hpos

theorem Split.chained (h : p.Split older segment) : Chained 0 p.segments := by
  rw [h.segments]
  exact Chained.append_iff.mpr ⟨h.older.chained, h.older.offset, h.stores, trivial⟩

-- The segment with the largest base offset that is not above the offset is read.
theorem Sound.read (h : p.Sound) (hi : p.Indexed) (offset maxBytes) :
    ∃ found, p.read offset maxBytes = .ok found ∧
      found <+: p.batches.filter (offset ≤ ·.baseOffset) := by
  have ⟨older, segment, h⟩ := h
  have hne : p.segments.filter (·.baseOffset ≤ offset) ≠ [] := by
    have hc := h.chained
    cases hs : p.segments
    case nil => exact absurd (hs ▸ h.segments) (by simp)
    case cons s _ =>
      rw [hs] at hc
      have hz : s.baseOffset = 0 := hc.1
      simp [hz]
  have ⟨s, hs⟩ := Option.ne_none_iff_exists'.mp (getLast?_eq_none_iff.not.mpr hne)
  have ⟨hm, hle⟩ := mem_filter.mp (mem_of_getLast? hs)
  have ⟨l, r, heq⟩ := append_of_mem hm
  have ⟨hl, hso, hst, _⟩ : Chained 0 l ∧ Chained _ (s :: r) :=
    Chained.append_iff.mp (heq ▸ h.chained)
  have ⟨found, hread, hf⟩ := hst.read (hi s hm) (of_decide_eq_true hle) maxBytes
  refine ⟨found, ?_, ?_⟩
  · rw [Partition.read, hs]
    dsimp only [Option.map_some, Option.getD_some]
    rw [getSegment, h.sorted.get_of_mem hm]
    exact hread
  · have hnil : (l.flatMap (·.batches)).filter (offset ≤ ·.baseOffset) = [] := by
      refine filter_eq_nil_iff.mpr fun b hb => ?_
      have := hl.consecutive.baseOffset_lt hb
      simp only [decide_eq_true_eq] at hle ⊢
      omega
    rw [batches, heq, flatMap_append, flatMap_cons, filter_append, hnil, nil_append, filter_append]
    exact hf.trans (prefix_append _ _)

end Partition

end LogSystem
