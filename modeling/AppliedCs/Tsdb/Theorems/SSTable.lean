import AppliedCs.Tsdb.SSTable
import AppliedCs.Tsdb.Theorems.Compression
import AppliedCs.Tsdb.Theorems.Series

namespace Tsdb

open Codec SortedList SSTableBuilder SSTableReader SSTable List

-- The bytes of a buffer from an offset on.
structure At (buf : Bytes) (offset : ℕ) (ahead : Bytes) : Prop where
  small : buf.length < UInt64.size
  drop : buf.drop offset = ahead
  le : offset ≤ buf.length

section Cursor

variable {offset : ℕ}

theorem At.start (h : bs.length < UInt64.size) : At bs 0 bs :=
  ⟨h, rfl, Nat.zero_le _⟩

theorem At.length (h : At buf offset bs) : offset + bs.length = buf.length := by
  have hl := congrArg List.length h.drop
  have := h.le
  rw [List.length_drop] at hl
  omega

theorem At.advance (h : At buf offset (bs ++ rest)) : At buf (offset + bs.length) rest where
  small := h.small
  drop := by rw [← drop_drop, h.drop, drop_left]
  le := by have := h.length; rw [length_append] at this; omega

theorem At.readLEAt (h : At buf offset (encodeLE w n ++ rest)) (hn : n < 256 ^ w) (what : String) :
    readLEAt w buf offset what = .ok (n, offset + w) ∧ At buf (offset + w) rest := by
  have ha := h.advance
  rw [length_encodeLE] at ha
  have hlt := ha.le.trans_lt ha.small
  refine ⟨?_, ha⟩
  simp only [Tsdb.readLEAt, if_neg (Nat.not_le.mpr hlt), h.drop, decodeLE_inverts w n hn rest]

theorem At.varintAt (h : At buf offset (encodeVarint v ++ rest)) :
    ∃ o, varintAt buf offset = .ok (v, o) ∧ At buf o rest := by
  refine ⟨_, ?_, h.advance⟩
  simp only [Tsdb.varintAt, if_neg (Nat.not_lt.mpr h.le), h.drop,
    decodeVarint_encodeVarint, ok_bind]
  rfl

theorem At.bytesAt (h : At buf offset (encodeSized bs ++ rest)) (what : String) :
    ∃ o, bytesAt buf offset what = .ok (bs, o) ∧ At buf o rest := by
  rw [encodeSized, append_assoc] at h
  obtain ⟨o, hv, ho⟩ := h.varintAt
  have ha := ho.advance
  have hlt := ha.le.trans_lt ha.small
  refine ⟨_, ?_, ha⟩
  simp only [Tsdb.bytesAt, hv, ok_bind, takeBytesAt, ho.drop, take_left,
    UInt64.toNat_ofNat_of_lt' (show bs.length < _ by omega), if_neg (Nat.not_le.mpr hlt),
    if_neg (Nat.not_lt.mpr ha.le)]

theorem fromUTF8?_utf8 (s : String) : String.fromUTF8? ⟨(utf8 s).toArray⟩ = some s := by
  rw [utf8, String.fromUTF8?, dif_pos s.isValidUTF8]
  rfl

theorem At.stringAt (h : At buf offset (encodeSized (utf8 s) ++ rest)) (what : String) :
    ∃ o, stringAt buf offset what = .ok (s, o) ∧ At buf o rest := by
  obtain ⟨o, hb, ho⟩ := h.bytesAt what
  refine ⟨o, ?_, ho⟩
  simp only [Tsdb.stringAt, hb, ok_bind, fromUTF8?_utf8]
  rfl

theorem At.tagsAt {entries : List (String × String)}
    (h : At buf offset (entries.flatMap encodeTag ++ rest)) (tags : Tags) :
    ∃ o, tagsAt buf tags offset entries.length =
        .ok (entries.foldl (fun tags tag => tags.insert tag.1 tag.2) tags, o) ∧ At buf o rest := by
  induction entries generalizing tags offset
  case nil => exact ⟨offset, rfl, h⟩
  case cons tag tags' hi =>
    rw [flatMap_cons, append_assoc, encodeTag, append_assoc] at h
    obtain ⟨o₁, h₁, ha₁⟩ := h.stringAt "tag key"
    obtain ⟨o₂, h₂, ha₂⟩ := ha₁.stringAt "tag value"
    obtain ⟨o₃, h₃, ha₃⟩ := hi ha₂ (tags.insert tag.1 tag.2)
    refine ⟨o₃, ?_, ha₃⟩
    simp only [length_cons, Tsdb.tagsAt, h₁, h₂, ok_bind]
    exact h₃

theorem length_le_flatMap_encodeTag (entries : List (String × String)) :
    entries.length ≤ (entries.flatMap encodeTag).length := by
  induction entries
  case nil => exact Nat.zero_le _
  case cons tag tags hi =>
    have := length_encodeVarint_pos (UInt64.ofNat (utf8 tag.1).length)
    rw [flatMap_cons, length_append, length_cons, encodeTag, length_append,
      encodeSized, length_append]
    omega

end Cursor

def block (series : Series) : Bytes :=
  encodeLE 8 series.key.toNat ++ (encodeSized (utf8 series.metric.name) ++
    (encodeVarint (UInt64.ofNat series.metric.tags.entries.length) ++
      (series.metric.tags.entries.flatMap encodeTag ++ encodeSized (compressPoints series.points))))

section Block

variable [Hashing]

theorem readBlock_block (h : (block series).length < UInt64.size) : readBlock (block series) =
      (decompressPoints (compressPoints series.points)).map fun points =>
        { key := series.metric.seriesKey, metric := series.metric, points } := by
  have hn : series.metric.tags.entries.length < UInt64.size := by
    have := length_le_flatMap_encodeTag series.metric.tags.entries
    simp only [block, length_append] at h
    omega
  have h₀ : At (block series) 0 (block series) := .start h
  obtain ⟨h₁, ha₁⟩ := h₀.readLEAt series.key.toNat_lt "series key"
  obtain ⟨o₂, h₂, ha₂⟩ := ha₁.stringAt "metric name"
  obtain ⟨o₃, h₃, ha₃⟩ := ha₂.varintAt
  obtain ⟨o₄, h₄, ha₄⟩ := ha₃.tagsAt ∅
  rw [← append_nil (encodeSized _)] at ha₄
  obtain ⟨o₅, h₅, -⟩ := ha₄.bytesAt "compressed data"
  have hp : blockPoints (block series) = .ok (series.metric, compressPoints series.points) := by
    simp only [blockPoints, h₁, h₂, h₃, ok_bind, UInt64.toNat_ofNat_of_lt' hn, h₄, h₅,
      SortedMap.foldl_insert_entries]
    rfl
  rw [readBlock, hp, ok_bind]
  cases decompressPoints (compressPoints series.points) <;> rfl

end Block

namespace SSTableBuilder

variable {b : SSTableBuilder} {bytes : Bytes} {series : Series}

-- The builder when the bytes have been written: the offset that is kept by hand is their number.
def placed (b : SSTableBuilder) (bytes : Bytes) : SSTableBuilder :=
  { b with writer := bytes, offset := UInt64.ofNat bytes.length }

theorem placed_writeKey (key : SeriesKey) :
    (b.placed bytes).writeKey key = b.placed (bytes ++ encodeLE 8 key.toNat) := by
  simp only [placed, writeKey, length_append, length_encodeLE, UInt64.ofNat_add]
  rfl

theorem placed_writeCount (count : ℕ) : (b.placed bytes).writeCount count =
    b.placed (bytes ++ encodeVarint (UInt64.ofNat count)) := by
  simp only [placed, writeCount, length_append, UInt64.ofNat_add]

theorem placed_writeBytes (bs : Bytes) :
    (b.placed bytes).writeBytes bs = b.placed (bytes ++ encodeSized bs) := by
  simp only [placed, writeBytes, encodeSized, length_append, UInt64.ofNat_add, append_assoc]

theorem placed_writeTags (tags : Tags) : (b.placed bytes).writeTags tags =
    b.placed (bytes ++ encodeVarint (UInt64.ofNat tags.entries.length) ++
      tags.entries.flatMap encodeTag) := by
  have hw (l : List (String × String)) (bytes : Bytes) :
      l.foldl writeTag (b.placed bytes) = b.placed (bytes ++ l.flatMap encodeTag) := by
    induction l generalizing bytes
    case nil => rw [flatMap_nil, append_nil]; rfl
    case cons tag l hi =>
      rw [foldl_cons, writeTag, placed_writeBytes, placed_writeBytes, hi, flatMap_cons,
        encodeTag, append_assoc, append_assoc, append_assoc]
  rw [writeTags, placed_writeCount, hw]

-- The entry of a series whose block starts behind the bytes.
def entry (bytes : Bytes) (series : Series) : IndexEntry where
  seriesKey := series.key
  offset := UInt64.ofNat bytes.length
  length := (UInt64.ofNat (block series).length).toUInt32
  minTimestamp := series.firstTimestamp.getD 0
  maxTimestamp := series.lastTimestamp.getD 0

theorem placed_addSeries (hf : series.firstTimestamp = some first)
    (hl : series.lastTimestamp = some last) : (b.placed bytes).addSeries series =
      { b with
        minTimestamp := min b.minTimestamp first
        maxTimestamp := max b.maxTimestamp last
        pointCount := b.pointCount + series.points.length
        index := b.index ++ [entry bytes series] }.placed (bytes ++ block series) := by
  have hb : bytes ++ block series = bytes ++ encodeLE 8 series.key.toNat ++
      encodeSized (utf8 series.metric.name) ++
        encodeVarint (UInt64.ofNat series.metric.tags.entries.length) ++
          series.metric.tags.entries.flatMap encodeTag ++
            encodeSized (compressPoints series.points) := by
    simp only [block, append_assoc]
  simp only [addSeries, hf, hl, placed_writeKey, placed_writeBytes, placed_writeTags, ← hb]
  simp only [placed, entry, hf, hl, length_append, UInt64.ofNat_add, Option.getD_some]
  congr 5
  grind

def entries (bytes : Bytes) : List Series → List IndexEntry
  | [] => []
  | s :: ss => entry bytes s :: entries (bytes ++ block s) ss

-- By induction on the list, the builder being the one after the series before.
theorem foldl_addSeries {ss : List Series} (hp : ∀ s ∈ ss, s.points ≠ [])
    (hs : ∀ s ∈ ss, s.Ordered) : ∃ b' : SSTableBuilder,
      ss.foldl addSeries (b.placed bytes) = b'.placed (bytes ++ ss.flatMap block) ∧
      b'.index = b.index ++ entries bytes ss ∧
      (b'.minTimestamp ≤ b.minTimestamp ∧ b.maxTimestamp ≤ b'.maxTimestamp) ∧
      ∀ s ∈ ss, ∀ p ∈ s.points, b'.minTimestamp ≤ p.timestamp ∧ p.timestamp ≤ b'.maxTimestamp := by
  induction ss generalizing b bytes
  case nil => exact ⟨b, by simp, by simp [entries], ⟨le_rfl, le_rfl⟩, by simp⟩
  case cons s ss hi =>
    obtain ⟨p, hps⟩ := exists_mem_of_ne_nil _ (hp s mem_cons_self)
    have ho := hs s mem_cons_self
    obtain ⟨first, hf, -⟩ := ho.first_le hps
    obtain ⟨last, hl, -⟩ := ho.le_last hps
    rw [foldl_cons, placed_addSeries hf hl]
    obtain ⟨b', hb', hi', hm, hss⟩ := hi (fun s h => hp s (mem_cons_of_mem _ h))
      (fun s h => hs s (mem_cons_of_mem _ h))
    refine ⟨b', ?_, ?_, ?_, ?_⟩
    · rw [hb', flatMap_cons, append_assoc]
    · rw [hi', entries, append_assoc, singleton_append]
    · exact ⟨hm.1.trans (min_le_left _ _), (le_max_left _ _).trans hm.2⟩
    · intro s' hs' p' hp'
      cases hs'
      case head =>
        obtain ⟨first', hf', hle⟩ := ho.first_le hp'
        obtain ⟨last', hl', hge⟩ := ho.le_last hp'
        cases hf.symm.trans hf'
        cases hl.symm.trans hl'
        exact ⟨hm.1.trans <| (min_le_right _ _).trans hle,
          hge.trans <| (le_max_right _ _).trans hm.2⟩
      case tail hs' => exact hss s' hs' p' hp'

end SSTableBuilder

section Index

variable {offset : ℕ} {index : List IndexEntry}

theorem length_encodeEntry (entry : IndexEntry) : (encodeEntry entry).length = entrySize := by
  simp [encodeEntry, entrySize]

theorem At.entryAt {entry : IndexEntry} (h : At buf offset (encodeEntry entry ++ rest)) :
    ∃ o, SSTableReader.entryAt buf offset = .ok (entry, o) ∧ At buf o rest := by
  simp only [encodeEntry, append_assoc] at h
  obtain ⟨h₁, ha₁⟩ := h.readLEAt entry.seriesKey.toNat_lt "index series key"
  obtain ⟨h₂, ha₂⟩ := ha₁.readLEAt entry.offset.toNat_lt "index entry offset"
  obtain ⟨h₃, ha₃⟩ := ha₂.readLEAt entry.length.toNat_lt "index entry length"
  obtain ⟨h₄, ha₄⟩ := ha₃.readLEAt (UInt64.toNat_lt _) "index entry min timestamp"
  obtain ⟨h₅, ha₅⟩ := ha₄.readLEAt (UInt64.toNat_lt _) "index entry max timestamp"
  refine ⟨_, ?_, ha₅⟩
  simp only [SSTableReader.entryAt, h₁, h₂, h₃, h₄, h₅, ok_bind, UInt64.ofNat_toNat,
    UInt32.ofNat_toNat, Int64.toInt64_toUInt64]
  rfl

theorem At.entriesAt (h : At buf offset (index.flatMap encodeEntry ++ rest)) :
    entriesAt buf offset index.length = .ok index := by
  induction index generalizing offset
  case nil => rfl
  case cons entry index hi =>
    rw [flatMap_cons, append_assoc] at h
    obtain ⟨o, ho, ha⟩ := h.entryAt
    simp only [length_cons, entriesAt, ho, ok_bind, hi ha]
    rfl

def encodeIndex (index : List IndexEntry) : Bytes :=
  encodeVarint (UInt64.ofNat index.length) ++ index.flatMap encodeEntry

theorem readIndex_encodeIndex (h : (encodeIndex index).length < UInt64.size) :
    readIndex (encodeIndex index) = .ok index := by
  have hl : (index.flatMap encodeEntry).length =
      index.length * entrySize := by
    simp [length_flatMap, length_encodeEntry]
  have hn : index.length < UInt64.size := by
    rw [encodeIndex, length_append, hl] at h
    simp only [entrySize] at h
    omega
  have ha : At (encodeIndex index) _ (index.flatMap encodeEntry) := (At.start h).advance
  rw [Nat.zero_add, ← append_nil (flatMap _ _)] at ha
  simp only [readIndex, encodeIndex, decodeVarint_encodeVarint, ok_bind, length_append,
    uintSub_eq (Nat.le_add_right _ _), Nat.add_sub_cancel_left, hl, UInt64.toNat_ofNat_of_lt' hn]
  refine (if_neg ?_).trans ha.entriesAt
  rw [Nat.mul_div_cancel _ (by decide)]
  exact Nat.lt_irrefl _

end Index

theorem readLE_encodeLE {w n : ℕ} (h : n < 256 ^ w) (rest : Bytes) :
    readLE w (encodeLE w n ++ rest) = .ok (n, rest) := by
  rw [readLE, decodeLE_inverts w n h]

section File

variable [Hashing] {b : SSTableBuilder}

def footer (b : SSTableBuilder) (bytes : Bytes) : Bytes :=
  encodeLE 8 bytes.length ++ (encodeLE 8 (encodeIndex b.index).length ++
    (encodeLE 8 b.minTimestamp.toUInt64.toNat ++ (encodeLE 8 b.maxTimestamp.toUInt64.toNat ++
      (encodeLE 4 (Hashing.crc32 (bytes ++ encodeIndex b.index)).toNat ++
        (encodeLE 4 sstableVersion ++ encodeLE 4 sstableMagic)))))

theorem length_footer : (footer b bytes).length = footerSize := by
  simp [footer, footerSize]

theorem finish_placed (hi : b.index ≠ [])
    (hs : (bytes ++ encodeIndex b.index).length < UInt64.size) :
    ∃ m, (b.placed bytes).finish = .ok (bytes ++ encodeIndex b.index ++ footer b bytes, m) := by
  have hb : bytes.length < UInt64.size := by rw [length_append] at hs; omega
  have hx : (encodeIndex b.index).length < UInt64.size := by rw [length_append] at hs; omega
  have hlen : UInt64.ofNat (bytes ++ encodeIndex b.index).length - UInt64.ofNat bytes.length =
      UInt64.ofNat (encodeIndex b.index).length := by
    rw [length_append, UInt64.ofNat_add]
    grind
  have hf : bytes ++ encodeVarint (UInt64.ofNat b.index.length) ++
      b.index.flatMap encodeEntry = bytes ++ encodeIndex b.index := by
    rw [encodeIndex, append_assoc]
  simp only [finish, placed, List.isEmpty_iff, hi, if_false, hf, hlen,
    UInt64.toNat_ofNat_of_lt' hb, UInt64.toNat_ofNat_of_lt' hx, footer, append_assoc]
  exact ⟨_, rfl⟩

theorem open_file (hs : (bytes ++ encodeIndex b.index).length < UInt64.size) :
    ∃ r, SSTableReader.open (bytes ++ encodeIndex b.index ++ footer b bytes) = .ok r ∧
      r.index = b.index ∧ r.tableMeta.minTimestamp = b.minTimestamp ∧
        r.tableMeta.maxTimestamp = b.maxTimestamp := by
  rw [length_append] at hs
  have hb : bytes.length < 256 ^ 8 := lt_of_lt_of_eq (show _ < UInt64.size by omega) rfl
  have hx : (encodeIndex b.index).length < 256 ^ 8 :=
    lt_of_lt_of_eq (show _ < UInt64.size by omega) rfl
  have hsize : (bytes ++ encodeIndex b.index ++ footer b bytes).length - footerSize =
      (bytes ++ encodeIndex b.index).length := by
    rw [length_append, length_footer, Nat.add_sub_cancel]
  have hge : ¬ (bytes ++ encodeIndex b.index ++ footer b bytes).length < footerSize := by
    rw [length_append, length_footer]
    omega
  have hi : ((bytes ++ encodeIndex b.index ++ footer b bytes).drop bytes.length).take
      (encodeIndex b.index).length = encodeIndex b.index := by
    rw [append_assoc, drop_left, take_left]
  have hbody : bytes.length ≤ (bytes ++ encodeIndex b.index).length := by
    rw [length_append]
    omega
  have hleft : ¬ (encodeIndex b.index).length >
      (bytes ++ encodeIndex b.index).length - bytes.length := by
    rw [length_append]
    omega
  have hr := @readIndex_encodeIndex b.index (show _ < UInt64.size by omega)
  simp only [SSTableReader.open, if_neg hge, hsize, drop_left]
  have h₁ : readLE 8 (footer b bytes) = .ok (_, _) := readLE_encodeLE hb _
  have h₂ := readLE_encodeLE hx
  have h₃ := readLE_encodeLE (w := 8) (UInt64.toNat_lt b.minTimestamp.toUInt64)
  have h₄ := readLE_encodeLE (w := 8) (UInt64.toNat_lt b.maxTimestamp.toUInt64)
  have h₅ := readLE_encodeLE (w := 4)
    (UInt32.toNat_lt (Hashing.crc32 (bytes ++ encodeIndex b.index)))
  have h₆ := readLE_encodeLE (show sstableVersion < 256 ^ 4 by decide)
  have h₇ : readLE 4 (encodeLE 4 sstableMagic) = .ok (sstableMagic, []) :=
    readLE_encodeLE (show sstableMagic < 256 ^ 4 by decide) []
  simp only [h₁, h₂, h₃, h₄, h₅, h₆, h₇, ok_bind, ne_eq, not_true, if_false,
    uintSub_eq (not_lt.mp hge),
    hsize, if_neg (not_lt.mpr hbody), uintSub_eq hbody, pure_bind, hleft, decide_false, hi, hr,
    UInt64.ofNat_toNat, Int64.toInt64_toUInt64]
  exact ⟨_, rfl, rfl, rfl, rfl⟩

theorem length_finish (hi : b.index ≠ []) : ∃ file m, (b.placed bytes).finish = .ok (file, m) ∧
    file.length = (bytes ++ encodeIndex b.index).length + footerSize := by
  simp only [finish, placed, List.isEmpty_iff, hi, if_false]
  simp [encodeIndex, footerSize]
  omega

end File

namespace SSTable

variable {series : List Series} {s : Series}

theorem find_entries (hk : (series.map (·.key)).Nodup) (hs : s ∈ series) :
    ∃ pre post, series = pre ++ s :: post ∧
      (entries bytes series).find? (·.seriesKey = s.key) =
        some (entry (bytes ++ pre.flatMap block) s) := by
  induction series generalizing bytes
  case nil => cases hs
  case cons s' series hi =>
    rw [map_cons, nodup_cons] at hk
    rw [entries, find?_cons]
    cases hs
    case head => exact ⟨[], series, rfl, by simp [entry]⟩
    case tail hs =>
      have hne : s'.key ≠ s.key := fun he => hk.1 (he ▸ mem_map_of_mem hs)
      obtain ⟨pre, post, rfl, hf⟩ := @hi (bytes ++ block s') hk.2 hs
      refine ⟨s' :: pre, post, rfl, ?_⟩
      simp only [entry, hne, decide_false]
      rw [flatMap_cons, ← append_assoc]
      exact hf

theorem map_seriesKey_entries (bytes : Bytes) (series : List Series) :
    (entries bytes series).map (·.seriesKey) = series.map (·.key) := by
  induction series generalizing bytes
  case nil => rfl
  case cons s series hi => rw [entries, map_cons, hi]; rfl

theorem writer_addSeries (hs : s.points ≠ []) (ho : s.Ordered) :
    (addSeries {} s).writer = block s := by
  obtain ⟨p, hp⟩ := exists_mem_of_ne_nil _ hs
  obtain ⟨first, hf, -⟩ := ho.first_le hp
  obtain ⟨last, hl, -⟩ := ho.le_last hp
  exact congrArg writer <| @placed_addSeries {} [] s first last hf hl

variable [Hashing]

-- What the SSTable is made from.
structure Writable (series : List Series) : Prop where
  ne_nil : series ≠ []
  points : ∀ s ∈ series, s.points ≠ []
  ordered : ∀ s ∈ series, s.Ordered
  keys : (series.map (·.key)).Nodup
  blocks : ∀ s ∈ series, (addSeries {} s).writer.length < UInt32.size
  file : ∀ file m, create series = .ok (file, m) → file.length < UInt64.size

structure Opened (series : List Series) (file : Bytes) (r : SSTableReader) : Prop where
  index : r.index = entries [] series
  bytes : ∃ rest, file = series.flatMap block ++ rest
  size : file.length < UInt64.size
  bounds : ∀ s ∈ series, ∀ p ∈ s.points,
    r.tableMeta.minTimestamp ≤ p.timestamp ∧ p.timestamp ≤ r.tableMeta.maxTimestamp

theorem Writable.opened (h : Writable series) :
    ∃ file m r, create series = .ok (file, m) ∧ SSTableReader.open file = .ok r ∧
      Opened series file r := by
  obtain ⟨b, hb, hi, -, hm⟩ := @foldl_addSeries {} [] series h.points h.ordered
  have hcreate : create series = (b.placed (series.flatMap block)).finish :=
    congrArg finish hb
  have hne : b.index ≠ [] := by
    have hl := congrArg length <| congrArg (map (·.seriesKey)) hi
    rw [nil_append, map_seriesKey_entries, length_map, length_map] at hl
    exact ne_nil_of_length_pos <| hl ▸ length_pos_iff.mpr h.ne_nil
  have hs : (series.flatMap block ++ encodeIndex b.index).length < UInt64.size := by
    obtain ⟨file, m, hf, hl⟩ := @length_finish _ b (series.flatMap block) hne
    have := h.file file m (hcreate.trans hf)
    omega
  obtain ⟨m, hf⟩ := finish_placed hne hs
  obtain ⟨r, hr, hri, hrmin, hrmax⟩ := open_file hs
  refine ⟨_, m, r, hcreate.trans hf, hr, ?_⟩
  exact {
    index := hri.trans hi
    bytes := ⟨_, append_assoc _ _ _⟩
    size := h.file _ m (hcreate.trans hf)
    bounds := by rw [hrmin, hrmax]; exact hm }

section Read

variable {file : Bytes} {r : SSTableReader}

theorem Writable.block_lt (h : Writable series) (hs : s ∈ series) :
    (block s).length < UInt32.size :=
  writer_addSeries (h.points s hs) (h.ordered s hs) ▸ h.blocks s hs

variable (o : Opened series file r) (h : Writable series) (hs : s ∈ series)

include o h hs

theorem Opened.find : ∃ entry, r.index.find? (·.seriesKey = s.key) = some entry ∧
      s.firstTimestamp = some entry.minTimestamp ∧ s.lastTimestamp = some entry.maxTimestamp ∧
      (file.drop entry.offset.toNat).take (block s).length = block s ∧
      entry.length.toNat = (block s).length := by
  obtain ⟨pre, post, hser, hf⟩ := @find_entries series s [] h.keys hs
  obtain ⟨rest, hfile⟩ := o.bytes
  rw [hser, flatMap_append, flatMap_cons, append_assoc, append_assoc] at hfile
  have hoff : (UInt64.ofNat ([] ++ pre.flatMap block).length).toNat =
      (pre.flatMap block).length := by
    refine UInt64.toNat_ofNat_of_lt' <| lt_of_le_of_lt ?_ o.size
    rw [hfile, nil_append, length_append]
    exact Nat.le_add_right _ _
  obtain ⟨p, hp⟩ := exists_mem_of_ne_nil _ (h.points s hs)
  obtain ⟨first, hfirst, -⟩ := (h.ordered s hs).first_le hp
  obtain ⟨last, hlast, -⟩ := (h.ordered s hs).le_last hp
  refine ⟨_, o.index ▸ hf, ?_, ?_, ?_, ?_⟩
  · simp [entry, hfirst]
  · simp [entry, hlast]
  · rw [entry, hoff, hfile, drop_left, take_left]
  · have := h.block_lt hs
    rw [entry, UInt64.toNat_toUInt32, UInt64.toNat_ofNat_of_lt' (this.trans (by decide))]
    exact Nat.mod_eq_of_lt this

theorem Opened.readSeries :
    r.readSeries file s.key = (decompressPoints (compressPoints s.points)).map fun points =>
      some { key := s.metric.seriesKey, metric := s.metric, points } := by
  obtain ⟨entry, hf, -, -, hd, hl⟩ := o.find h hs
  have hb := (h.block_lt hs).trans (show _ < UInt64.size by decide)
  rw [SSTableReader.readSeries, hf]
  simp only [entryData, hl, hd, Nat.lt_irrefl, if_false, ok_bind, readBlock_block hb]
  cases decompressPoints (compressPoints s.points) <;> rfl

-- The times in the index rule out only ranges without points.
theorem Opened.queryRange (hl : Lossless s.points)
    (hi : start ≤ stop ∨ ∀ p ∈ s.points, stop < p.timestamp → ¬ p.timestamp < start) :
    r.queryRange file s.key start stop =
      .ok (s.points.filter fun p => start ≤ p.timestamp ∧ p.timestamp ≤ stop) := by
  obtain ⟨entry, hf, hfirst, hlast, -, -⟩ := o.find h hs
  have ho := h.ordered s hs
  have hr := o.readSeries h hs
  rw [show decompressPoints (compressPoints s.points) = _ from hl] at hr
  rw [SSTableReader.queryRange, hf]
  simp only [hr]
  split
  case isTrue hout =>
    refine congrArg Except.ok (filter_eq_nil_iff.mpr fun p hp => ?_).symm
    obtain ⟨first', hfirst', hle⟩ := ho.first_le hp
    obtain ⟨last', hlast', hge⟩ := ho.le_last hp
    cases hfirst.symm.trans hfirst'
    cases hlast.symm.trans hlast'
    grind
  case isFalse => exact Series.Ordered.range_eq (s := { s with key := s.metric.seriesKey }) ho hi

end Read

end SSTable

theorem sstable_round_trip [Hashing] {series : List Series} (hne : series ≠ [])
    (hp : ∀ s ∈ series, s.points ≠ []) (ht : ∀ s ∈ series, Sorted DataPoint.timestamp s.points)
    (hk : (series.map (·.key)).Nodup)
    (hb : ∀ s ∈ series, (addSeries {} s).writer.length < UInt32.size)
    (hf : ∀ file m, create series = .ok (file, m) → file.length < UInt64.size) :
    ∃ file m r, create series = .ok (file, m) ∧ SSTableReader.open file = .ok r ∧
      r.seriesKeys = series.map (·.key) ∧
      ∀ s ∈ series,
        r.readSeries file s.key = (decompressPoints (compressPoints s.points)).map (fun points =>
          some { key := s.metric.seriesKey, metric := s.metric, points }) ∧
        (Lossless s.points → ∀ a b, a ≤ b → r.queryRange file s.key a b =
          .ok (s.points.filter fun p => a ≤ p.timestamp ∧ p.timestamp ≤ b)) := by
  have h : Writable series := ⟨hne, hp, ht, hk, hb, hf⟩
  obtain ⟨file, m, r, hc, hr, o⟩ := h.opened
  refine ⟨file, m, r, hc, hr, ?_, fun s hs => ⟨o.readSeries h hs, fun hl a b hab => ?_⟩⟩
  · rw [SSTableReader.seriesKeys, o.index, map_seriesKey_entries]
  · exact o.queryRange h hs hl (.inl hab)

section Sample

local instance : Hashing := .sample

-- The values 1.0, 2.0 and 3.0.
def cpu : Series :=
  { Series.new ⟨"cpu", (∅ : Tags).insert "host" "a"⟩ with
    points := [⟨-60, 0x3FF0000000000000⟩, ⟨0, 0x4000000000000000⟩, ⟨60, 0x4008000000000000⟩] }

def mem : Series :=
  { Series.new ⟨"mem", ∅⟩ with points := [⟨30, 1⟩] }

theorem sstable_round_trip_two : ∃ file m r, create [cpu, mem] = .ok (file, m) ∧
    SSTableReader.open file = .ok r ∧ r.seriesKeys = [cpu.key, mem.key] ∧
      r.queryRange file cpu.key 0 60 = .ok [⟨0, 0x4000000000000000⟩, ⟨60, 0x4008000000000000⟩] := by
  have hf : (create [cpu, mem]).toOption.all (·.1.length < UInt64.size) := by decide +kernel
  obtain ⟨file, m, r, hc, hr, hk, h⟩ := @sstable_round_trip _ [cpu, mem] (by decide) (by decide)
    (by decide) (by decide +kernel) (by decide +kernel) fun file m hc => by
      simpa [hc, Except.toOption] using hf
  have hl : Lossless cpu.points := by rw [lossless_iff] <;> decide +kernel
  exact ⟨file, m, r, hc, hr, hk, (h cpu mem_cons_self).2 hl 0 60 (by decide)⟩

-- There is no SSTable without series.
theorem sstable_empty_refused :
    create [] = .error (.error (.storageError "Cannot create empty SSTable")) :=
  rfl

end Sample

end Tsdb
