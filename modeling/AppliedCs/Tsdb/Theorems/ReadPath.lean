import AppliedCs.Tsdb.ReadPath
import AppliedCs.Tsdb.Theorems.Compression

namespace Tsdb

open Codec CompressionType BitReader SSTableReader List

-- The call returns a result or an error.
def NoPanic {α : Type} (x : Result α) : Prop :=
  x ≠ .error .panic

section NoPanic

variable {α β : Type} {x : Result α} {f : α → Result β}

@[simp]
theorem noPanic_ok : NoPanic (.ok a : Result α) :=
  fun h => by cases h

@[simp]
theorem noPanic_pure : NoPanic (pure a : Result α) :=
  noPanic_ok

@[simp]
theorem noPanic_error : NoPanic (.error (.error e) : Result α) :=
  fun h => Failure.noConfusion (Except.error.inj h)

@[simp]
theorem not_noPanic_panic : ¬ NoPanic (.error .panic : Result α) :=
  fun h => h rfl

instance : Decidable (NoPanic x) :=
  match x with
  | .ok _ => .isTrue noPanic_ok
  | .error (.error _) => .isTrue noPanic_error
  | .error .panic => .isFalse not_noPanic_panic

theorem exists_ok_of_any [DecidablePred P] (h : x.toOption.any fun a => P a) :
    ∃ a, x = .ok a ∧ P a := by
  cases x
  case error e => cases h
  case ok a => exact ⟨a, rfl, of_decide_eq_true h⟩

theorem noPanic_bind_iff : NoPanic (x >>= f) ↔ NoPanic x ∧ ∀ a, x = .ok a → NoPanic (f a) := by
  cases x
  case ok a => simp
  case error e => simp [NoPanic]

theorem NoPanic.bind (hx : NoPanic x) (hf : ∀ a, x = .ok a → NoPanic (f a)) : NoPanic (x >>= f) :=
  noPanic_bind_iff.mpr ⟨hx, hf⟩

theorem bind_congr_ok {g : α → Result β} (h : ∀ a, x = .ok a → f a = g a) : x >>= f = x >>= g := by
  cases x
  case error e => rfl
  case ok a => exact h a rfl

-- If the first call does not panic, only the second one can.
theorem NoPanic.bind_iff (hx : NoPanic x) : NoPanic (x >>= f) ↔ ∀ a, x = .ok a → NoPanic (f a) :=
  noPanic_bind_iff.trans (and_iff_right hx)

-- The call does not panic, and every result it returns has the property.
def Yields (x : Result α) (P : α → Prop) : Prop :=
  NoPanic x ∧ ∀ a, x = .ok a → P a

theorem Yields.pure (h : P a) : Yields (Pure.pure a) P :=
  ⟨noPanic_pure, fun _ ha => by cases ha; exact h⟩

theorem Yields.error : Yields (.error (.error e)) P :=
  ⟨noPanic_error, fun _ h => by cases h⟩

theorem Yields.mono (h : Yields x P) (hP : ∀ a, P a → Q a) : Yields x Q :=
  ⟨h.1, fun a ha => hP a (h.2 a ha)⟩

theorem NoPanic.yields (hx : NoPanic x) (hf : ∀ a, x = .ok a → Yields (f a) P) :
    Yields (x >>= f) P := by
  refine ⟨hx.bind fun a ha => (hf a ha).1, fun b hb => ?_⟩
  cases x
  case error e => cases hb
  case ok a => exact (hf a rfl).2 b hb

end NoPanic

section Varint

variable {data : Bytes}

theorem decodeVarintFrom_yields :
    Yields (decodeVarintFrom result shift i data) fun p => p.2 ≤ i + data.length := by
  induction data generalizing result shift i
  case nil => exact .error
  case cons byte data hi =>
    rw [decodeVarintFrom, length_cons]
    split
    case isTrue => exact .error
    split
    case isTrue => exact .pure <| Nat.add_le_add_left (Nat.succ_pos _) i
    case isFalse => exact hi.mono fun _ h => by omega

theorem decodeVarint_noPanic : NoPanic (decodeVarint data) :=
  decodeVarintFrom_yields.1

theorem le_length_of_decodeVarint (h : decodeVarint data = .ok p) : p.2 ≤ data.length := by
  simpa using decodeVarintFrom_yields.2 p h

theorem decodeSignedVarint_noPanic : NoPanic (decodeSignedVarint data) :=
  decodeVarint_noPanic.bind fun _ _ => noPanic_pure

end Varint

section Bits

theorem BitReader.readBit_noPanic {r : BitReader} : NoPanic r.readBit := by
  rw [readBit]
  split
  · exact noPanic_error
  · dsimp only; split <;> exact noPanic_ok

theorem BitReader.readBits_noPanic {r : BitReader} : NoPanic (r.readBits n) := by
  have h (result : BitVec 64) : NoPanic (readBitsFrom result r n) := by
    induction n generalizing result r
    case zero => exact noPanic_ok
    case succ n hi => exact readBit_noPanic.bind fun _ _ => hi _
  exact h 0

end Bits

namespace Checked

section Basic

variable {α : Type} {data : List α}

theorem slice_noPanic : NoPanic (slice data start stop) ↔ start ≤ stop ∧ stop ≤ data.length := by
  rw [slice]
  split
  case isTrue h | isFalse h => simp [h]

theorem withCapacity_noPanic : NoPanic (withCapacity a b) ↔ a * b ≤ maxBytes := by
  rw [withCapacity]
  split
  case isTrue h | isFalse h => simp [h]

end Basic

section Timestamps

variable {d : DeltaDecoder} {data : Bytes} {count : ℕ}

theorem decode_noPanic (h : offset ≤ data.length) : NoPanic (d.decode data offset) := by
  rw [DeltaDecoder.decode, sliceFrom_eq h, ok_bind]
  refine decodeSignedVarint_noPanic.bind fun raw _ => ?_
  split <;> exact noPanic_pure

theorem decodeDeltas_noPanic : NoPanic (d.decodeFrom data offset count) := by
  induction count generalizing d offset
  case zero => exact noPanic_ok
  case succ count hi =>
    rw [DeltaDecoder.decodeFrom]
    split
    case isTrue => exact noPanic_error
    case isFalse h =>
      exact (decode_noPanic <| Nat.le_of_not_le h).bind fun p _ => hi.bind fun _ _ => noPanic_pure

-- The number of timestamps can be allocated.
def TimestampsSafe (data : Bytes) : Prop :=
  ∀ count bytesRead, data ≠ [] → decodeVarint data = .ok (count, bytesRead) →
    count.toNat * 8 ≤ maxBytes

theorem decompressTimestamps_noPanic :
    NoPanic (decompressTimestamps data) ↔ TimestampsSafe data := by
  rw [decompressTimestamps, TimestampsSafe]
  cases data
  case nil => simp
  case cons byte data =>
    rw [if_neg (by simp), decodeVarint_noPanic.bind_iff]
    refine ⟨fun h count bytesRead _ hd => ?_, fun h p hd => ?_⟩
    · have := h _ hd
      rw [sliceFrom_eq (le_length_of_decodeVarint hd), ok_bind, noPanic_bind_iff] at this
      exact withCapacity_noPanic.mp this.1
    · rw [sliceFrom_eq (le_length_of_decodeVarint hd), ok_bind, noPanic_bind_iff]
      refine ⟨withCapacity_noPanic.mpr ?_, fun _ _ => decodeDeltas_noPanic⟩
      exact h p.1 p.2 (cons_ne_nil _ _) hd

end Timestamps

section Values

-- A length of zero stands for all bits.
def meaningfulBits (length : BitVec 64) : ℕ :=
  if length.toNat = 0 then 64 else length.toNat

-- A new window stands next that does not fit into 64 bits.
def OverlongWindow (r : BitReader) : Prop :=
  ∃ r' leading length, r.readBit = .ok (true, r') ∧ r'.readBits 5 = .ok leading ∧
    leading.2.readBits 6 = .ok length ∧ 64 < leading.1.toNat + meaningfulBits length.1

def Overlong (d : GorillaDecoder) (r : BitReader) : Prop :=
  d.count ≠ 0 ∧ ∃ r', r.readBit = .ok (true, r') ∧ OverlongWindow r'

-- None of the next values has a window that does not fit.
def WindowsSafe (d : GorillaDecoder) (r : BitReader) : ℕ → Prop
  | 0 => True
  | n + 1 => ¬ Overlong d r ∧ ∀ p, d.decode r = .ok p → WindowsSafe p.2.1 p.2.2 n

def Fits (d : GorillaDecoder) : Prop :=
  d.prevLeading + d.prevTrailing ≤ 64

variable {d : GorillaDecoder}

theorem decodeXor_overlong (h : OverlongWindow r) : d.decodeXor r = .error .panic := by
  obtain ⟨r', leading, length, h₁, h₂, h₃, hlt⟩ := h
  rw [GorillaDecoder.decodeXor, h₁, ok_bind]
  dsimp only
  rw [if_neg (by decide), h₂, ok_bind, h₃, ok_bind]
  by_cases hl : leading.1.toNat ≤ 64
  case neg => rw [uintSub, if_neg hl]; rfl
  case pos =>
    rw [meaningfulBits] at hlt
    rw [uintSub_eq hl, ok_bind, uintSub, if_neg (by omega)]
    rfl

theorem decodeXor_yields (hd : Fits d) (h : ¬ OverlongWindow r) :
    Yields (d.decodeXor r) fun p => Fits p.2.1 := by
  refine readBit_noPanic.yields fun newWindow h₁ => ?_
  split
  case isTrue =>
    rw [uintSub_uintSub hd]
    exact readBits_noPanic.yields fun value _ => .pure hd
  case isFalse hn =>
    refine readBits_noPanic.yields fun leading h₂ => ?_
    refine readBits_noPanic.yields fun length h₃ => ?_
    have hle : leading.1.toNat + meaningfulBits length.1 ≤ 64 := by
      refine Nat.not_lt.mp fun hlt => h ⟨newWindow.2, leading, length, ?_, h₂, h₃, hlt⟩
      rw [h₁, ← Bool.of_not_eq_false hn]
    rw [meaningfulBits] at hle
    dsimp only
    rw [uintSub_uintSub hle]
    refine readBits_noPanic.yields fun value _ => .pure ?_
    dsimp only [Fits]
    omega

theorem decode_overlong (h : Overlong d r) : d.decode r = .error .panic := by
  obtain ⟨hc, r', hr, hw⟩ := h
  rw [GorillaDecoder.decode, if_neg hc, hr]
  simp only [ok_bind, Bool.true_eq_false, if_false, decodeXor_overlong hw]
  rfl

theorem decode_yields (hd : Fits d) (h : ¬ Overlong d r) :
    Yields (d.decode r) fun p => Fits p.2.1 := by
  rw [GorillaDecoder.decode]
  split
  case isTrue => exact readBits_noPanic.yields fun bits _ => .pure hd
  case isFalse hc =>
    refine readBit_noPanic.yields fun changed hr => ?_
    split
    case isTrue => exact .pure hd
    case isFalse hn =>
      have hx := decodeXor_yields hd fun hw => h ⟨hc, changed.2, ?_, hw⟩
      · exact hx.1.yields fun xor he => .pure (hx.2 xor he)
      · rw [hr, ← Bool.of_not_eq_false hn]

-- Decoding panics exactly at a window that does not fit.
theorem decodeFrom_noPanic (hd : Fits d) : NoPanic (d.decodeFrom r n) ↔ WindowsSafe d r n := by
  induction n generalizing d r
  case zero => exact iff_of_true noPanic_ok trivial
  case succ n hi =>
    rw [GorillaDecoder.decodeFrom, WindowsSafe]
    by_cases h : Overlong d r
    case pos =>
      rw [decode_overlong h]
      exact iff_of_false not_noPanic_panic fun hs => hs.1 h
    obtain ⟨hp, hf⟩ := decode_yields hd h
    rw [hp.bind_iff, and_iff_right h]
    refine forall₂_congr fun p hdec => ?_
    rw [noPanic_bind_iff, hi (hf p hdec)]
    exact and_iff_left fun _ _ => noPanic_pure

end Values

section Points

variable {data : Bytes} {count : ℕ}

theorem decompressValues_noPanic : NoPanic (decompressValues data count) ↔
      count * 8 ≤ maxBytes ∧ WindowsSafe {} { data } count := by
  have hf : Fits {} := Nat.zero_le _
  rw [decompressValues, noPanic_bind_iff, withCapacity_noPanic]
  refine and_congr_right fun hc => ?_
  rw [withCapacity, if_pos hc, ← decodeFrom_noPanic hf]
  exact ⟨fun h => h () rfl, fun h _ _ => h⟩

-- The timestamps lie inside the data, all numbers of values can be allocated, and all windows fit.
-- The values are only looked at if the timestamps can be read.
def BodySafe (count len : ℕ) (data : Bytes) : Prop :=
  len ≤ data.length ∧ TimestampsSafe (data.take len) ∧
    ∀ ts, decompressTimestamps (data.take len) = .ok ts →
      count * 8 ≤ maxBytes ∧ WindowsSafe {} { data := data.drop len } count

def PointsSafe (data : Bytes) : Prop :=
  ∀ rest count n tsLen n', data = deltaGorilla.toByte :: rest →
    decodeVarint rest = .ok (count, n) → decodeVarint (rest.drop n) = .ok (tsLen, n') →
    BodySafe count.toNat tsLen.toNat (rest.drop (n + n'))

theorem tryFrom_noPanic : NoPanic (tryFrom byte) := by
  rw [tryFrom]
  split <;> first | exact noPanic_ok | exact noPanic_error

theorem tryFrom_eq_deltaGorilla (h : tryFrom byte = .ok .deltaGorilla) :
    byte = deltaGorilla.toByte := by
  rw [tryFrom] at h
  split at h <;> cases h
  exact UInt8.toNat_inj.mp ‹_›

theorem slice_cons_eq {rest : Bytes} (h : len ≤ (rest.drop n).length) (hn : n ≤ rest.length) :
    slice (byte :: rest) (1 + n) (1 + n + len) = .ok ((rest.drop n).take len) := by
  rw [length_drop] at h
  rw [slice, if_pos ⟨Nat.le_add_right _ _, by rw [length_cons]; omega⟩, Nat.add_assoc 1,
    Nat.add_comm 1, Nat.add_comm 1, take_succ_cons, drop_succ_cons, drop_take,
    Nat.add_sub_cancel_left]

theorem sliceFrom_cons_eq {rest : Bytes} (hn : n ≤ rest.length) :
    sliceFrom (byte :: rest) (1 + n) = .ok (rest.drop n) := by
  rw [sliceFrom_eq (by rw [length_cons]; omega), Nat.add_comm, drop_succ_cons]

-- From the compressed timestamps on.
def decompressBody (count len : ℕ) (data : Bytes) : Result (List DataPoint) :=
  if data.length < len then .error .panic
  else do
    let timestamps ← decompressTimestamps (data.take len)
    let values ← decompressValues (data.drop len) count
    return (timestamps.zip values).map fun (timestamp, value) => { timestamp, value }

theorem decompressBody_noPanic :
    NoPanic (decompressBody count len data) ↔ BodySafe count len data := by
  rw [decompressBody, BodySafe]
  split
  case isTrue h => exact iff_of_false not_noPanic_panic fun hs => absurd h (Nat.not_lt.mpr hs.1)
  case isFalse h =>
    simp only [noPanic_bind_iff, decompressTimestamps_noPanic, decompressValues_noPanic,
      noPanic_pure, implies_true, and_true, Nat.not_lt.mp h, true_and]

-- Only the slice of the timestamps can reach beyond the data.
theorem decompressPoints_cons {rest : Bytes} : decompressPoints (byte :: rest) = (do
    let compressionType ← tryFrom byte
    if compressionType ≠ .deltaGorilla then
      let name := compressionType.debug
      .error (.error (.invalidFormat s!"Unsupported compression type: {name}"))
    else
      let count ← decodeVarint rest
      let tsLen ← decodeVarint (rest.drop count.2)
      decompressBody count.1.toNat tsLen.1.toNat (rest.drop (count.2 + tsLen.2))) := by
  have h₀ : sliceFrom (byte :: rest) 1 = .ok rest := sliceFrom_cons_eq (Nat.zero_le _)
  refine bind_congr_ok fun compressionType _ => ?_
  split
  case isTrue => rfl
  rw [h₀, ok_bind]
  refine bind_congr_ok fun p hp => ?_
  dsimp only
  rw [sliceFrom_cons_eq (le_length_of_decodeVarint hp), ok_bind]
  refine bind_congr_ok fun q hq => ?_
  have hp := le_length_of_decodeVarint hp
  have hq := le_length_of_decodeVarint hq
  rw [length_drop] at hq
  rw [decompressBody, Nat.add_assoc 1, length_drop]
  split
  case isTrue h =>
    rw [slice, if_neg (by rw [length_cons]; omega)]
    rfl
  case isFalse h =>
    rw [slice_cons_eq (by rw [length_drop]; omega) (by omega), ok_bind, Nat.add_assoc 1,
      sliceFrom_cons_eq (by omega), drop_drop]
    rfl

theorem decompressPoints_noPanic : NoPanic (decompressPoints data) ↔ PointsSafe data := by
  cases data
  case nil => exact iff_of_true noPanic_ok fun _ _ _ _ _ h => by cases h
  case cons byte rest =>
    by_cases hb : tryFrom byte = .ok .deltaGorilla
    case pos =>
      cases tryFrom_eq_deltaGorilla hb
      rw [decompressPoints_cons, hb, ok_bind, if_neg (not_not_intro rfl)]
      simp only [decodeVarint_noPanic.bind_iff, decompressBody_noPanic, Prod.forall]
      refine ⟨fun h rest' count n tsLen n' he h₁ h₂ => ?_, fun h _ _ h₁ _ _ h₂ => ?_⟩
      · cases he; exact h _ _ h₁ _ _ h₂
      · exact h rest _ _ _ _ rfl h₁ h₂
    -- Other types are refused.
    refine iff_of_true ?_ fun rest' _ _ _ _ he => ?_
    · refine tryFrom_noPanic.bind fun compressionType h => ?_
      have hc : compressionType ≠ .deltaGorilla := by
        rintro rfl
        exact hb h
      rw [if_pos hc]
      exact noPanic_error
    · cases he; exact absurd rfl hb

end Points

section Block

variable {data : Bytes} {count : ℕ}

theorem readLE_noPanic : NoPanic (readLE w buf) := by
  rw [readLE]
  split
  · exact noPanic_error
  · exact noPanic_ok

theorem readLEAt_noPanic : NoPanic (readLEAt w buf offset what) := by
  rw [readLEAt]
  split
  case isTrue => exact noPanic_error
  case isFalse => split <;> first | exact noPanic_error | exact noPanic_ok

theorem takeBytesAt_noPanic : NoPanic (takeBytesAt buf offset len what) := by
  rw [takeBytesAt]
  split
  case isTrue => exact noPanic_error
  case isFalse => split <;> first | exact noPanic_error | exact noPanic_ok

theorem varintAt_noPanic : NoPanic (varintAt buf offset) := by
  rw [varintAt]
  split
  case isTrue => exact noPanic_error
  case isFalse => exact decodeVarint_noPanic.bind fun _ _ => noPanic_pure

theorem bytesAt_noPanic : NoPanic (bytesAt buf offset what) :=
  varintAt_noPanic.bind fun _ _ => takeBytesAt_noPanic

theorem stringAt_noPanic : NoPanic (stringAt buf offset what) := by
  refine bytesAt_noPanic.bind fun p _ => ?_
  split
  · exact noPanic_error
  · exact noPanic_pure

theorem tagsAt_noPanic : NoPanic (tagsAt buf tags offset count) := by
  induction count generalizing tags offset
  case zero => exact noPanic_ok
  case succ count hi =>
    exact stringAt_noPanic.bind fun _ _ => stringAt_noPanic.bind fun _ _ => hi

theorem blockPoints_noPanic : NoPanic (blockPoints data) := by
  refine readLEAt_noPanic.bind fun key _ => stringAt_noPanic.bind fun name _ => ?_
  refine varintAt_noPanic.bind fun tagsCount _ => tagsAt_noPanic.bind fun tags _ => ?_
  exact bytesAt_noPanic.bind fun _ _ => noPanic_pure

theorem readBlock_noPanic [Hashing] :
    NoPanic (readBlock data) ↔ ∀ block, blockPoints data = .ok block → PointsSafe block.2 := by
  rw [readBlock, blockPoints_noPanic.bind_iff]
  refine forall₂_congr fun block _ => ?_
  rw [noPanic_bind_iff, decompressPoints_noPanic]
  exact and_iff_left fun _ _ => noPanic_pure

end Block

section Open

variable {count : ℕ}

theorem entryAt_noPanic : NoPanic (entryAt buf offset) := by
  refine readLEAt_noPanic.bind fun _ _ => readLEAt_noPanic.bind fun _ _ => ?_
  refine readLEAt_noPanic.bind fun _ _ => readLEAt_noPanic.bind fun _ _ => ?_
  exact readLEAt_noPanic.bind fun _ _ => noPanic_pure

theorem entriesAt_noPanic : NoPanic (entriesAt buf offset count) := by
  induction count generalizing offset
  case zero => exact noPanic_ok
  case succ count hi => exact entryAt_noPanic.bind fun _ _ => hi.bind fun _ _ => noPanic_pure

theorem readIndex_noPanic : NoPanic (readIndex buf) := by
  refine decodeVarint_noPanic.bind fun p hp => ?_
  rw [uintSub_eq (le_length_of_decodeVarint hp), ok_bind]
  split
  case isTrue => exact noPanic_error
  case isFalse => exact entriesAt_noPanic

theorem open_noPanic : NoPanic (SSTableReader.open file) := by
  rw [SSTableReader.open]
  dsimp only
  split
  case isTrue => exact noPanic_error
  case isFalse h =>
    refine readLE_noPanic.bind fun indexOffset _ => readLE_noPanic.bind fun indexLength _ => ?_
    refine readLE_noPanic.bind fun minTimestamp _ => readLE_noPanic.bind fun maxTimestamp _ => ?_
    refine readLE_noPanic.bind fun checksum _ => readLE_noPanic.bind fun version _ => ?_
    refine readLE_noPanic.bind fun magic _ => ?_
    split
    case isTrue => exact noPanic_error
    split
    case isTrue => exact noPanic_error
    rw [uintSub_eq (Nat.le_of_not_lt h), ok_bind]
    split
    case isTrue => exact noPanic_error
    case isFalse h' =>
      rw [uintSub_eq (Nat.le_of_not_lt h'), ok_bind]
      refine NoPanic.bind noPanic_pure fun outside _ => ?_
      split
      case isTrue => exact noPanic_error
      case isFalse => exact readIndex_noPanic.bind fun _ _ => noPanic_pure

end Open

theorem entryData_noPanic : NoPanic (entryData file entry) := by
  rw [entryData]
  split
  case isTrue => exact noPanic_error
  case isFalse => exact noPanic_ok

theorem range_noPanic [Search] : NoPanic (range points start stop) ↔
      Search.partitionPoint (·.timestamp < start) points ≤
        Search.partitionPoint (·.timestamp ≤ stop) points :=
  slice_noPanic.trans <| and_iff_left (Search.le_length _ _)

section Series

variable [Hashing]

-- The compressed points of the series, if its block can be read so far, can be read.
def SeriesSafe (r : SSTableReader) (file : Bytes) (key : SeriesKey) : Prop :=
  ∀ entry data block, r.index.find? (·.seriesKey = key) = some entry →
    entryData file entry = .ok data → blockPoints data = .ok block → PointsSafe block.2

-- A range that the index does not rule out is not inverted.
def RangeSafe [Search] (r : SSTableReader) (file : Bytes) (key : SeriesKey)
    (start stop : Timestamp) : Prop :=
  ∀ entry series, r.index.find? (·.seriesKey = key) = some entry →
    ¬ (entry.maxTimestamp < start ∨ entry.minTimestamp > stop) →
    readSeries r file key = .ok (some series) →
    Search.partitionPoint (·.timestamp < start) series.points ≤
      Search.partitionPoint (·.timestamp ≤ stop) series.points

theorem readSeries_noPanic : NoPanic (readSeries r file key) ↔ SeriesSafe r file key := by
  rw [readSeries, SeriesSafe]
  cases r.index.find? (·.seriesKey = key)
  case none => simp
  case some entry =>
    simp only [entryData_noPanic.bind_iff, noPanic_bind_iff, readBlock_noPanic, noPanic_pure,
      implies_true, and_true, Option.some.injEq]
    refine ⟨fun h entry' data block he hd => ?_, fun h data hd block => h _ data block rfl hd⟩
    cases he
    exact h data hd block

theorem queryRange_noPanic [Search] (hs : SeriesSafe r file key) :
    NoPanic (queryRange r file key start stop) ↔ RangeSafe r file key start stop := by
  rw [queryRange, RangeSafe]
  cases r.index.find? (·.seriesKey = key)
  case none => simp
  case some entry =>
    simp only [Option.some.injEq]
    split
    case isTrue h => exact iff_of_true noPanic_ok fun entry' _ he hn => absurd h (he ▸ hn)
    case isFalse h =>
      rw [(readSeries_noPanic.mpr hs).bind_iff]
      refine ⟨fun h' _ series _ _ hser => range_noPanic.mp (h' _ hser), fun h' series hser => ?_⟩
      cases series
      case none => exact noPanic_pure
      case some series => exact range_noPanic.mpr (h' entry series rfl h hser)

-- Reading a corrupt file panics exactly if the points of a series cannot be read safely, or if an
-- inverted range has points inside.
theorem corrupt_sstable_panics_iff [Search] (file : Bytes) :
    NoPanic (SSTableReader.open file) ∧ ∀ r, SSTableReader.open file = .ok r → ∀ key start stop,
      (NoPanic (readSeries r file key) ∧ NoPanic (queryRange r file key start stop) ↔
        SeriesSafe r file key ∧ RangeSafe r file key start stop) := by
  refine ⟨open_noPanic, fun r _ key start stop => ?_⟩
  rw [readSeries_noPanic]
  exact and_congr_right queryRange_noPanic

end Series

section Agreement

variable {α β : Type} {x y : Result α} {f g : α → Result β} {data : Bytes} {count : ℕ}

-- Without a panic it is the result that the other model gives.
def Agrees (x y : Result α) : Prop :=
  NoPanic x → x = y

theorem Agrees.refl : Agrees x x :=
  fun _ => rfl

theorem Agrees.bind (h : Agrees x y) (hf : ∀ a, y = .ok a → Agrees (f a) (g a)) :
    Agrees (x >>= f) (y >>= g) := by
  rw [Agrees, noPanic_bind_iff]
  rintro ⟨hx, hn⟩
  obtain rfl := h hx
  cases x
  case error e => rfl
  case ok a => exact hf a rfl (hn a rfl)

theorem Agrees.withCapacity : Agrees (withCapacity a b >>= fun _ => x) x := by
  rw [Checked.withCapacity]
  split
  case isTrue => exact .refl
  case isFalse => exact fun hn => absurd rfl hn

theorem decompressTimestamps_agrees :
    Agrees (decompressTimestamps data) (Tsdb.decompressTimestamps data) := by
  rw [decompressTimestamps, Tsdb.decompressTimestamps]
  split
  case isTrue => exact .refl
  case isFalse =>
    refine .bind .refl fun count h => ?_
    rw [sliceFrom_eq (le_length_of_decodeVarint h), ok_bind]
    exact .withCapacity

theorem decompressPoints_agrees : Agrees (decompressPoints data) (Tsdb.decompressPoints data) := by
  cases data
  case nil => exact .refl
  case cons byte rest =>
    rw [decompressPoints_cons]
    refine .bind .refl fun compressionType _ => ?_
    split
    case isTrue => exact .refl
    refine .bind .refl fun p _ => .bind .refl fun q _ => ?_
    rw [decompressBody, ← drop_drop]
    dsimp only
    split
    case isTrue => exact .refl
    refine decompressTimestamps_agrees.bind fun ts _ => ?_
    exact Agrees.withCapacity.bind fun _ _ => .refl

theorem readSeries_agrees [Hashing] : Agrees (readSeries r file key) (r.readSeries file key) := by
  rw [readSeries, SSTableReader.readSeries]
  cases r.index.find? (·.seriesKey = key)
  case none => exact .refl
  case some entry =>
    refine .bind .refl fun data _ => .bind (.bind .refl fun block _ => ?_) fun _ _ => .refl
    exact decompressPoints_agrees.bind fun _ _ => .refl

end Agreement

section Sample

local instance readHashing : Hashing := .sample

-- A binary search that finds the first point for which `p` fails.
local instance linearSearch : Search where
  partitionPoint := partitionPoint
  le_length p _ := (takeWhile_sublist p).length_le
  partitioned _ _ := fun _ => rfl

-- A file with one series under the key 7, whose compressed points are given.
def fileWith (points : Bytes) : Bytes :=
  let block := encodeLE 8 7 ++ [1, 99, 0, UInt8.ofNat points.length] ++ points
  let index := 1 :: encodeLE 8 7 ++ encodeLE 8 0 ++ encodeLE 4 block.length ++ encodeLE 8 0 ++
    encodeLE 8 100
  block ++ index ++ encodeLE 8 block.length ++ encodeLE 8 index.length ++ encodeLE 8 0 ++
    encodeLE 8 100 ++ encodeLE 4 0 ++ encodeLE 4 sstableVersion ++ encodeLE 4 sstableMagic

-- Two points at the times 10 and 20 with the same value.
def twoPoints : Bytes :=
  [4, 2, 3, 2, 20, 20, 0, 0, 0, 0, 0, 0, 0, 0, 0]

theorem corrupt_sstable_panics_iff_two : ∃ r, SSTableReader.open (fileWith twoPoints) = .ok r ∧
    SeriesSafe r (fileWith twoPoints) 7 ∧ RangeSafe r (fileWith twoPoints) 7 10 20 := by
  obtain ⟨r, hr, hs, hq⟩ : ∃ r, SSTableReader.open (fileWith twoPoints) = .ok r ∧
      NoPanic (readSeries r (fileWith twoPoints) 7) ∧
      NoPanic (queryRange r (fileWith twoPoints) 7 10 20) :=
    exists_ok_of_any (by decide +kernel)
  exact ⟨r, hr, ((corrupt_sstable_panics_iff (fileWith twoPoints)).2 r hr 7 10 20).mp ⟨hs, hq⟩⟩

-- The timestamps end behind the data, a window has 31 leading zeros and 34 bits, the number of
-- timestamps is `u64::MAX`, and an intact file is asked for an inverted range.
theorem corrupt_sstable_panics : let behindEnd : Bytes := [4, 1, 5]
    let overlong : Bytes := [4, 2, 3, 2, 20, 20, 0, 0, 0, 0, 0, 0, 0, 0, 0xFF, 0x10]
    let tooMany : Bytes := [4, 1, 10, 255, 255, 255, 255, 255, 255, 255, 255, 255, 1]
    (∀ points ∈ [behindEnd, overlong, tooMany], ∃ r, SSTableReader.open (fileWith points) = .ok r ∧
      ¬ NoPanic (readSeries r (fileWith points) 7)) ∧
    ∃ r, SSTableReader.open (fileWith twoPoints) = .ok r ∧
      ¬ NoPanic (queryRange r (fileWith twoPoints) 7 21 5) := by
  refine ⟨fun points hp => ?_, exists_ok_of_any (by decide +kernel)⟩
  simp only [mem_cons, not_mem_nil, or_false] at hp
  obtain rfl | rfl | rfl := hp
  all_goals exact exists_ok_of_any (by decide +kernel)

end Sample

end Checked

end Tsdb
