import AppliedCs.Cache.Backlog

namespace Cache.ReplicationBacklog

open Codec Ring ReplicationBacklog List

variable {b b' : ReplicationBacklog} {stream data : Bytes} {chunks : List Bytes} {rounds offset : ℕ}

-- The cells of the buffer and the next one to be written.
structure Buffers (b : ReplicationBacklog) (stream : Bytes) : Prop where
  length : b.buffer.length = b.capacity
  pos : 0 < b.capacity
  writePos : b.writePos = stream.length % b.capacity
  holds : Holds b.buffer stream

-- By induction on the rounds. What has been written joins the stream.
theorem Buffers.writeLoop (h : b.Buffers stream) (hr : data.length ≤ rounds) :
    ∃ buffer writePos, writeLoop rounds b data = some { b with buffer, writePos } ∧
      Buffers { b with buffer, writePos } (stream ++ data) := by
  induction rounds generalizing b stream data
  case zero =>
    cases length_eq_zero_iff.mp (Nat.le_zero.mp hr)
    exact ⟨b.buffer, b.writePos, rfl, by rwa [append_nil]⟩
  case succ rounds hi =>
    rw [writeLoop]
    by_cases hd : data = []
    case pos =>
      subst hd
      exact ⟨b.buffer, b.writePos, rfl, by rwa [append_nil]⟩
    have hlt : b.writePos < b.capacity := h.writePos ▸ Nat.mod_lt _ h.pos
    have hbuf := h.length
    rw [if_neg (by simpa using hd)]
    dsimp only
    generalize hn : min data.length (b.capacity - b.writePos) = n
    have htake : (data.take n).length = n := length_take_of_le (by omega)
    rw [if_pos ⟨by omega, h.pos.ne'⟩]
    have hroom : stream.length % b.buffer.length + (data.take n).length ≤ b.buffer.length := by
      rw [htake, h.length, ← h.writePos]
      omega
    have hb : Buffers { b with
        buffer := Ring.write b.buffer b.writePos (data.take n)
        writePos := (b.writePos + n) % b.capacity } (stream ++ data.take n) := by
      refine ⟨?_, h.pos, ?_, ?_⟩
      · show (Ring.write _ _ _).length = b.capacity
        rw [length_write (by omega), h.length]
      · show (b.writePos + n) % b.capacity = _
        rw [length_append, htake, h.writePos, Nat.mod_add_mod]
      · have := h.holds.write hroom (h.length ▸ h.pos)
        rwa [h.length, ← h.writePos] at this
    have hrest : (data.drop n).length ≤ rounds := by
      rw [length_drop]
      omega
    obtain ⟨buffer, writePos, he, hb'⟩ := hi hb hrest
    rw [append_assoc, take_append_drop] at hb'
    exact ⟨buffer, writePos, he, hb'⟩

theorem Buffers.readLoop (h : b.Buffers stream) (hs : offset + remaining = stream.length)
    (hc : stream.length ≤ offset + b.capacity) (hr : remaining ≤ rounds) :
    readLoop b rounds (offset % b.capacity) remaining result =
      some (result ++ stream.drop offset) := by
  induction rounds generalizing offset remaining result
  case zero =>
    have hnil : stream.drop offset = [] := drop_eq_nil_of_le (by omega)
    rw [readLoop, if_pos (by omega), hnil, append_nil]
  case succ rounds hi =>
    rw [readLoop]
    by_cases h0 : remaining = 0
    case pos =>
      have hnil : stream.drop offset = [] := drop_eq_nil_of_le (by omega)
      rw [if_pos h0, hnil, append_nil]
    have hlt := Nat.mod_lt offset h.pos
    have hbuf := h.length
    rw [if_neg h0]
    dsimp only
    generalize hn : min remaining (b.capacity - offset % b.capacity) = n
    have hread := h.holds.read (o := offset) (k := n) (by rw [h.length]; omega) (by omega)
      (by rw [h.length]; omega)
    rw [h.length] at hread
    rw [if_pos ⟨by omega, h.pos.ne'⟩, Nat.mod_add_mod, hread, hi (by omega) (by omega) (by omega),
      append_assoc]
    congr 1
    rw [← drop_drop, take_append_drop]

structure Tracks (b : ReplicationBacklog) (stream : Bytes) : Prop extends Buffers b stream where
  total : b.totalWritten = stream.length
  start : b.startOffset = stream.length - b.capacity
  wrapped : b.wrapped = decide (b.capacity < stream.length)

theorem tracks_new {capacity : ℕ} (h : 0 < capacity) : (new capacity).Tracks [] where
  length := length_replicate
  pos := h
  writePos := (Nat.zero_mod _).symm
  holds := .nil
  total := rfl
  start := (Nat.zero_sub _).symm
  wrapped := (decide_eq_false (Nat.not_lt_zero _)).symm

theorem Tracks.append (h : b.Tracks stream) (hs : (stream ++ data).length < UInt64.size) :
    ∃ b', b.append data = some b' ∧ b'.Tracks (stream ++ data) ∧ b'.capacity = b.capacity := by
  rw [ReplicationBacklog.append]
  by_cases hd : data = []
  case pos =>
    subst hd
    exact ⟨b, rfl, by rwa [append_nil], rfl⟩
  have hafter : (b.totalWritten + data.length) % UInt64.size = (stream ++ data).length := by
    rw [h.total, ← length_append, Nat.mod_eq_of_lt hs]
  rw [if_neg (by simpa using hd), hafter]
  dsimp only
  -- The offset and the flag do not matter for the loop.
  split
  case isTrue hgt =>
    have hb : Buffers { b with
        wrapped := true, startOffset := (stream ++ data).length - b.capacity } stream :=
      ⟨h.length, h.pos, h.writePos, h.holds⟩
    obtain ⟨buffer, writePos, he, hb'⟩ := hb.writeLoop (le_refl data.length)
    rw [he]
    exact ⟨_, rfl, ⟨⟨hb'.length, hb'.pos, hb'.writePos, hb'.holds⟩, rfl, rfl,
      (decide_eq_true hgt).symm⟩, rfl⟩
  case isFalse hle =>
    have hlen := @length_append _ stream data
    obtain ⟨buffer, writePos, he, hb'⟩ := h.toBuffers.writeLoop (le_refl data.length)
    rw [he]
    refine ⟨_, rfl, ⟨⟨hb'.length, hb'.pos, hb'.writePos, hb'.holds⟩, rfl, ?_, ?_⟩, rfl⟩
    · show b.startOffset = (stream ++ data).length - b.capacity
      rw [h.start]
      omega
    · show b.wrapped = decide (b.capacity < (stream ++ data).length)
      rw [h.wrapped, decide_eq_decide]
      omega

theorem Tracks.appendAll (h : b.Tracks stream)
    (hs : (stream ++ chunks.flatten).length < UInt64.size) : ∃ b', b.appendAll chunks = some b' ∧
      b'.Tracks (stream ++ chunks.flatten) ∧ b'.capacity = b.capacity := by
  induction chunks generalizing b stream
  case nil => exact ⟨b, rfl, by rwa [flatten_nil, append_nil], rfl⟩
  case cons data chunks hi =>
    rw [flatten_cons, ← append_assoc] at hs ⊢
    have hs' : (stream ++ data).length < UInt64.size := by
      rw [length_append] at hs
      omega
    obtain ⟨b₁, he, ht, hc⟩ := h.append hs'
    obtain ⟨b₂, he', ht', hc'⟩ := hi ht hs
    refine ⟨b₂, ?_, ht', hc'.trans hc⟩
    rw [appendAll, foldlM_cons, he]
    exact he'

-- The offsets of the last bytes of a stream, up to its end.
def Available (capacity : ℕ) (stream : Bytes) (offset : ℕ) : Prop :=
  stream ≠ [] ∧ stream.length - min capacity stream.length ≤ offset ∧ offset ≤ stream.length

theorem Tracks.containsOffset_iff (h : b.Tracks stream) :
    b.containsOffset offset ↔ Available b.capacity stream offset := by
  have he : stream = [] ↔ stream.length = 0 := length_eq_zero_iff.symm
  rw [containsOffset, h.total, h.start, Available, Ne, he]
  split
  case isTrue h0 => exact iff_of_false Bool.false_ne_true fun hh => hh.1 h0
  case isFalse h0 =>
    rw [Bool.and_eq_true, decide_eq_true_iff, decide_eq_true_iff]
    omega

theorem Tracks.offsetInBuffer (h : b.Tracks stream) (ha : Available b.capacity stream offset)
    (hlt : offset < stream.length) : b.offsetInBuffer offset = offset % b.capacity := by
  obtain ⟨-, hlo, -⟩ := ha
  rw [ReplicationBacklog.offsetInBuffer, bytesInBuffer, h.wrapped, h.start]
  by_cases hw : b.capacity < stream.length
  case pos =>
    rw [if_pos (decide_eq_true hw), if_pos (decide_eq_true hw), Nat.add_sub_cancel, h.writePos,
      Nat.mod_add_mod]
    have : stream.length + (offset - (stream.length - b.capacity)) = offset + b.capacity := by omega
    rw [this, Nat.add_mod_right]
  case neg =>
    rw [if_neg (by simpa using hw), Nat.mod_eq_of_lt (by omega)]
    omega

theorem Tracks.getFromOffset (h : b.Tracks stream) : (Available b.capacity stream offset →
      b.getFromOffset offset = some (some (stream.drop offset))) ∧
    (¬ Available b.capacity stream offset → b.getFromOffset offset = some none) := by
  rw [ReplicationBacklog.getFromOffset]
  constructor
  · intro ha
    obtain ⟨-, hlo, hhi⟩ := id ha
    rw [if_neg (by simpa using h.containsOffset_iff.mpr ha), h.total]
    by_cases h0 : stream.length - offset = 0
    case pos => rw [if_pos h0, drop_eq_nil_of_le (by omega)]
    case neg =>
      rw [if_neg h0, if_neg (by omega), h.offsetInBuffer ha (by omega),
        h.readLoop (by omega) (by omega) le_rfl]
      rfl
  · intro ha
    rw [if_pos (by simpa using h.containsOffset_iff.not.mpr ha)]

theorem backlog_is_tail_of_stream {capacity : ℕ} (hc : 0 < capacity)
    (hs : chunks.flatten.length < UInt64.size) : ∃ b, (new capacity).appendAll chunks = some b ∧
      ∀ offset, (b.containsOffset offset ↔ Available capacity chunks.flatten offset) ∧
        (Available capacity chunks.flatten offset →
          b.getFromOffset offset = some (some (chunks.flatten.drop offset))) ∧
        (¬ Available capacity chunks.flatten offset → b.getFromOffset offset = some none) := by
  obtain ⟨b, he, ht, hb⟩ := @Tracks.appendAll (new capacity) [] chunks (tracks_new hc) hs
  have hb : b.capacity = capacity := hb
  exact ⟨b, he, fun offset => ⟨hb ▸ ht.containsOffset_iff, hb ▸ ht.getFromOffset⟩⟩

-- Seven bytes into four cells.
theorem backlog_wraps : ∃ b, (new 4).appendAll [[1, 2, 3], [4, 5], [6, 7]] = some b ∧
    b.getFromOffset 4 = some (some [5, 6, 7]) ∧ b.getFromOffset 2 = some none := by
  obtain ⟨b, he, h⟩ :=
    @backlog_is_tail_of_stream [[1, 2, 3], [4, 5], [6, 7]] 4 (by decide) (by decide)
  refine ⟨b, he, (h 4).2.1 ?_, (h 2).2.2 ?_⟩ <;> unfold Available <;> decide

end Cache.ReplicationBacklog
