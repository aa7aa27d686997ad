import AppliedCs.Tsdb.Compression
import AppliedCs.Tsdb.Theorems.Gorilla

namespace Tsdb

open Codec List DeltaEncoder

section Varint

variable {v : UInt64} {rest : Bytes}

theorem toNat_low (v : UInt64) : (v &&& 0x7F).toUInt8.toNat = v.toNat % 128 := by
  have h : v.toNat % 256 &&& 127 = v.toNat % 256 % 128 := Nat.and_two_pow_sub_one_eq_mod _ 7
  simp [h, Nat.mod_mod_of_dvd]

theorem toNat_high (v : UInt64) : (v >>> 7).toNat = v.toNat / 128 := by
  simp [Nat.shiftRight_eq_div_pow]

theorem toNat_or_continue {byte : UInt8} (h : byte.toNat < 128) :
    (byte ||| 0x80).toNat = byte.toNat + 128 := by
  have ho : 128 + byte.toNat = 128 ||| byte.toNat := Nat.two_pow_add_eq_or_of_lt (i := 7) h 1
  rw [UInt8.toNat_or, Nat.or_comm, Nat.add_comm, ho]
  rfl

theorem and_continue_eq_zero (byte : UInt8) : byte &&& 0x80 = 0 ↔ byte.toNat < 128 := by
  have h : byte.toNat &&& 128 = (byte.toNat.testBit 7).toNat * 128 := Nat.and_two_pow _ 7
  have hb := byte.toNat_lt
  rw [← UInt8.toNat_inj]
  change byte.toNat &&& 128 = 0 ↔ _
  rw [h, Nat.toNat_testBit]
  omega

theorem toNat_and_low (byte : UInt8) : (byte &&& 0x7F).toUInt64.toNat = byte.toNat % 128 := by
  have h : byte.toNat &&& 127 = byte.toNat % 128 := Nat.and_two_pow_sub_one_eq_mod _ 7
  simp [h]

-- The bits of a byte are placed behind the ones before.
theorem toNat_or_shiftLeft (hs : s < 64) (hr : r.toNat < 2 ^ s) (hb : b.toNat * 2 ^ s < UInt64.size)
    : (r ||| b <<< UInt64.ofNat s).toNat = r.toNat + b.toNat * 2 ^ s := by
  have hm : (UInt64.ofNat s).toNat % 64 = s := by simp; omega
  rw [UInt64.toNat_or, UInt64.toNat_shiftLeft, hm, Nat.shiftLeft_eq, Nat.mod_eq_of_lt hb,
    Nat.or_comm, Nat.mul_comm, ← Nat.two_pow_add_eq_or_of_lt hr, Nat.add_comm]

theorem encodeVarint_eq (v : UInt64) : encodeVarint v = if v.toNat < 128 then [(v &&& 0x7F).toUInt8]
    else ((v &&& 0x7F).toUInt8 ||| 0x80) :: encodeVarint (v >>> 7) := by
  have h : v >>> 7 = 0 ↔ v.toNat < 128 := by
    rw [← UInt64.toNat_inj, toNat_high]
    exact Nat.div_eq_zero_iff.trans (by simp)
  rw [encodeVarint]
  simp only [h]

-- By induction on the number: the bytes of `v >>> 7` are those behind the first one of `v`.
theorem decodeVarintFrom_encodeVarint (hs : s < 64) (hr : r.toNat < 2 ^ s)
    (hv : v.toNat * 2 ^ s < UInt64.size) : decodeVarintFrom r s i (encodeVarint v ++ rest) =
      .ok (UInt64.ofNat (r.toNat + v.toNat * 2 ^ s), i + (encodeVarint v).length) := by
  induction hn : v.toNat using Nat.strongRecOn generalizing v r s i
  case ind n hi =>
    subst hn
    have hlow : v.toNat % 128 * 2 ^ s < UInt64.size :=
      (Nat.mul_le_mul_right _ (Nat.mod_le _ _)).trans_lt hv
    rw [encodeVarint_eq]
    split
    case isTrue hlt =>
      have hb := toNat_and_low (v &&& 0x7F).toUInt8
      rw [toNat_low, Nat.mod_mod] at hb
      have hc := (and_continue_eq_zero (v &&& 0x7F).toUInt8).mpr (by rw [toNat_low]; omega)
      rw [singleton_append, decodeVarintFrom, if_neg (by omega)]
      have hr' := toNat_or_shiftLeft hs hr (hb ▸ hlow)
      rw [hb, Nat.mod_eq_of_lt hlt] at hr'
      simp only [if_pos hc, length_singleton, ← hr', UInt64.ofNat_toNat]
    case isFalse hge =>
      have hb := toNat_and_low ((v &&& 0x7F).toUInt8 ||| 0x80)
      have hc := (and_continue_eq_zero ((v &&& 0x7F).toUInt8 ||| 0x80)).not
      rw [toNat_or_continue (by rw [toNat_low]; omega), toNat_low] at hb hc
      have hb : _ = v.toNat % 128 := hb.trans (by omega)
      have hr' := toNat_or_shiftLeft hs hr (hb ▸ hlow)
      rw [hb] at hr'
      have hpow : 2 ^ (s + 7) = 128 * 2 ^ s := by rw [pow_add]; omega
      have hhigh : v.toNat / 128 * 2 ^ (s + 7) + v.toNat % 128 * 2 ^ s = v.toNat * 2 ^ s := by
        rw [hpow, ← Nat.mul_assoc, ← Nat.add_mul, Nat.mul_comm _ 128, Nat.div_add_mod]
      have hs' : s + 7 < 64 := by
        refine (Nat.pow_lt_pow_iff_right (a := 2) (by decide)).mp ?_
        exact (hpow ▸ Nat.mul_le_mul_right _ (Nat.le_of_not_lt hge)).trans_lt hv
      have hlt : r.toNat + v.toNat % 128 * 2 ^ s < 2 ^ (s + 7) := by
        have := Nat.mul_le_mul_right (2 ^ s) (show v.toNat % 128 ≤ 127 by omega)
        omega
      have hrest := hi (v >>> 7).toNat (by rw [toNat_high]; omega) (i := i + 1) hs' (hr' ▸ hlt)
        (by rw [toNat_high]; omega) rfl
      rw [cons_append, decodeVarintFrom, if_neg (by omega)]
      simp only [if_neg (hc.mpr (by omega)), hrest, hr', toNat_high, Nat.add_assoc,
        Nat.add_comm (_ % 128 * _), hhigh, length_cons]
      rw [Nat.add_comm 1]

theorem decodeVarint_encodeVarint (v : UInt64) (rest : Bytes) :
    decodeVarint (encodeVarint v ++ rest) = .ok (v, (encodeVarint v).length) := by
  have h := @decodeVarintFrom_encodeVarint v rest 0 0 0 (by decide) (by decide)
    (by simpa using v.toNat_lt)
  simpa [decodeVarint] using h

theorem encodeVarint_ne_nil (v : UInt64) : encodeVarint v ≠ [] := by
  rw [encodeVarint_eq]
  split <;> simp

theorem length_encodeVarint_pos (v : UInt64) : 0 < (encodeVarint v).length :=
  length_pos_iff.mpr <| encodeVarint_ne_nil v

end Varint

section ZigZag

variable {x : BitVec 64}

theorem sshiftRight_63 (x : BitVec 64) :
    x.sshiftRight 63 = if x.msb then BitVec.allOnes 64 else 0#64 := by
  refine BitVec.eq_of_getLsbD_eq fun i hi => ?_
  have hlast : (if 63 + i < 64 then x.getLsbD (63 + i) else x.msb) = x.msb := by
    split
    case isTrue h => rw [BitVec.msb_eq_getLsbD_last, show i = 0 by omega]
    case isFalse h => rfl
  rw [BitVec.getLsbD_sshiftRight, hlast, apply_ite (BitVec.getLsbD · i), BitVec.getLsbD_allOnes,
    BitVec.getLsbD_zero]
  cases x.msb <;> simp [hi]

theorem and_one_eq (z : BitVec 64) : z &&& 1 = BitVec.ofNat 64 (z.toNat % 2) := by
  refine BitVec.eq_of_toNat_eq ?_
  rw [BitVec.toNat_ofNat]
  change z.toNat &&& 1 = _
  rw [Nat.and_one_is_mod]
  omega

-- The lowest bit says whether the others have been inverted.
theorem zigzag_inverse (hz : z = x <<< 1 ^^^ x.sshiftRight 63) : z >>> 1 ^^^ -(z &&& 1) = x := by
  have hl : (x <<< 1).toNat = 2 * x.toNat % 2 ^ 64 := by
    rw [BitVec.toNat_shiftLeft, Nat.shiftLeft_eq, Nat.mul_comm]
  have hm := BitVec.msb_eq_decide x
  rw [sshiftRight_63] at hz
  refine BitVec.eq_of_toNat_eq ?_
  cases hx : x.msb
  case false =>
    rw [hx, if_neg (by decide), BitVec.xor_zero] at hz
    rw [hx, eq_comm, decide_eq_false_iff_not] at hm
    have h0 : z.toNat % 2 = 0 := by rw [hz]; omega
    rw [and_one_eq, h0, BitVec.neg_zero, BitVec.xor_zero, BitVec.toNat_ushiftRight,
      Nat.shiftRight_eq_div_pow, hz, hl]
    omega
  case true =>
    rw [hx, if_pos rfl, BitVec.xor_allOnes] at hz
    rw [hx, eq_comm, decide_eq_true_iff] at hm
    have hn : z.toNat = 2 ^ 64 - 1 - 2 * x.toNat % 2 ^ 64 := by rw [hz, BitVec.toNat_not, hl]
    have h1 : z.toNat % 2 = 1 := by omega
    rw [and_one_eq, h1, BitVec.neg_one_eq_allOnes, BitVec.xor_allOnes, BitVec.toNat_not,
      BitVec.toNat_ushiftRight, Nat.shiftRight_eq_div_pow, hn]
    omega

theorem decodeSignedVarint_encodeSignedVarint (v : Int64) (rest : Bytes) :
    decodeSignedVarint (encodeSignedVarint v ++ rest) = .ok (v, (encodeSignedVarint v).length) := by
  have hz : (v <<< 1 ^^^ v >>> 63).toBitVec = v.toBitVec <<< 1 ^^^ v.toBitVec.sshiftRight 63 := by
    simp
  rw [decodeSignedVarint, encodeSignedVarint, decodeVarint_encodeVarint]
  have h := zigzag_inverse hz
  refine congrArg (fun v => Except.ok (v, _)) <| Int64.toBitVec_inj.mp ?_
  rw [← h]
  simp

end ZigZag

section Delta

variable {e : DeltaEncoder} {d : DeltaDecoder} {vs : List Int64} {data rest : Bytes}

namespace DeltaEncoder

-- What is written for a value.
def raw (e : DeltaEncoder) (value : Int64) : Int64 :=
  match e.count with
  | 0 => value
  | 1 => value - e.prevValue
  | _ => value - e.prevValue - e.prevDelta

def written (e : DeltaEncoder) : List Int64 → Bytes
  | [] => []
  | v :: vs => encodeSignedVarint (e.raw v) ++ (e.encode v).written vs

theorem buffer_encode : (e.encode v).buffer = e.buffer ++ encodeSignedVarint (e.raw v) := by
  obtain ⟨_, _, _ | _ | _, _⟩ := e <;> rfl

theorem buffer_encodeAll : (e.encodeAll vs).buffer = e.buffer ++ e.written vs := by
  induction vs generalizing e
  case nil => simp [encodeAll, written]
  case cons v vs hi => rw [written, ← append_assoc, ← buffer_encode, ← hi]; rfl

theorem length_le_written : vs.length ≤ (e.written vs).length := by
  induction vs generalizing e
  case nil => exact Nat.zero_le _
  case cons v vs hi =>
    have h₁ := length_encodeVarint_pos (e.raw v <<< 1 ^^^ e.raw v >>> 63).toUInt64
    have h₂ := @hi (e.encode v)
    rw [written, length_append, length_cons, encodeSignedVarint]
    omega

end DeltaEncoder

theorem lt_length_of_drop (h : data.drop offset = encodeSignedVarint v ++ rest) :
    offset < data.length := by
  have hp := length_encodeVarint_pos (v <<< 1 ^^^ v >>> 63).toUInt64
  have hl := congrArg length h
  rw [length_drop, length_append, encodeSignedVarint] at hl
  omega

theorem sliceFrom_eq {data : Bytes} (h : start ≤ data.length) :
    sliceFrom data start = .ok (data.drop start) := by
  rw [sliceFrom, slice, if_pos ⟨h, le_rfl⟩, take_length]

namespace DeltaDecoder

structure Follows (d : DeltaDecoder) (e : DeltaEncoder) : Prop where
  prevValue : d.prevValue = e.prevValue
  prevDelta : d.prevDelta = e.prevDelta
  count : d.count = e.count

theorem Follows.decode (h : d.Follows e)
    (hd : data.drop offset = encodeSignedVarint (e.raw v) ++ rest) :
    ∃ d', d.decode data offset = .ok (v, d', offset + (encodeSignedVarint (e.raw v)).length) ∧
      d'.Follows (e.encode v) := by
  obtain ⟨prevValue, prevDelta, count⟩ := d
  obtain ⟨rfl, rfl, rfl⟩ := h
  rw [DeltaDecoder.decode, sliceFrom_eq (lt_length_of_drop hd).le, ok_bind, hd,
    decodeSignedVarint_encodeSignedVarint]
  obtain ⟨prevValue, prevDelta, _ | _ | count, buffer⟩ := e
  case zero => exact ⟨_, rfl, rfl, rfl, rfl⟩
  case succ.zero =>
    have hv : prevValue + (v - prevValue) = v := by grind
    refine ⟨_, congrArg (fun v => Except.ok (v, _)) hv, hv, rfl, rfl⟩
  case succ.succ =>
    have hdelta : prevDelta + (v - prevValue - prevDelta) = v - prevValue := by grind
    have hv : prevValue + (prevDelta + (v - prevValue - prevDelta)) = v := by grind
    refine ⟨_, congrArg (fun v => Except.ok (v, _)) hv, hv, hdelta, rfl⟩

theorem Follows.decodeFrom (h : d.Follows e) (hd : data.drop offset = e.written vs ++ rest) :
    d.decodeFrom data offset vs.length = .ok vs := by
  induction vs generalizing d e offset
  case nil => rfl
  case cons v vs hi =>
    rw [written, append_assoc] at hd
    have hlt := lt_length_of_drop hd
    obtain ⟨d', hd₁, h'⟩ := h.decode hd
    have hd' : data.drop (offset + (encodeSignedVarint (e.raw v)).length) =
        (e.encode v).written vs ++ rest := by
      rw [← drop_drop, hd, drop_left]
    rw [length_cons, DeltaDecoder.decodeFrom, if_neg (by omega), hd₁, ok_bind]
    simp only [hi h' hd', ok_bind]
    rfl

end DeltaDecoder

theorem decompressTimestamps_compressTimestamps (h : vs.length < UInt64.size) :
    decompressTimestamps (compressTimestamps vs) = .ok vs := by
  cases vs
  case nil => rfl
  case cons v vs =>
    have hf : DeltaDecoder.Follows {} {} := ⟨rfl, rfl, rfl⟩
    rw [compressTimestamps, if_neg (by simp), buffer_encodeAll, nil_append,
      decompressTimestamps, if_neg (by simp [encodeVarint_ne_nil]),
      decodeVarint_encodeVarint, ok_bind]
    simp only [drop_left, UInt64.toNat_ofNat_of_lt' h]
    exact hf.decodeFrom (append_nil _).symm

theorem simpleDeltaDecodeFrom_simpleDeltas {prev : Int64} {offset : ℕ}
    (hd : data.drop offset = simpleDeltas prev vs) :
    simpleDeltaDecodeFrom data prev offset vs.length = .ok vs := by
  induction vs generalizing prev offset
  case nil => rfl
  case cons v vs hi =>
    rw [simpleDeltas] at hd
    have hlt := lt_length_of_drop hd
    have hv : prev + (v - prev) = v := by grind
    have hd' : data.drop (offset + (encodeSignedVarint (v - prev)).length) = simpleDeltas v vs := by
      rw [← drop_drop, hd, drop_left]
    rw [length_cons, simpleDeltaDecodeFrom, if_neg (Nat.not_le.mpr hlt), hd,
      decodeSignedVarint_encodeSignedVarint, ok_bind]
    simp only [hv, hi hd', ok_bind]
    rfl

theorem simpleDeltaDecode_simpleDeltaEncode (vs : List Int64) :
    simpleDeltaDecode (simpleDeltaEncode vs) vs.length = .ok vs := by
  cases vs
  case nil => rfl
  case cons v vs =>
    have hd : (simpleDeltaEncode (v :: vs)).drop (encodeSignedVarint v).length =
        simpleDeltas v vs :=
      drop_left
    have hne : encodeSignedVarint v ≠ [] := encodeVarint_ne_nil _
    rw [simpleDeltaDecode, if_neg (by simp [simpleDeltaEncode, hne])]
    nth_rewrite 1 [simpleDeltaEncode]
    rw [decodeSignedVarint_encodeSignedVarint]
    simp only [length_cons, Nat.add_sub_cancel, simpleDeltaDecodeFrom_simpleDeltas hd, ok_bind]
    rfl

-- Differences that overflow come back as well. The length of a slice is a `usize`.
theorem delta_round_trips (ts : List Timestamp) (h : ts.length < UInt64.size) :
    decompressTimestamps (compressTimestamps ts) = .ok ts ∧
      simpleDeltaDecode (simpleDeltaEncode ts) ts.length = .ok ts :=
  ⟨decompressTimestamps_compressTimestamps h, simpleDeltaDecode_simpleDeltaEncode ts⟩

theorem delta_round_trips_extremes :
    let ts : List Timestamp := [Int64.minValue, Int64.maxValue, -1, Int64.minValue]
    decompressTimestamps (compressTimestamps ts) = .ok ts ∧
      simpleDeltaDecode (simpleDeltaEncode ts) ts.length = .ok ts :=
  delta_round_trips _ (by decide)

end Delta

section Points

variable {points : List DataPoint}

-- The timestamps come back as they were, so that only the values matter.
theorem decompressPoints_compressPoints (h : (compressPoints points).length < UInt64.size) :
    decompressPoints (compressPoints points) =
      (decompressValues (compressValues (points.map (·.value))) points.length).map fun values =>
        ((points.map (·.timestamp)).zip values).map fun (timestamp, value) =>
          { timestamp, value } := by
  cases hp : points
  case nil => rfl
  case cons p points' =>
    rw [← hp]
    have he : ¬ points.isEmpty := by simp [hp]
    have hts : points.length ≤ (compressTimestamps (points.map (·.timestamp))).length := by
      have hw := @length_le_written {} (points.map (·.timestamp))
      simp only [compressTimestamps, isEmpty_map, if_neg he, buffer_encodeAll,
        length_append, nil_append, length_map] at hw ⊢
      omega
    have hlen : (compressTimestamps (points.map (·.timestamp))).length < UInt64.size := by
      refine Nat.lt_of_le_of_lt ?_ h
      simp only [compressPoints, if_neg he, length_append]
      omega
    have hd : decompressTimestamps (compressTimestamps (points.map (·.timestamp))) = .ok _ :=
      decompressTimestamps_compressTimestamps (by rw [length_map]; omega)
    rw [compressPoints, if_neg he]
    have ht : CompressionType.tryFrom CompressionType.deltaGorilla.toByte = .ok .deltaGorilla := rfl
    simp only [append_assoc, cons_append, nil_append, decompressPoints, ht, ok_bind,
      decodeVarint_encodeVarint, drop_left, UInt64.toNat_ofNat_of_lt' hlen,
      UInt64.toNat_ofNat_of_lt' (hts.trans_lt hlen), take_left, hd, ne_eq, not_true, if_false,
      length_append, Nat.not_lt.mpr (Nat.le_add_right _ _)]
    cases decompressValues (compressValues (points.map (·.value))) points.length <;> rfl

theorem length_decodeFrom {d : GorillaDecoder} (h : d.decodeFrom r n = .ok vs) : vs.length = n := by
  induction n generalizing d r vs
  case zero => cases h; rfl
  case succ n hi =>
    rw [GorillaDecoder.decodeFrom] at h
    cases hd : d.decode r <;> rw [hd] at h
    case error => cases h
    case ok p =>
      rw [ok_bind] at h
      cases hr : p.2.1.decodeFrom p.2.2 n <;> rw [hr] at h
      case error => cases h
      case ok vs' => cases h; exact congrArg (· + 1) (hi hr)

theorem zip_eq_iff (h : vs.length = points.length) :
    ((points.map (·.timestamp)).zip vs).map (fun (timestamp, value) => { timestamp, value }) =
      points ↔ vs = points.map (·.value) := by
  induction points generalizing vs
  case nil => simpa using h
  case cons p points hi =>
    cases vs
    case nil => cases h
    case cons v vs =>
      simp only [map_cons, zip_cons_cons, cons.injEq, hi (Nat.succ.inj h), DataPoint.ext_iff]
      simp

def Lossless (points : List DataPoint) : Prop :=
  decompressPoints (compressPoints points) = .ok points

theorem lossless_iff (h : (compressPoints points).length < UInt64.size) :
    Lossless points ↔ WindowsFit (points.map (·.value)) := by
  have hl : Lossless points ↔
      decompressValues (compressValues (points.map (·.value))) points.length =
        .ok (points.map (·.value)) := by
    rw [Lossless, decompressPoints_compressPoints h]
    cases hv : decompressValues (compressValues (points.map (·.value))) points.length
    case error => exact iff_of_false (by simp [Except.map]) (by simp)
    case ok vs =>
      rw [Except.map, Except.ok.injEq, Except.ok.injEq, zip_eq_iff (length_decodeFrom hv)]
  rw [hl]
  cases points
  case nil => exact iff_of_true rfl trivial
  case cons p points =>
    have hc := decompressValues_cons_iff p.value (points.map (·.value))
    rwa [length_cons, length_map] at hc

end Points

end Tsdb
