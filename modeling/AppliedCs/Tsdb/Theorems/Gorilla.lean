import AppliedCs.Tsdb.Theorems.Bits

namespace Tsdb

open Bits GorillaDecoder GorillaEncoder

section Xor

variable {x : BitVec 64}

theorem clz_add_ctz_lt (h : x ≠ 0) : x.clz.toNat + x.ctz.toNat < 64 := by
  have h₁ := BitVec.two_pow_ctz_le_toNat_of_ne_zero h
  have h₂ : x.toNat < 2 ^ (64 - x.clz.toNat) := BitVec.toNat_lt_two_pow_sub_clz
  have h₃ := (Nat.pow_lt_pow_iff_right (by decide)).mp <| h₁.trans_lt h₂
  omega

theorem shiftRight_lt (hl : l ≤ x.clz.toNat) (h : l + t ≤ 64) :
    (x >>> t).toNat < 2 ^ (64 - l - t) := by
  have h₁ : x.toNat < 2 ^ (64 - x.clz.toNat) := BitVec.toNat_lt_two_pow_sub_clz
  have h₂ : x.toNat < 2 ^ (64 - l) := h₁.trans_le <| Nat.pow_le_pow_right (by decide) (by omega)
  rw [BitVec.toNat_ushiftRight, Nat.shiftRight_eq_div_pow]
  refine Nat.div_lt_of_lt_mul ?_
  rwa [← pow_add, show t + (64 - l - t) = 64 - l by omega]

theorem shiftRight_shiftLeft (ht : t ≤ x.ctz.toNat) : x >>> t <<< t = x := by
  refine BitVec.eq_of_getLsbD_eq fun i hi => ?_
  by_cases hit : i < t
  case pos => simp [hit, BitVec.getLsbD_false_of_lt_ctz (hit.trans_le ht)]
  case neg => simp [hit, hi, Nat.add_sub_cancel' (Nat.le_of_not_lt hit)]

-- Shifted back too far, the lowest bit that is set gets lost.
theorem shiftLeft_ne (h : x ≠ 0) (ht : x.ctz.toNat < t) (y : BitVec 64) : y <<< t ≠ x := by
  intro hy
  have h₁ := BitVec.getLsbD_true_ctz_of_ne_zero h
  rw [← hy, BitVec.getLsbD_shiftLeft] at h₁
  simp [hy, ht] at h₁

theorem xor_eq_iff {v : BitVec 64} : p ^^^ y = v ↔ y = v ^^^ p := by
  constructor <;> rintro rfl
  · rw [BitVec.xor_comm p y, BitVec.xor_assoc, BitVec.xor_self, BitVec.xor_zero]
  · rw [BitVec.xor_comm v p, ← BitVec.xor_assoc, BitVec.xor_self, BitVec.zero_xor]

theorem remaining_eq (h : l + t ≤ 64) : remaining l t = 64 - l - t := by
  rw [remaining]
  omega

theorem uintSub_uintSub {α : Type} {f : ℕ → Result α} (h : l + t ≤ 64) :
    (uintSub 64 l >>= fun bits => uintSub bits t >>= f) = f (64 - l - t) := by
  rw [uintSub_eq (by omega), ok_bind, uintSub_eq (by omega), ok_bind]

end Xor

-- The zeros before and behind the bits that are written for a change.
structure Window where
  leading : ℕ
  trailing : ℕ

variable (window : Option Window) (xor : BitVec 64)

def Reuses : Prop :=
  ∃ w ∈ window, w.leading ≤ xor.clz.toNat ∧ w.trailing ≤ xor.ctz.toNat

instance (window : Option Window) (xor : BitVec 64) : Decidable (Reuses window xor) :=
  match window with
  | none => .isFalse (by simp [Reuses])
  | some w => decidable_of_iff (w.leading ≤ xor.clz.toNat ∧ w.trailing ≤ xor.ctz.toNat)
    (by simp [Reuses])

def nextWindow : Option Window :=
  if xor = 0 ∨ Reuses window xor then window else some ⟨min xor.clz.toNat 31, xor.ctz.toNat⟩

-- A change that does not fit the window in force has at most 31 leading zeros.
def Fits : Prop :=
  xor = 0 ∨ Reuses window xor ∨ xor.clz.toNat ≤ 31

instance (window : Option Window) (xor : BitVec 64) : Decidable (Fits window xor) :=
  inferInstanceAs <| Decidable (_ ∨ _)

def ChangesFit (window : Option Window) (prev : Value) : List Value → Prop
  | [] => True
  | v :: vs =>
    Fits window (v ^^^ prev) ∧ ChangesFit (nextWindow window (v ^^^ prev)) v vs

instance ChangesFit.decidable : ∀ (window : Option Window) (prev : Value) (vs : List Value),
      Decidable (ChangesFit window prev vs)
  | _,      _,    [] => .isTrue trivial
  | window, prev, v :: vs =>
    have := ChangesFit.decidable (nextWindow window (v ^^^ prev)) v vs
    inferInstanceAs <| Decidable (_ ∧ _)

def WindowsFit : List Value → Prop
  | [] => True
  | v :: vs => ChangesFit none v vs

instance (vs : List Value) : Decidable (WindowsFit vs) :=
  match vs with
  | [] => .isTrue trivial
  | v :: vs => inferInstanceAs <| Decidable <| ChangesFit none v vs

-- The bits written for a change inside a window, and for one that opens its own.
def Window.code (w : Window) (xor : BitVec 64) : List Bool :=
  false :: toBits (64 - w.leading - w.trailing) (xor >>> w.trailing).toNat

def openingCode : List Bool :=
  let length := 64 - xor.clz.toNat - xor.ctz.toNat
  true :: (toBits 5 (min xor.clz.toNat 31) ++ (toBits 6 (length % 64) ++
    toBits length (xor >>> xor.ctz.toNat).toNat))

def codeword : List Bool :=
  if xor = 0 then [false]
  else true :: if Reuses window xor then window.elim [] (·.code xor) else openingCode xor

def codewords (window : Option Window) (prev : Value) : List Value → List Bool
  | [] => []
  | v :: vs => codeword window (v ^^^ prev) ++ codewords (nextWindow window (v ^^^ prev)) v vs

def Window.Valid (w : Window) : Prop :=
  w.leading ≤ 31 ∧ w.leading + w.trailing < 64

section Codeword

-- The numbers that are written in front of the bits of the change.
theorem toNat_ofNat_leading (n : ℕ) : (BitVec.ofNat 64 (min n 31)).toNat = min n 31 := by
  rw [BitVec.toNat_ofNat]
  omega

theorem toNat_ofNat_length (h : n ≤ 64) :
    (BitVec.ofNat 64 (if n = 64 then 0 else n)).toNat = n % 64 := by
  rw [BitVec.toNat_ofNat]
  split <;> omega

theorem toNat_ofNat_remainder (hp : 0 < n) (h : n ≤ 64) :
    (if (BitVec.ofNat 64 (n % 64)).toNat = 0 then 64
      else (BitVec.ofNat 64 (n % 64)).toNat) = n := by
  rw [BitVec.toNat_ofNat]
  split <;> omega

end Codeword

namespace GorillaEncoder

variable {e : GorillaEncoder} {window : Option Window}

structure Holds (e : GorillaEncoder) (window : Option Window) (bits : List Bool) : Prop where
  none : window = none → e.prevLeading = 255
  some : ∀ w ∈ window, w.Valid ∧ e.prevLeading = w.leading ∧ e.prevTrailing = w.trailing
  buffer : e.buffer.Holds bits

theorem Holds.reuses_iff (h : e.Holds window bits) :
    (x.clz.toNat ≥ e.prevLeading ∧ x.ctz.toNat ≥ e.prevTrailing ∧ e.prevLeading ≠ 255) ↔
      Reuses window x := by
  cases window
  case none => simp [Reuses, h.none rfl]
  case some w =>
    have ⟨hv, hl, ht⟩ := h.some w rfl
    have := hv.left
    simp [Reuses, hl, ht]
    omega

theorem Holds.encodeXor (h : e.Holds window (bits ++ [true])) (hx : x ≠ 0) :
    (e.encodeXor x).Holds (nextWindow window x) (bits ++ codeword window x) := by
  have hlt := clz_add_ctz_lt hx
  rw [GorillaEncoder.encodeXor, nextWindow, codeword]
  simp only [h.reuses_iff, hx, false_or]
  split
  case isTrue hr =>
    obtain ⟨w, hw, _⟩ := id hr
    obtain rfl := hw
    obtain ⟨hv, hl, ht⟩ := h.some w rfl
    refine ⟨h.none, h.some, ?_⟩
    have hb := h.buffer.writeBit false |>.writeBits (x >>> w.trailing)
      (64 - w.leading - w.trailing)
    simpa [Window.code, hl, ht, remaining_eq hv.right.le] using hb
  case isFalse hr =>
    refine ⟨by simp, ?_, ?_⟩
    · intro w hw
      obtain rfl := Option.mem_some_iff.mp hw
      refine ⟨?_, rfl, rfl⟩
      simp only [Window.Valid]
      omega
    · rw [remaining_eq hlt.le]
      convert h.buffer.writeBit true |>.writeBits _ _ |>.writeBits _ _ |>.writeBits _ _ using 1
      rw [toNat_ofNat_leading, toNat_ofNat_length (by omega)]
      simp [openingCode]

-- The state of the encoder between two values.
structure After (e : GorillaEncoder) (window : Option Window) (prev : Value) (bits : List Bool) :
    Prop where
  started : e.count ≠ 0
  prev : e.prevValue = prev
  holds : e.Holds window bits

theorem After.encode {prev : Value} (h : e.After window prev bits) :
    (e.encode v).After (nextWindow window (v ^^^ prev)) v
      (bits ++ codeword window (v ^^^ prev)) := by
  refine ⟨Nat.succ_ne_zero _, rfl, ?_⟩
  obtain rfl := h.prev
  have h₁ := h.holds
  by_cases hx : v ^^^ e.prevValue = 0
  case pos =>
    simp only [GorillaEncoder.encode, if_neg h.started, nextWindow, codeword, if_pos hx,
      if_pos (Or.inl hx)]
    exact ⟨h₁.none, h₁.some, h₁.buffer.writeBit false⟩
  have h₂ : { e with buffer := e.buffer.writeBit true }.Holds window (bits ++ [true]) :=
    ⟨h₁.none, h₁.some, h₁.buffer.writeBit true⟩
  have h₃ := h₂.encodeXor hx
  simp only [GorillaEncoder.encode, if_neg h.started, if_neg hx]
  exact ⟨h₃.none, h₃.some, h₃.buffer⟩

theorem After.encodeAll {prev : Value} (h : e.After window prev bits) (vs : List Value) :
    (e.encodeAll vs).buffer.Holds (bits ++ codewords window prev vs) := by
  induction vs generalizing e window prev bits
  case nil => simpa [encodeAll, codewords] using h.holds.buffer
  case cons v vs hi =>
    rw [codewords, ← List.append_assoc]
    exact hi h.encode

end GorillaEncoder

namespace GorillaDecoder

variable {d : GorillaDecoder} {r : BitReader} {window : Option Window} {w : Window}
variable {prev v : Value}

theorem decodeXor_code (hv : w.Valid) (hl : d.prevLeading = w.leading)
    (ht : d.prevTrailing = w.trailing) (hx : w.leading ≤ x.clz.toNat ∧ w.trailing ≤ x.ctz.toNat)
    (hr : r.Ahead (w.code x ++ rest)) : ∃ r', d.decodeXor r = .ok (x, d, r') ∧ r'.Ahead rest := by
  obtain ⟨r₁, h₁, ha₁⟩ := hr.readBit
  obtain ⟨r₂, h₂, ha₂⟩ := ha₁.readBits (shiftRight_lt hx.left hv.right.le)
  refine ⟨r₂, ?_, ha₂⟩
  have hb : (x >>> w.trailing) <<< (w.trailing % 64) = x := by
    rw [Nat.mod_eq_of_lt (by have := hv.right; omega), shiftRight_shiftLeft hx.right]
  simp only [decodeXor, h₁, hl, ht, uintSub_uintSub hv.right.le, ok_bind, if_true, h₂,
    BitVec.ofNat_toNat, BitVec.setWidth_eq, hb]
  rfl

-- The decoder takes the zeros beyond the 31st for trailing ones.
theorem decodeXor_openingCode (hx : x ≠ 0) (hr : r.Ahead (openingCode x ++ rest)) :
    ∃ r', d.decodeXor r =
        .ok ((x >>> x.ctz.toNat) <<< (x.ctz.toNat + (x.clz.toNat - 31)), { d with
          prevLeading := min x.clz.toNat 31
          prevTrailing := x.ctz.toNat + (x.clz.toNat - 31) }, r') ∧
      r'.Ahead rest := by
  have hlt := clz_add_ctz_lt hx
  simp only [openingCode, List.cons_append, List.append_assoc] at hr
  obtain ⟨r₁, h₁, ha₁⟩ := hr.readBit
  obtain ⟨r₂, h₂, ha₂⟩ := ha₁.readBits (by omega)
  obtain ⟨r₃, h₃, ha₃⟩ := ha₂.readBits (by omega)
  obtain ⟨r₄, h₄, ha₄⟩ := ha₃.readBits (shiftRight_lt le_rfl hlt.le)
  refine ⟨r₄, ?_, ha₄⟩
  have hl : (BitVec.ofNat 64 (min x.clz.toNat 31)).toNat = min x.clz.toNat 31 :=
    toNat_ofNat_leading _
  have hn := toNat_ofNat_remainder (n := 64 - x.clz.toNat - x.ctz.toNat) (by omega) (by omega)
  have hfits : min x.clz.toNat 31 + (64 - x.clz.toNat - x.ctz.toNat) ≤ 64 := by omega
  have ht : 64 - min x.clz.toNat 31 - (64 - x.clz.toNat - x.ctz.toNat) =
      x.ctz.toNat + (x.clz.toNat - 31) := by
    omega
  simp only [decodeXor, h₁, ok_bind, h₂, h₃, hl, hn, uintSub_uintSub hfits, h₄, ht,
    BitVec.ofNat_toNat,
    BitVec.setWidth_eq, Nat.mod_eq_of_lt (show x.ctz.toNat + (x.clz.toNat - 31) < 64 by omega)]
  rfl

-- The state of the decoder between two values.
structure After (d : GorillaDecoder) (window : Option Window) (prev : Value) : Prop where
  started : d.count ≠ 0
  prev : d.prevValue = prev
  some : ∀ w ∈ window, w.Valid ∧ d.prevLeading = w.leading ∧ d.prevTrailing = w.trailing

-- A change that does not fit is read as another one.
theorem After.decodeXor (h : d.After window prev) (hx : x ≠ 0)
    (hr : r.Ahead
      ((if Reuses window x then window.elim [] (·.code x) else openingCode x) ++ rest)) :
    ∃ y d' r', d.decodeXor r = .ok (y, d', r') ∧ r'.Ahead rest ∧ (y = x ↔ Fits window x) ∧
      (Fits window x → d'.After (nextWindow window x) prev) := by
  have hlt := clz_add_ctz_lt hx
  split at hr
  case isTrue hw =>
    obtain ⟨w, hw', hwx⟩ := id hw
    obtain rfl := hw'
    obtain ⟨hv, hl, ht⟩ := h.some w rfl
    obtain ⟨r', hd, ha⟩ := decodeXor_code hv hl ht hwx hr
    refine ⟨x, d, r', hd, ha, iff_of_true rfl (.inr <| .inl hw), fun _ => ?_⟩
    rwa [nextWindow, if_pos (.inr hw)]
  case isFalse hw =>
    obtain ⟨r', hd, ha⟩ := decodeXor_openingCode hx hr
    have hf : Fits window x ↔ x.clz.toNat ≤ 31 := by
      rw [Fits, or_iff_right hx, or_iff_right hw]
    refine ⟨_, _, r', hd, ha, ?_, fun hfit => ⟨h.started, h.prev, ?_⟩⟩
    · rw [hf]
      constructor
      · intro he
        by_contra hn
        exact shiftLeft_ne hx (by omega) _ he
      · intro hle
        rw [Nat.sub_eq_zero_of_le hle, Nat.add_zero, shiftRight_shiftLeft le_rfl]
    · intro w hw'
      rw [nextWindow, if_neg (not_or.mpr ⟨hx, hw⟩)] at hw'
      obtain rfl := Option.mem_some_iff.mp hw'
      have hle := hf.mp hfit
      refine ⟨⟨Nat.min_le_right _ _, by simp only; omega⟩, rfl, by simp only; omega⟩

theorem After.decode (h : d.After window prev)
    (hr : r.Ahead (codeword window (v ^^^ prev) ++ rest)) :
    ∃ u d' r', d.decode r = .ok (u, d', r') ∧ r'.Ahead rest ∧ (u = v ↔ Fits window (v ^^^ prev)) ∧
      (Fits window (v ^^^ prev) → d'.After (nextWindow window (v ^^^ prev)) v) := by
  obtain rfl := h.prev
  rw [codeword] at hr
  split at hr
  case isTrue hx =>
    obtain ⟨r', h₁, ha⟩ := hr.readBit
    have he := BitVec.xor_eq_zero_iff.mp hx
    refine ⟨d.prevValue, { d with count := d.count + 1 }, r', ?_, ha,
      iff_of_true he.symm (.inl hx), fun _ => ?_⟩
    · simp only [decode, if_neg h.started, h₁, ok_bind]
      rfl
    · rw [nextWindow, if_pos (.inl hx)]
      exact ⟨Nat.succ_ne_zero _, he.symm, h.some⟩
  case isFalse hx =>
    obtain ⟨r₁, h₁, ha₁⟩ := hr.readBit
    obtain ⟨y, d', r', h₂, ha₂, hy, hf⟩ := h.decodeXor hx ha₁
    refine ⟨d.prevValue ^^^ y, { d' with prevValue := d.prevValue ^^^ y, count := d.count + 1 }, r',
      ?_, ha₂, xor_eq_iff.trans hy, fun hfit => ?_⟩
    · simp only [decode, if_neg h.started, h₁, ok_bind, h₂]
      rfl
    · exact ⟨Nat.succ_ne_zero _, xor_eq_iff.mpr <| hy.mpr hfit, (hf hfit).some⟩

theorem After.decodeFrom (h : d.After window prev) (hr : r.Ahead (codewords window prev vs ++ rest))
    : d.decodeFrom r vs.length = .ok vs ↔ ChangesFit window prev vs := by
  induction vs generalizing d r window prev
  case nil => simp [decodeFrom, ChangesFit]
  case cons v vs hi =>
    rw [codewords, List.append_assoc] at hr
    obtain ⟨u, d', r', hd, ha, hu, hf⟩ := h.decode hr
    have hc : d.decodeFrom r (v :: vs).length = .ok (v :: vs) ↔
        u = v ∧ d'.decodeFrom r' vs.length = .ok vs := by
      rw [List.length_cons, decodeFrom, hd, ok_bind]
      cases d'.decodeFrom r' vs.length <;> simp [pure, Except.pure]
    rw [hc, ChangesFit, hu]
    exact and_congr_right fun hfit => hi (hf hfit) ha

end GorillaDecoder

theorem GorillaEncoder.after_first (v : Value) :
    (encode {} v).After none v (toBits 64 v.toNat) := by
  have hb := BitBuffer.holds_empty.writeBits v 64
  rw [List.nil_append] at hb
  refine ⟨Nat.succ_ne_zero 0, rfl, fun _ => rfl, by simp, ?_⟩
  simpa only [encode, if_pos] using hb

theorem GorillaDecoder.decode_first (hr : r.Ahead (toBits 64 v.toNat ++ rest)) :
    ∃ d r', decode {} r = .ok (v, d, r') ∧ r'.Ahead rest ∧ d.After none v := by
  obtain ⟨r', h, ha⟩ := hr.readBits v.isLt
  rw [BitVec.ofNat_toNat] at h
  refine ⟨{ prevValue := v, count := 1 }, r', ?_, ha, ⟨Nat.succ_ne_zero 0, rfl, by simp⟩⟩
  simp only [decode, if_true, h, ok_bind]
  rfl

theorem decompressValues_cons_iff (v : Value) (vs : List Value) :
    decompressValues (compressValues (v :: vs)) (v :: vs).length = .ok (v :: vs) ↔
      ChangesFit none v vs := by
  obtain ⟨pad, hp⟩ := (after_first v).encodeAll vs |>.finish
  have hr := BitReader.ahead_start (compressValues (v :: vs))
  rw [show ofBytes (compressValues (v :: vs)) = _ from hp, List.append_assoc] at hr
  obtain ⟨d, r, hd, ha, h⟩ := decode_first hr
  rw [decompressValues, decodeAll, List.length_cons, decodeFrom, hd, ok_bind, ← h.decodeFrom ha]
  cases d.decodeFrom r vs.length <;> simp [pure, Except.pure]

-- Values come back bit for bit unless a change opens a window with more than 31 leading zeros.
theorem gorilla_round_trip_iff (vs : List Value) :
    decompressValues (compressValues vs) vs.length = .ok vs ↔ WindowsFit vs := by
  cases vs
  case nil => exact iff_of_true rfl trivial
  case cons v vs => exact decompressValues_cons_iff v vs

-- The float that follows 1 comes back as 1 + 2⁻²⁰.
theorem gorilla_next_float_changed :
    decompressValues (compressValues [0x3FF0000000000000, 0x3FF0000000000001]) 2 =
      .ok [0x3FF0000000000000, 0x3FF0000100000000] := by
  decide +kernel

end Tsdb
