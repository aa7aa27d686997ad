import AppliedCs.Lib.Transition
import AppliedCs.NetworkStack.Tcp

open Transition

namespace NetworkStack

inductive CongestionEvent
  | ack (bytesAcked : UInt32)
  | dupAck
  | timeout

namespace CongestionControl

variable (c : CongestionControl)

def step : CongestionEvent → Option CongestionControl
  | .ack bytesAcked => c.onAck bytesAcked
  | .dupAck => some c.onDupAck
  | .timeout => some c.onTimeout

-- The arithmetic of a build with overflow checks, where a number that does not fit is a panic.
def checkedAdd (a b : UInt32) : Option UInt32 :=
  if a.toNat + b.toNat < UInt32.size then some (a + b) else none

def checkedMul (a b : UInt32) : Option UInt32 :=
  if a.toNat * b.toNat < UInt32.size then some (a * b) else none

def onAckChecked (bytesAcked : UInt32) : Option CongestionControl :=
  if c.fastRecovery then
    some { c with cwnd := c.ssthresh, fastRecovery := false, dupAcks := 0 }
  else if c.cwnd < c.ssthresh then
    (checkedAdd c.cwnd bytesAcked).map fun cwnd => { c with cwnd, dupAcks := 0 }
  else if c.cwnd = 0 then
    none
  else
    (checkedMul 1460 bytesAcked).bind fun product =>
      (checkedAdd c.cwnd (product / c.cwnd)).map fun cwnd => { c with cwnd, dupAcks := 0 }

def onDupAckChecked : Option CongestionControl :=
  (checkedAdd c.dupAcks 1).bind fun dupAcks =>
    if dupAcks = 3 ∧ !c.fastRecovery then
      (checkedAdd (c.cwnd / 2) (3 * 1460)).map fun cwnd =>
        { c with dupAcks, ssthresh := c.cwnd / 2, cwnd, fastRecovery := true }
    else if c.fastRecovery then
      (checkedAdd c.cwnd 1460).map fun cwnd => { c with dupAcks, cwnd }
    else
      some { c with dupAcks }

def stepChecked : CongestionEvent → Option CongestionControl
  | .ack bytesAcked => c.onAckChecked bytesAcked
  | .dupAck => c.onDupAckChecked
  | .timeout => some c.onTimeout

-- The update does not panic, computes what the update without checks does, and leaves a window.
def Sound (e : CongestionEvent) : Prop :=
  ∃ c', c.stepChecked e = some c' ∧ c.step e = some c' ∧ 1 ≤ c'.cwnd.toNat

-- The window was not halved to nothing, and the window and the count have room.
def Safe : CongestionEvent → Prop
  | .ack bytesAcked =>
    if c.fastRecovery then c.ssthresh ≠ 0
    else if c.cwnd < c.ssthresh then c.cwnd.toNat + bytesAcked.toNat < UInt32.size
    else c.cwnd.toNat + 1460 * bytesAcked.toNat / c.cwnd.toNat < UInt32.size
  | .dupAck =>
    c.dupAcks.toNat + 1 < UInt32.size ∧ (c.fastRecovery → c.cwnd.toNat + 1460 < UInt32.size)
  | .timeout => True

variable {c}

theorem widen_iff (f : UInt32 → CongestionControl) (hf : ∀ x, (f x).cwnd = x)
    (h : 1 ≤ a.toNat + b.toNat) :
    (∃ c', (checkedAdd a b).map f = some c' ∧ some (f (a + b)) = some c' ∧ 1 ≤ c'.cwnd.toNat) ↔
      a.toNat + b.toNat < UInt32.size := by
  rw [checkedAdd]
  split_ifs with hs
  case neg => simp [hs]
  case pos =>
    refine iff_of_true ⟨_, rfl, rfl, ?_⟩ hs
    rw [hf, UInt32.toNat_add, Nat.mod_eq_of_lt hs]
    exact h

theorem sound_ack_iff (hc : 1 ≤ c.cwnd.toNat) (hb : bytesAcked.toNat ≤ 65535) :
    c.Sound (.ack bytesAcked) ↔ c.Safe (.ack bytesAcked) := by
  have hzero : c.cwnd ≠ 0 := fun he => by simp [he] at hc
  have hfits : 1460 * bytesAcked.toNat < UInt32.size :=
    Nat.lt_of_le_of_lt (Nat.mul_le_mul_left 1460 hb) (by decide)
  have hmul : (1460 * bytesAcked).toNat = 1460 * bytesAcked.toNat := Nat.mod_eq_of_lt hfits
  have hprod : checkedMul 1460 bytesAcked = some (1460 * bytesAcked) := if_pos hfits
  simp only [Sound, Safe, stepChecked, step, onAckChecked, onAck, if_neg hzero, hprod,
    Option.bind_some]
  split_ifs
  case pos => simp [Nat.one_le_iff_ne_zero, ← UInt32.toNat_inj]
  case pos => exact widen_iff _ (fun _ => rfl) (Nat.le_add_right_of_le hc)
  case neg =>
    rw [← hmul, ← UInt32.toNat_div]
    exact widen_iff _ (fun _ => rfl) (Nat.le_add_right_of_le hc)

theorem sound_dupAck_iff (hc : 1 ≤ c.cwnd.toNat) : c.Sound .dupAck ↔ c.Safe .dupAck := by
  simp only [Sound, Safe, stepChecked, step, onDupAckChecked, onDupAck]
  by_cases hd : c.dupAcks.toNat + 1 < UInt32.size
  case neg => simp [checkedAdd, hd]
  have hcount : checkedAdd c.dupAcks 1 = some (c.dupAcks + 1) := if_pos hd
  rw [hcount, Option.bind_some]
  split_ifs with hr hr'
  case pos =>
    have hhalf : (c.cwnd / 2).toNat + 4380 < UInt32.size := by
      have := c.cwnd.toNat_lt
      simp only [UInt32.toNat_div, UInt32.reduceToNat, UInt32.size]
      omega
    have hout : ¬c.fastRecovery := by simpa using hr.2
    exact (widen_iff _ (fun _ => rfl) (Nat.le_add_left_of_le (by decide))).trans
      (iff_of_true hhalf ⟨hd, fun hr => absurd hr hout⟩)
  case pos =>
    exact (widen_iff _ (fun _ => rfl) (Nat.le_add_right_of_le hc)).trans
      ⟨fun hw => ⟨hd, fun _ => hw⟩, fun hw => hw.2 hr'⟩
  case neg => simp [hd, hr', hc]

-- What the other end may acknowledge.
def Possible : CongestionEvent → Prop
  | .ack bytesAcked => 1 ≤ bytesAcked.toNat ∧ bytesAcked.toNat ≤ 65535
  | .dupAck | .timeout => True

theorem sound_iff (hc : 1 ≤ c.cwnd.toNat) (hp : Possible e) : c.Sound e ↔ c.Safe e := by
  cases e
  case ack => exact sound_ack_iff hc hp.2
  case dupAck => exact sound_dupAck_iff hc
  case timeout => exact iff_of_true ⟨_, rfl, rfl, (by decide : 1 ≤ (1460 : UInt32).toNat)⟩ trivial

theorem arithmetic_safe_iff (r : Reaches step (fun c e => Possible e ∧ c.Safe e) {} c) :
    1 ≤ c.cwnd.toNat ∧ ∀ e, Possible e → (c.Sound e ↔ c.Safe e) := by
  have hc : 1 ≤ c.cwnd.toNat := by
    refine r.invariant (P := fun c => 1 ≤ c.cwnd.toNat) (by decide) fun hc ⟨hp, ho⟩ hs => ?_
    obtain ⟨c', -, hs', hc'⟩ := (sound_iff hc hp).mpr ho
    exact Option.some.inj (hs'.symm.trans hs) ▸ hc'
  exact ⟨hc, fun e => sound_iff hc⟩

instance : DecidablePred Possible
  | .ack _ => inferInstanceAs <| Decidable (_ ∧ _)
  | .dupAck | .timeout => .isTrue trivial

instance : DecidablePred c.Safe
  | .ack _ => inferInstanceAs <| Decidable (if c.fastRecovery then _ else
      if c.cwnd < c.ssthresh then _ else _)
  | .dupAck => inferInstanceAs <| Decidable (_ ∧ _)
  | .timeout => .isTrue trivial

-- Fast recovery, congestion avoidance, a timeout and slow start.
theorem arithmetic_safe_after_loss : ∃ c, Reaches step (fun c e => Possible e ∧ c.Safe e) {} c ∧
    c.cwnd = 2920 ∧ c.ssthresh = 3796 ∧ c.Sound (.ack 1460) := by
  obtain ⟨c, r, hw, ht, hs⟩ : ∃ c, Reaches step (fun c e => Possible e ∧ c.Safe e) {} c ∧
      c.cwnd = 2920 ∧ c.ssthresh = 3796 ∧ c.Safe (.ack 1460) :=
    Reaches.exists_of_run [.dupAck, .dupAck, .dupAck, .dupAck, .ack 1460, .ack 1460, .timeout,
      .ack 1460] (by decide +kernel)
  exact ⟨c, r, hw, ht, ((arithmetic_safe_iff r).2 _ (by decide)).mpr hs⟩

-- Three duplicates and the acknowledgement that ends the recovery halve the window. An
-- acknowledgement then divides by it.
theorem window_halved_to_nothing :
    (run step anyEvent {} (List.replicate 14 [.dupAck, .dupAck, .dupAck, .ack 1]).flatten).map
      (fun c => (c.cwnd, c.step (.ack 1))) = some (0, none) := by
  decide +kernel

end CongestionControl

end NetworkStack
