import AppliedCs.Lib.Transition
import AppliedCs.NetworkStack.Theorems.Tcp

open SerialNumber Transition

namespace NetworkStack

open TcpConnection List

namespace TcpConnection

variable {c : TcpConnection} {segment : TcpSegment}

def Full (c : TcpConnection) (wnd : UInt16) (cwnd una : UInt32) : Prop :=
  min wnd.toUInt32 cwnd ≤ c.send.nxt - una

-- Nothing is left to be sent, or the window does not allow it.
def Flushed (c : TcpConnection) : Prop :=
  c.sendBuffer = [] ∨ c.Full c.send.wnd c.congestion.cwnd c.send.una

instance (c : TcpConnection) : Decidable c.Flushed :=
  inferInstanceAs <| Decidable (c.sendBuffer = [] ∨ min _ _ ≤ _)

theorem flushed_of_nextSegment (h : c.nextSegment now = none) (hm : c.mss ≠ 0)
    (hl : c.sendBuffer.length < UInt32.size) : c.Flushed := by
  by_contra hf
  obtain ⟨hb, hw⟩ := not_or.mp hf
  have hlen : UInt32.ofNat c.sendBuffer.length ≠ 0 := fun he => hb <| length_eq_zero_iff.mp <| by
    rw [← UInt32.toNat_ofNat_of_lt' hl, he, UInt32.toNat_zero]
  have hmss : c.mss.toUInt32 ≠ 0 := fun he => hm <| UInt16.toUInt32_inj.mp he
  have hopen : min c.send.wnd.toUInt32 c.congestion.cwnd - (c.send.nxt - c.send.una) ≠ 0 :=
    fun he => hw <| UInt32.le_of_eq <| (UInt32.sub_eq_iff_eq_add.mp he).trans (UInt32.zero_add _)
  have hmin {a b : UInt32} (ha : a ≠ 0) (hb : b ≠ 0) : min a b ≠ 0 := by
    rw [min_def]
    split_ifs <;> assumption
  simp only [nextSegment, ite_eq_left_iff, reduceCtorEq, imp_false, not_not, Bool.or_eq_true,
    List.isEmpty_iff, hb, decide_eq_true_eq, ge_iff_le, false_or, beq_iff_eq] at h
  exact h.elim hw (hmin (hmin hopen hmss) hlen)

theorem flushed_fillWindow (hm : c.mss ≠ 0) (hl : c.sendBuffer.length < UInt32.size)
    (hn : c.sendBuffer.length ≤ n) : (c.fillWindow now n).2.Flushed := by
  induction n generalizing c
  case zero => exact .inl (length_eq_zero_iff.mp (Nat.le_zero.mp hn))
  case succ n hi =>
    rw [fillWindow]
    cases hs : c.nextSegment now
    case none => exact flushed_of_nextSegment hs hm hl
    case some r =>
      have hsends := nextSegment_eq_some hs
      have hlen : r.2.sendBuffer.length < c.sendBuffer.length := by
        rw [← hsends.buffer, length_append]
        exact Nat.lt_add_of_pos_left (length_pos_iff.mpr hsends.payload)
      exact hi (hsends.limits.1 ▸ hm) (hlen.trans hl) (Nat.le_of_lt_succ (hlen.trans_le hn))

-- The window takes more bytes.
def Room (c : TcpConnection) (n : ℕ) : Prop :=
  (c.send.nxt - c.send.una).toNat + n ≤ (min c.send.wnd.toUInt32 c.congestion.cwnd).toNat

theorem sendBuffer_fillWindow (hm : c.mss ≠ 0) (hr : c.Room c.sendBuffer.length)
    (hn : c.sendBuffer.length ≤ n) : (c.fillWindow now n).2.sendBuffer = [] := by
  induction n generalizing c
  case zero => exact length_eq_zero_iff.mp (Nat.le_zero.mp hn)
  case succ n hi =>
    have hlt := (min c.send.wnd.toUInt32 c.congestion.cwnd).toNat_lt
    rw [Room] at hr
    rw [fillWindow]
    cases hs : c.nextSegment now
    case none =>
      obtain hb | hw := flushed_of_nextSegment hs hm (by rw [UInt32.size]; omega)
      · exact hb
      · have := UInt32.le_iff_toNat_le.mp hw
        have hz : c.sendBuffer.length = 0 := by omega
        exact length_eq_zero_iff.mp hz
    case some r =>
      have hsends := nextSegment_eq_some hs
      obtain ⟨hmss, huna, hwnd, hcwnd⟩ := hsends.limits
      have hpos := length_pos_iff.mpr hsends.payload
      have hlen := congrArg length hsends.buffer
      rw [length_append] at hlen
      refine hi (hmss ▸ hm) ?_ (by omega)
      rw [Room, hsends.nxt, huna, hwnd, hcwnd, advance, UInt32.sub_eq_add_neg, UInt32.add_assoc,
        UInt32.add_comm (.ofNat _), ← UInt32.add_assoc, ← UInt32.sub_eq_add_neg, UInt32.toNat_add,
        UInt32.toNat_ofNat', Nat.add_mod_mod, Nat.mod_eq_of_lt] <;> omega

theorem fillWindow_sends (n : ℕ) : let r := c.fillWindow now n
    r.1.flatMap (·.payload) ++ r.2.sendBuffer = c.sendBuffer ∧
      r.2.send.nxt = advance c.send.nxt (r.1.flatMap (·.payload)).length := by
  induction n generalizing c
  case zero => simp [fillWindow, advance]
  case succ n hi =>
    rw [fillWindow]
    cases hs : c.nextSegment now
    case none => simp [advance]
    case some r =>
      have hsends := nextSegment_eq_some hs
      obtain ⟨hb, hn⟩ := hi (c := r.2)
      dsimp only at hb hn ⊢
      refine ⟨by rw [flatMap_cons, append_assoc, hb, hsends.buffer], ?_⟩
      rw [hn, hsends.nxt, flatMap_cons, length_append]
      simp [advance, UInt32.add_assoc]

-- Whether the window is still full after an acknowledgement.
def StaysFull (c : TcpConnection) (ackNum : UInt32) (window : UInt16) : Prop :=
  if !c.isValidAck ackNum then c.Full c.send.wnd c.congestion.cwnd c.send.una
  else if ackNum = c.send.una then c.Full c.send.wnd c.congestion.onDupAck.cwnd c.send.una
  else ∀ congestion ∈ c.congestion.onAck (ackNum - c.send.una), c.Full window congestion.cwnd ackNum

theorem flushed_processAck [RttAverage] (h : c.processAck ackNum window now = some c') :
    c'.Flushed ↔ c.sendBuffer = [] ∨ c.StaysFull ackNum window := by
  rw [processAck] at h
  rw [StaysFull]
  split_ifs at h ⊢
  case pos => exact Option.some.inj h ▸ Iff.rfl
  case pos => exact Option.some.inj h ▸ Iff.rfl
  case neg =>
    simp only [Option.bind_eq_bind, Option.bind_eq_some_iff, Option.some.injEq] at h
    obtain ⟨congestion, hc, rfl⟩ := h
    simp only [hc, Option.mem_some_iff, forall_eq']
    -- The round-trip time has nothing to do with the window.
    refine or_congr_right ?_
    dsimp only [Full]
    split
    · split_ifs <;> exact Iff.rfl
    · exact Iff.rfl

variable [RttAverage]

theorem onSegment_sender (hs : c.state = .established)
    (h : c.onSegment segment now = some (r, c')) :
    ∃ c₁, c.takeAck segment now = some c₁ ∧ c'.send = c₁.send ∧ c'.congestion = c₁.congestion ∧
      c'.sendBuffer = c₁.sendBuffer ∧ (c'.state = .established ∨ c'.state = .closeWait) := by
  simp only [onSegment, hs] at h
  obtain ⟨p, hp, he⟩ := Option.map_eq_some_iff.mp h
  obtain rfl : p.2 = c' := congrArg Prod.snd he
  obtain ⟨c₁, h₁, hp⟩ := Option.bind_eq_some_iff.mp hp
  have hsame : SameSender c₁ (c₁.takePayload segment).2 := takePayload_same
  have hstate := hsame.state.trans <| (takeAck_same h₁).2.state.trans hs
  refine ⟨c₁, h₁, ?_⟩
  -- A FIN only changes the state.
  split_ifs at hp
  case pos =>
    exact Option.some.inj hp ▸ ⟨hsame.send, hsame.congestion, hsame.buffer, .inr rfl⟩
  case neg =>
    exact Option.some.inj hp ▸ ⟨hsame.send, hsame.congestion, hsame.buffer, .inl hstate⟩

theorem flushed_onSegment (hs : c.state = .established) (ha : segment.flags.contains .ack)
    (h : c.onSegment segment now = some (r, c')) :
    c'.Flushed ↔ c.sendBuffer = [] ∨ c.StaysFull segment.ackNum segment.window := by
  obtain ⟨c₁, h₁, hsend, hcongestion, hb, -⟩ := onSegment_sender hs h
  rw [takeAck, if_pos ha] at h₁
  rw [← flushed_processAck h₁, Flushed, Flushed, Full, Full, hsend, hcongestion, hb]

end TcpConnection

-- A connection with the bytes that `send` has accepted and those that are in segments.
structure Sender where
  conn : TcpConnection
  accepted : List UInt8 := []
  sent : List UInt8 := []

namespace Sender

inductive Event
  | send (data : List UInt8) (now : ℕ)
  | onSegment (segment : TcpSegment) (now : ℕ)
  | getRetransmits (now : ℕ)
  | read

def step [RttAverage] (s : Sender) : Event → Option Sender
  | .send data now =>
    match s.conn.sendData data now with
    | (.error _, _) => none
    | (.ok segments, conn) => some {
        conn
        accepted := s.accepted ++ data
        sent := s.sent ++ segments.flatMap (·.payload) }
  | .onSegment segment now => (s.conn.onSegment segment now).map fun r => { s with conn := r.2 }
  | .getRetransmits now => some { s with conn := (s.conn.getRetransmits now).2 }
  | .read => some { s with conn := s.conn.read.2 }

structure Inv (first : UInt32) (s : Sender) : Prop where
  state : s.conn.state = .established ∨ s.conn.state = .closeWait
  stream : s.sent ++ s.conn.sendBuffer = s.accepted
  nxt : s.conn.send.nxt = advance first s.sent.length

theorem Inv.step [RttAverage] (h : Inv first s) (hs : s.step e = some s') : Inv first s' := by
  cases e
  case send data now =>
    by_cases he : s.conn.state = .established
    case neg => simp [Sender.step, sendData, he] at hs
    rw [Sender.step, sendData, if_neg (not_not_intro he)] at hs
    obtain rfl := Option.some.inj hs
    set c := { s.conn with sendBuffer := s.conn.sendBuffer ++ data }
    have hstate : SameIncoming c (c.flushSendBuffer now).2 := fillWindow_same _
    obtain ⟨hb, hn⟩ := @fillWindow_sends c now c.sendBuffer.length
    refine ⟨.inl (hstate.state.trans he), ?_, ?_⟩
    · rw [append_assoc, ← h.stream, append_assoc]
      exact congrArg _ hb
    · refine hn.trans ?_
      dsimp only
      rw [@length_append _ s.sent, advance, advance, UInt32.ofNat_add, ← UInt32.add_assoc]
      exact congrArg (· + _) h.nxt
  case onSegment segment now =>
    obtain ⟨p, hp, rfl⟩ := Option.map_eq_some_iff.mp hs
    cases h.state
    case inl he =>
      obtain ⟨c₁, h₁, hsend, -, hb, hstate⟩ := onSegment_sender he hp
      have hout := (takeAck_same h₁).2
      refine ⟨hstate, ?_, ?_⟩
      · rw [hb, hout.buffer, h.stream]
      · rw [hsend, hout.nxt, h.nxt]
    case inr he =>
      simp only [TcpConnection.onSegment, he] at hp
      exact Option.some.inj hp ▸ ⟨h.state, h.stream, h.nxt⟩
  case getRetransmits | read => exact Option.some.inj hs ▸ ⟨h.state, h.stream, h.nxt⟩

-- All data that is sent fits into the window.
def Fits (s : Sender) : Event → Prop
  | .send data _ => s.conn.mss ≠ 0 ∧ s.conn.Room data.length
  | _ => True

instance (s : Sender) : DecidablePred s.Fits
  | .send .. => inferInstanceAs <| Decidable (_ ∧ _ ≤ _)
  | .onSegment .. | .getRetransmits _ | .read => .isTrue trivial

theorem Inv.sendBuffer_step [RttAverage] (h : Inv first s) (hb : s.conn.sendBuffer = [])
    (hf : s.Fits e) (hs : s.step e = some s') : s'.conn.sendBuffer = [] := by
  have hstream := (h.step hs).stream
  cases e
  case send data now =>
    by_cases he : s.conn.state = .established
    case neg => simp [Sender.step, sendData, he] at hs
    rw [Sender.step, sendData, if_neg (not_not_intro he)] at hs
    obtain rfl := Option.some.inj hs
    refine sendBuffer_fillWindow hf.1 ?_ (Nat.le_refl _)
    rw [hb, nil_append]
    exact hf.2
  case onSegment =>
    obtain ⟨p, -, rfl⟩ := Option.map_eq_some_iff.mp hs
    exact (append_cancel_left (hstream.trans h.stream.symm)).trans hb
  case getRetransmits | read => exact Option.some.inj hs ▸ hb

-- Data is left behind when an acknowledgement opens the window, which nobody uses, and when the
-- connection is closed.
theorem strands_nothing_iff [RttAverage] {c : TcpConnection} {s : Sender}
    (hc : c.state = .established) (hb : c.sendBuffer = [])
    (h : Reaches step anyEvent { conn := c } s) :
    (∀ data now, s.conn.state = .established → s.conn.mss ≠ 0 →
      (s.conn.sendBuffer ++ data).length < UInt32.size → (s.conn.sendData data now).2.Flushed) ∧
    (∀ segment now r c', s.conn.state = .established → segment.flags.contains .ack →
      s.conn.onSegment segment now = some (r, c') →
      (c'.Flushed ↔ s.conn.sendBuffer = [] ∨ s.conn.StaysFull segment.ackNum segment.window)) ∧
    (∀ fin c', s.conn.close = (.ok (some fin), c') →
      (s.sent = s.accepted ∧ fin.seqNum = advance c.send.nxt s.accepted.length ↔
        s.conn.sendBuffer = [])) ∧
    (Reaches step Fits { conn := c } s → s.conn.sendBuffer = []) := by
  have start : Inv c.send.nxt { conn := c } := ⟨.inl hc, hb, by simp [advance]⟩
  have inv : Inv c.send.nxt s := h.invariant start fun h _ hs => h.step hs
  refine ⟨fun data now hs hm hl => ?_, fun _ _ _ _ hs ha hr => flushed_onSegment hs ha hr, ?_,
    fun hfits => (hfits.invariant (P := fun s => Inv c.send.nxt s ∧ s.conn.sendBuffer = [])
      ⟨start, hb⟩ fun h hf hs => ⟨h.1.step hs, h.1.sendBuffer_step h.2 hf hs⟩).2⟩
  · rw [sendData, if_neg (not_not_intro hs)]
    exact flushed_fillWindow hm hl (Nat.le_refl _)
  · intro fin c' hf
    have hseq : fin.seqNum = s.conn.send.nxt := by
      rcases inv.state with hs | hs
      all_goals
        simp only [close, hs, Prod.mk.injEq, Except.ok.injEq, Option.some.injEq] at hf
        exact hf.1 ▸ rfl
    constructor
    · rintro ⟨he, -⟩
      rw [← inv.stream] at he
      exact append_right_eq_self.mp he.symm
    · intro he
      have hall : s.sent = s.accepted := by rw [← inv.stream, he, append_nil]
      exact ⟨hall, by rw [hseq, inv.nxt, hall]⟩

local instance roundedMean : RttAverage := .rounded

-- The peer's window takes two bytes.
def narrow : TcpConnection :=
  { TcpConnection.new 0 1 2 with state := .established, send := ⟨1, 1, 2, 0⟩ }

def ackOf (ackNum : UInt32) : TcpSegment :=
  { srcPort := 2, dstPort := 1, ackNum, flags := .ack, window := 2 }

theorem two_bytes_sent : ∃ s, Reaches step anyEvent { conn := narrow } s ∧ s.accepted = [7, 8] ∧
    s.sent = s.accepted ∧ (s.conn.sendData [9] 1).2.Flushed ∧
    ∃ r c', s.conn.onSegment (ackOf 3) 1 = some (r, c') ∧ c'.Flushed := by
  obtain ⟨s, r, ha, he, hm, hack⟩ : ∃ s, Reaches step Fits { conn := narrow } s ∧
      s.accepted = [7, 8] ∧ s.conn.state = .established ∧ s.conn.mss ≠ 0 ∧
      (s.conn.onSegment (ackOf 3) 1).isSome :=
    Reaches.exists_of_run [.send [7] 0, .send [8] 0] (by decide +kernel)
  have hany : Reaches step anyEvent { conn := narrow } s :=
    Relation.ReflTransGen.mono (fun _ _ ⟨e, _, hs⟩ => ⟨e, trivial, hs⟩) _ _ r
  obtain ⟨hsend, hflush, hclose, hfits⟩ := strands_nothing_iff rfl rfl hany
  have hb := hfits r
  have hfin := hclose (s.conn.reply (.fin ||| .ack) s.conn.availableWindow)
    { s.conn with state := .finWait1, send.nxt := s.conn.send.nxt + 1 }
    (by simp only [close, he]; rfl)
  obtain ⟨p, hp⟩ := Option.isSome_iff_exists.mp hack
  exact ⟨s, hany, ha, (hfin.mpr hb).1, hsend [9] 1 he hm (by rw [hb]; decide), p.1, p.2, hp,
    (hflush _ _ _ _ he (by decide) hp).mpr (.inl hb)⟩

-- The third byte is not sent when the others are acknowledged, and the FIN gets its number.
theorem last_byte_stranded : ∃ s, Reaches step anyEvent { conn := narrow } s ∧
    s.accepted = [7, 8, 9] ∧ s.sent = [7, 8] ∧ ¬ s.conn.Flushed ∧
    s.conn.close.1.toOption.join.map (·.seqNum) = some 3 :=
  Reaches.exists_of_run [.send [7, 8, 9] 0, .onSegment (ackOf 3) 1] (by decide +kernel)

end Sender

end NetworkStack
