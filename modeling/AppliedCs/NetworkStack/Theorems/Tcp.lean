import AppliedCs.Lib.Reassembly
import AppliedCs.NetworkStack.Tcp

open SerialNumber Reassembly

namespace NetworkStack

open List

namespace TcpConnection

variable {c : TcpConnection} {segment : TcpSegment}
-- The part of the connection that puts the incoming stream together.
def incoming (c : TcpConnection) : Window UInt32 UInt8 :=
  ⟨c.recv.nxt, c.recvBuffer, c.oooSegments⟩

def advance (seq : UInt32) (n : ℕ) : UInt32 :=
  seq + UInt32.ofNat n

-- What everything but incoming data leaves alone.
structure SameIncoming (c c' : TcpConnection) : Prop where
  state : c'.state = c.state
  incoming : c'.incoming = c.incoming

-- What everything but sending leaves alone; acknowledged entries may leave the queue.
structure SameOutgoing (c c' : TcpConnection) : Prop where
  state : c'.state = c.state
  nxt : c'.send.nxt = c.send.nxt
  buffer : c'.sendBuffer = c.sendBuffer
  queue : ∀ e ∈ c'.retransmitQueue.values, e ∈ c.retransmitQueue.values

theorem SameIncoming.rfl : SameIncoming c c :=
  ⟨.refl _, .refl _⟩

theorem SameIncoming.trans (h : SameIncoming c c') (h' : SameIncoming c' c'') :
    SameIncoming c c'' :=
  ⟨h'.state.trans h.state, h'.incoming.trans h.incoming⟩

theorem SameOutgoing.rfl : SameOutgoing c c :=
  ⟨.refl _, .refl _, .refl _, fun _ => id⟩

theorem SameOutgoing.trans (h : SameOutgoing c c') (h' : SameOutgoing c' c'') :
    SameOutgoing c c'' where
  state := h'.state.trans h.state
  nxt := h'.nxt.trans h.nxt
  buffer := h'.buffer.trans h.buffer
  queue := fun e he => h.queue e (h'.queue e he)

section ProcessAck

variable [RttAverage]

theorem processAck_same (h : c.processAck ackNum window now = some c') :
    SameIncoming c c' ∧ SameOutgoing c c' := by
  rw [processAck] at h
  split_ifs at h
  case pos => exact Option.some.inj h ▸ ⟨.rfl, .rfl⟩
  case pos => exact Option.some.inj h ▸ ⟨⟨rfl, rfl⟩, ⟨rfl, rfl, rfl, fun _ => id⟩⟩
  case neg =>
    simp only [Option.bind_eq_bind, Option.bind_eq_some_iff, Option.some.injEq] at h
    obtain ⟨congestion, -, rfl⟩ := h
    refine ⟨⟨rfl, rfl⟩, ⟨rfl, rfl, rfl, fun e he => ?_⟩⟩
    exact (filter_sublist.map Prod.snd).subset he

-- An acknowledgement of new data divides by the congestion window, unless it ends the recovery.
def DividesByZero (c : TcpConnection) (segment : TcpSegment) : Prop :=
  segment.flags.contains .ack ∧ c.isValidAck segment.ackNum ∧ segment.ackNum ≠ c.send.una ∧
    ¬ c.congestion.fastRecovery ∧ ¬ c.congestion.cwnd < c.congestion.ssthresh ∧
      c.congestion.cwnd = 0

theorem isSome_takeAck_iff : (c.takeAck segment now).isSome ↔ ¬ c.DividesByZero segment := by
  simp only [takeAck, DividesByZero, processAck, CongestionControl.onAck]
  split_ifs <;> simp_all

theorem takeAck_same (h : c.takeAck segment now = some c') :
    SameIncoming c c' ∧ SameOutgoing c c' := by
  rw [takeAck] at h
  split_ifs at h
  case pos => exact processAck_same h
  case neg => exact Option.some.inj h ▸ ⟨.rfl, .rfl⟩

end ProcessAck

section ProcessData

theorem incoming_drainOoo (n : ℕ) : (c.drainOoo n).incoming = drain advance n c.incoming := by
  induction n generalizing c
  case zero => rfl
  case succ n hi =>
    have hw : c.incoming.waiting.get? c.incoming.next = c.oooSegments.get? c.recv.nxt := rfl
    rw [drainOoo, drain, hw]
    cases c.oooSegments.get? c.recv.nxt
    case none => rfl
    case some d => exact hi

-- What incoming data leaves alone.
structure SameSender (c c' : TcpConnection) : Prop where
  state : c'.state = c.state
  send : c'.send = c.send
  congestion : c'.congestion = c.congestion
  buffer : c'.sendBuffer = c.sendBuffer
  queue : c'.retransmitQueue = c.retransmitQueue

theorem SameSender.outgoing (h : SameSender c c') : SameOutgoing c c' :=
  ⟨h.state, h.send ▸ rfl, h.buffer, h.queue ▸ fun _ => id⟩

theorem drainOoo_same (n : ℕ) : SameSender c (c.drainOoo n) := by
  induction n generalizing c
  case zero => exact ⟨rfl, rfl, rfl, rfl, rfl⟩
  case succ n hi =>
    rw [drainOoo]
    split
    · exact ⟨rfl, rfl, rfl, rfl, rfl⟩
    · exact ⟨hi.state, hi.send, hi.congestion, hi.buffer, hi.queue⟩

theorem incoming_processData :
    (c.processData seq data).2.incoming = receive advance isSeqAfter c.incoming seq data := by
  have hnext : c.incoming.next = c.recv.nxt := rfl
  simp only [processData, receive, hnext]
  split_ifs
  case pos => exact incoming_drainOoo _
  all_goals rfl

theorem takePayload_same : SameSender c (c.takePayload segment).2 := by
  simp only [takePayload, processData]
  split_ifs
  case pos =>
    have h := drainOoo_same (c := { c with
      recvBuffer := c.recvBuffer ++ segment.payload
      recv.nxt := c.recv.nxt + UInt32.ofNat segment.payload.length }) c.oooSegments.entries.length
    exact ⟨h.state, h.send, h.congestion, h.buffer, h.queue⟩
  all_goals exact ⟨rfl, rfl, rfl, rfl, rfl⟩

end ProcessData

section OnSegment

variable [RttAverage]

theorem onSegment_established (hs : c.state = .established)
    (hf : segment.flags.contains .fin = false) : c.onSegment segment now =
      (c.takeAck segment now).map fun c => (c.takePayload segment).map .ok id := by
  simp only [onSegment, hs, onEstablished, hf]
  cases c.takeAck segment now <;> rfl

-- A segment without FIN is an acknowledgement, data or both.
theorem onSegment_eq_some (hs : c.state = .established) (hf : segment.flags.contains .fin = false)
    (h : c.onSegment segment now = some (r, c')) : SameOutgoing c c' ∧ c'.incoming =
      if segment.payload = [] then c.incoming
      else receive advance isSeqAfter c.incoming segment.seqNum segment.payload := by
  rw [onSegment_established hs hf, Option.map_eq_some_iff] at h
  obtain ⟨c₁, hc, h⟩ := h
  obtain rfl : (c₁.takePayload segment).2 = c' := congrArg Prod.snd h
  have ⟨hin, hout⟩ := takeAck_same hc
  refine ⟨hout.trans takePayload_same.outgoing, ?_⟩
  rw [takePayload, ← hin.incoming]
  by_cases hp : segment.payload = []
  case pos => simp [hp]
  case neg => simpa [hp] using incoming_processData

end OnSegment

theorem contains_fin_data : TcpFlags.contains (.ack ||| .psh) .fin = false := by
  decide

section Flush

-- What one round of the loop does: the front of the send buffer leaves in a segment.
structure Sends (c : TcpConnection) (segment : TcpSegment) (c' : TcpConnection) : Prop
    extends SameIncoming c c' where
  seq : segment.seqNum = c.send.nxt
  payload : segment.payload ≠ []
  fin : segment.flags.contains .fin = false
  buffer : segment.payload ++ c'.sendBuffer = c.sendBuffer
  nxt : c'.send.nxt = advance c.send.nxt segment.payload.length
  limits : c'.mss = c.mss ∧ c'.send.una = c.send.una ∧ c'.send.wnd = c.send.wnd ∧
    c'.congestion = c.congestion
  queue : ∀ e ∈ c'.retransmitQueue.values, e ∈ c.retransmitQueue.values ∨
    e.seq = segment.seqNum ∧ e.data = segment.payload

theorem nextSegment_eq_some (h : c.nextSegment now = some (segment, c')) : Sends c segment c' := by
  simp only [nextSegment, Option.ite_none_left_eq_some, Option.some.injEq, Prod.mk.injEq,
    Bool.not_eq_true, Bool.or_eq_false_iff] at h
  set toSend := min (min (min c.send.wnd.toUInt32 c.congestion.cwnd - (c.send.nxt - c.send.una))
    c.mss.toUInt32) (UInt32.ofNat c.sendBuffer.length)
  obtain ⟨⟨⟨hbuf, -⟩, hzero⟩, rfl, rfl⟩ := h
  have hle : toSend.toNat ≤ c.sendBuffer.length := by
    have hmin : toSend ≤ UInt32.ofNat c.sendBuffer.length := min_le_right _ _
    exact (UInt32.le_iff_toNat_le.mp hmin).trans <| UInt32.toNat_ofNat ▸ Nat.mod_le ..
  have hlen : (c.sendBuffer.take toSend.toNat).length = toSend.toNat := length_take_of_le hle
  have hpos : toSend.toNat ≠ 0 := fun he => by
    simp [UInt32.toNat_inj.mp (he.trans UInt32.toNat_zero.symm)] at hzero
  exact {
    state := rfl
    incoming := rfl
    seq := rfl
    payload := fun he => hpos <| hlen.symm.trans <| congrArg length he
    fin := contains_fin_data
    buffer := take_append_drop ..
    nxt := by rw [advance, hlen, UInt32.ofNat_toNat]
    limits := ⟨rfl, rfl, rfl, rfl⟩
    queue := fun e he => (SortedMap.mem_values_insert he).symm.imp_right fun heq => by
      rw [heq]
      exact ⟨rfl, rfl⟩ }

theorem fillWindow_same (n : ℕ) : SameIncoming c (c.fillWindow now n).2 := by
  induction n generalizing c
  case zero => exact .rfl
  case succ n hi =>
    rw [fillWindow]
    cases hn : c.nextSegment now
    case none => exact .rfl
    case some r => exact (nextSegment_eq_some hn).toSameIncoming.trans hi

theorem sendData_same : SameIncoming c (c.sendData data now).2 := by
  rw [sendData]
  split_ifs
  case pos => exact .rfl
  case neg =>
    have h : SameIncoming _ (fillWindow now (c.sendBuffer ++ data).length
      { c with sendBuffer := c.sendBuffer ++ data }).2 := fillWindow_same _
    exact ⟨h.state, h.incoming⟩

end Flush

section Retransmits

theorem mem_getRetransmits (h : segment ∈ (c.getRetransmits now).1) :
    segment.flags.contains .fin = false ∧
      ∃ e ∈ c.retransmitQueue.values, segment.seqNum = e.seq ∧ segment.payload = e.data := by
  obtain ⟨e, he, rfl⟩ := mem_map.mp h
  exact ⟨contains_fin_data, e, (mem_filter.mp he).1, rfl, rfl⟩

theorem mem_retransmitQueue (h : e ∈ (c.getRetransmits now).2.retransmitQueue.values) :
    ∃ e' ∈ c.retransmitQueue.values, e.seq = e'.seq ∧ e.data = e'.data := by
  simp only [getRetransmits, SortedMap.values, SortedMap.map, map_map, mem_map] at h
  obtain ⟨p, hp, rfl⟩ := h
  refine ⟨p.2, mem_map_of_mem hp, ?_⟩
  dsimp only [Function.comp_apply]
  split_ifs <;> exact ⟨rfl, rfl⟩

end Retransmits

end TcpConnection

end NetworkStack
