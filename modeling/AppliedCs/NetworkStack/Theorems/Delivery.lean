import AppliedCs.Lib.Transition
import AppliedCs.NetworkStack.Theorems.Tcp

open SerialNumber Reassembly Transition

namespace NetworkStack

open TcpConnection List Option

-- One direction of a connection over a network that reorders, duplicates and loses segments.
-- `sent` are the payloads of the segments that `send` returned, `network` are all segments that
-- were transmitted, `delivered` those that the receiver has processed.
structure Transfer where
  sender : TcpConnection
  receiver : TcpConnection
  accepted : List UInt8
  sent : List (List UInt8)
  network : List TcpSegment
  delivered : List TcpSegment
  output : List UInt8

namespace Transfer

inductive Event
  | send (data : List UInt8) (now : ℕ)
  | getRetransmits (now : ℕ)
  | onSegment (segment : TcpSegment) (now : ℕ)
  | deliver (segment : TcpSegment) (now : ℕ)
  | read
  -- the receiver may send data of its own and gets segments without payload
  | answer (data : List UInt8) (now : ℕ)
  | answerAgain (now : ℕ)
  | acknowledge (segment : TcpSegment) (now : ℕ)

def new (a b : TcpConnection) : Transfer :=
  ⟨a, b, [], [], [], [], []⟩

def step [RttAverage] (s : Transfer) : Event → Option Transfer
  | .send data now =>
    match s.sender.sendData data now with
    | (.error _, _) => none
    | (.ok segments, sender) => some { s with
        sender := sender
        accepted := s.accepted ++ data
        sent := s.sent ++ segments.map (·.payload)
        network := s.network ++ segments }
  | .getRetransmits now =>
    let r := s.sender.getRetransmits now
    some { s with sender := r.2, network := s.network ++ r.1 }
  | .onSegment segment now =>
    if segment.flags.contains .fin then
      none
    else
      (s.sender.onSegment segment now).map fun r => { s with sender := r.2 }
  | .deliver segment now =>
    if segment ∈ s.network then
      (s.receiver.onSegment segment now).map fun r =>
        { s with receiver := r.2, delivered := segment :: s.delivered }
    else
      none
  | .read =>
    let r := s.receiver.read
    some { s with receiver := r.2, output := s.output ++ r.1 }
  | .answer data now => some { s with receiver := (s.receiver.sendData data now).2 }
  | .answerAgain now => some { s with receiver := (s.receiver.getRetransmits now).2 }
  | .acknowledge segment now =>
    if segment.flags.contains .fin || !segment.payload.isEmpty then
      none
    else
      (s.receiver.onSegment segment now).map fun r => { s with receiver := r.2 }

-- Two connections between which nothing has been sent yet.
structure Connected (a b : TcpConnection) : Prop where
  sender : a.state = .established
  receiver : b.state = .established
  nxt : b.recv.nxt = a.send.nxt
  unsent : a.sendBuffer = []
  queue : a.retransmitQueue = ∅
  unread : b.recvBuffer = []
  ooo : b.oooSegments = ∅

-- The three segments that open a connection.
def handshake [RttAverage] (a b : TcpConnection) (now : ℕ) :
    Option (TcpConnection × TcpConnection) :=
  match a.connect, b.listen with
  | (.ok syn, a), (.ok (), b) =>
    (b.onSegment syn now).bind fun
      | (.ok (some synAck), b) =>
        (a.onSegment synAck now).bind fun
          | (.ok (some ack), a) => (b.onSegment ack now).map fun r => (a, r.2)
          | _ => none
      | _ => none
  | _, _ => none

def opened (iss irs : UInt32) (localPort remotePort : UInt16) : TcpConnection :=
  { TcpConnection.new iss localPort remotePort with
    state := .established
    send := ⟨iss + 1, iss + 1, 65535, iss⟩
    recv := .new irs }

theorem opened_connected (x y : UInt32) (p q : UInt16) :
    Connected (opened x y p q) (opened y x q p) :=
  ⟨rfl, rfl, rfl, rfl, rfl, rfl, rfl⟩

theorem handshake_eq [RttAverage] (x y : UInt32) (p q : UInt16) (now : ℕ) :
    handshake (.new x p q) (.new y q p) now = some (opened x y p q, opened y x q p) := by
  have hsyn : TcpFlags.contains .syn .syn = true := by decide
  have hsynAck : TcpFlags.contains (.syn ||| .ack) (.syn ||| .ack) = true := by decide
  have hack : TcpFlags.contains .ack .ack = true := by decide
  have hmss : min (1460 : UInt16) 1460 = 1460 := rfl
  simp [handshake, opened, TcpConnection.connect, TcpConnection.listen, TcpConnection.new,
    TcpConnection.onSegment, TcpConnection.onListen, TcpConnection.onSynSent,
    TcpConnection.onSynReceived, TcpConnection.reply, TcpConnection.processMss,
    SendSequenceSpace.new, RecvSequenceSpace.new, hsyn, hsynAck, hack, hmss]

section Pieces

variable {sent : List (List UInt8)}
variable {segment : TcpSegment}

def Piece (base : UInt32) (sent : List (List UInt8)) (seq : UInt32) (data : List UInt8) : Prop :=
  ∃ j, sent[j]? = some data ∧ seq = number base (start sent j)

theorem Piece.append (h : Piece base sent seq data) : Piece base (sent ++ more) seq data := by
  obtain ⟨j, hj, rfl⟩ := h
  have hlt := (List.getElem?_eq_some_iff.mp hj).1
  exact ⟨j, by rw [getElem?_append_left hlt, hj], by rw [start_append (Nat.le_of_lt hlt)]⟩

theorem Piece.last : Piece base (sent ++ [data]) (number base sent.flatten.length) data :=
  ⟨sent.length, getElem?_concat_length, by rw [start_append (Nat.le_refl _), start_length]⟩

-- The sender stands behind the last piece and keeps only pieces.
structure Outgoing (base : UInt32) (sent : List (List UInt8)) (c : TcpConnection) : Prop where
  nxt : c.send.nxt = number base sent.flatten.length
  queue : ∀ e ∈ c.retransmitQueue.values, Piece base sent e.seq e.data

structure Carries (base : UInt32) (sent : List (List UInt8)) (segment : TcpSegment) : Prop where
  piece : Piece base sent segment.seqNum segment.payload
  payload : segment.payload ≠ []
  fin : segment.flags.contains .fin = false

theorem Carries.append (h : Carries base sent segment) : Carries base (sent ++ more) segment :=
  ⟨h.piece.append, h.payload, h.fin⟩

-- A segment with the piece was transmitted.
def Covered (base : UInt32) (sent : List (List UInt8)) (network : List TcpSegment) (j : ℕ) : Prop :=
  ∃ segment ∈ network, segment.seqNum = number base (Reassembly.start sent j)

variable (h : Outgoing base sent c)

include h

theorem Outgoing.same (hs : c.SameOutgoing c') : Outgoing base sent c' :=
  ⟨hs.nxt.trans h.nxt, fun e he => h.queue e (hs.queue e he)⟩

theorem Outgoing.sends (hs : c.Sends segment c') : Outgoing base (sent ++ [segment.payload]) c' ∧
      Carries base (sent ++ [segment.payload]) segment := by
  have hlast : Piece base (sent ++ [segment.payload]) segment.seqNum segment.payload := by
    rw [hs.seq, h.nxt]
    exact .last
  refine ⟨⟨?_, fun e he => ?_⟩, ⟨hlast, hs.payload, hs.fin⟩⟩
  · rw [hs.nxt, h.nxt, advance, ← number_add]
    simp
  · rcases hs.queue e he with he | ⟨hseq, hdata⟩
    · exact (h.queue e he).append
    · exact hseq ▸ hdata ▸ hlast

-- The same for the whole loop, by induction over its rounds.
theorem Outgoing.fillWindow (now n : ℕ) : let r := c.fillWindow now n
    let sent' := sent ++ r.1.map (·.payload)
    Outgoing base sent' r.2 ∧ (r.1.map (·.payload)).flatten ++ r.2.sendBuffer = c.sendBuffer ∧
      (∀ segment ∈ r.1, Carries base sent' segment) ∧
      ∀ j, sent.length ≤ j → j < sent'.length → Covered base sent' r.1 j := by
  induction n generalizing c sent
  case zero =>
    refine ⟨?_, rfl, fun _ hs => absurd hs not_mem_nil, fun j hj hlt => ?_⟩
    · simpa [fillWindow] using h
    · exact absurd hj <| Nat.not_le.mpr <| by simpa [fillWindow] using hlt
  case succ n hi =>
    rw [fillWindow]
    cases hn : c.nextSegment now
    case none =>
      refine ⟨by simpa using h, rfl, fun _ hs => absurd hs not_mem_nil, fun j hj hlt => ?_⟩
      exact absurd hj <| Nat.not_le.mpr <| by simpa using hlt
    case some p =>
      obtain ⟨segment, c'⟩ := p
      have hs := nextSegment_eq_some hn
      obtain ⟨ho, hc⟩ := h.sends hs
      obtain ⟨ho', hbuf, hall, hcov⟩ := hi ho
      simp only [map_cons, flatten_cons]
      rw [append_cons]
      refine ⟨ho', ?_, forall_mem_cons.mpr ⟨hc.append, hall⟩, fun j hj hlt => ?_⟩
      · rw [append_assoc, hbuf, hs.buffer]
      · rcases Nat.eq_or_lt_of_le hj with rfl | hj
        · refine ⟨segment, mem_cons_self, ?_⟩
          rw [hs.seq, h.nxt, start_append (by simp), start_append (Nat.le_refl _), start_length]
        · obtain ⟨segment', hmem, hseq⟩ := hcov j (by rwa [length_append]) hlt
          exact ⟨segment', mem_cons_of_mem _ hmem, hseq⟩

theorem Outgoing.getRetransmits (hn : [] ∉ sent) (now : ℕ) :
    Outgoing base sent (c.getRetransmits now).2 ∧
      ∀ segment ∈ (c.getRetransmits now).1, Carries base sent segment := by
  refine ⟨⟨h.nxt, fun e he => ?_⟩, fun segment hs => ?_⟩
  · have ⟨e', he', hseq, hdata⟩ := mem_retransmitQueue he
    exact hseq ▸ hdata ▸ h.queue e' he'
  · have ⟨hfin, e, he, hseq, hdata⟩ := mem_getRetransmits hs
    have hp : Piece base sent segment.seqNum segment.payload := hseq ▸ hdata ▸ h.queue e he
    have ⟨j, hj, _⟩ := hp
    exact ⟨hp, fun he => hn (he ▸ mem_of_getElem? hj), hfin⟩

end Pieces

theorem labelled {sent : List (List UInt8)} (hn : [] ∉ sent)
    (hb : sent.flatten.length < UInt32.size / 2) :
    Labelled advance isSeqAfter (number base) sent where
  advance := fun _ _ => number_add.symm
  after := fun hm hn => by
    rw [isSeqAfter, decide_eq_true_iff]
    exact after_iff (Nat.lt_of_le_of_lt hm hb) (Nat.lt_of_le_of_lt hn hb)
  nonempty := hn

section Received

variable {sent : List (List UInt8)} {output : List UInt8}
variable {delivered : List TcpSegment} {segment : TcpSegment}

-- The receiver has put a beginning of the pieces in order and lost none that was delivered.
def Received (base : UInt32) (sent : List (List UInt8)) (output : List UInt8)
    (delivered : List TcpSegment) (c : TcpConnection) : Prop :=
  ∃ k, Settled (number base) sent output c.incoming k ∧ ∀ segment ∈ delivered, ∃ j,
    j < sent.length ∧ segment.seqNum = number base (Reassembly.start sent j) ∧
      Has (number base) sent c.incoming k j

variable (h : Received base sent output delivered c)

include h

theorem Received.append : Received base (sent ++ more) output delivered c := by
  obtain ⟨k, hs, hd⟩ := h
  refine ⟨k, hs.append, fun segment hseg => ?_⟩
  have ⟨j, hj, hseq, hhas⟩ := hd segment hseg
  refine ⟨j, ?_, by rw [start_append (Nat.le_of_lt hj), hseq], hhas.append hj⟩
  rw [length_append]
  exact Nat.lt_add_right _ hj

theorem Received.same (hs : c'.incoming = c.incoming) : Received base sent output delivered c' := by
  rwa [Received, hs]

theorem Received.read : Received base sent (output ++ c.recvBuffer) delivered c.read.2 := by
  obtain ⟨k, hs, hd⟩ := h
  exact ⟨k, hs.read, hd⟩

theorem Received.deliver (hl : Labelled advance isSeqAfter (number base) sent)
    (hc : Carries base sent segment) (hr : c'.incoming =
      receive advance isSeqAfter c.incoming segment.seqNum segment.payload) :
    Received base sent output (segment :: delivered) c' := by
  obtain ⟨k, hs, hd⟩ := h
  obtain ⟨j, hj, hseq⟩ := hc.piece
  have ⟨k', hs', hh⟩ := hs.receive hl hj
  rw [Received, hr, hseq]
  refine ⟨k', hs', forall_mem_cons.mpr ⟨?_, fun segment hseg => ?_⟩⟩
  · exact ⟨j, (List.getElem?_eq_some_iff.mp hj).1, hseq, hh j (.inl rfl)⟩
  · have ⟨i, hi, hseq', hhas⟩ := hd segment hseg
    exact ⟨i, hi, hseq', hh i (.inr hhas)⟩

end Received

structure Inv (base : UInt32) (s : Transfer) : Prop where
  sender : s.sender.state = .established
  receiver : s.receiver.state = .established
  stream : s.sent.flatten ++ s.sender.sendBuffer = s.accepted
  nonempty : [] ∉ s.sent
  outgoing : Outgoing base s.sent s.sender
  network : ∀ segment ∈ s.network, Carries base s.sent segment
  covered : ∀ j < s.sent.length, Covered base s.sent s.network j
  received : Received base s.sent s.output s.delivered s.receiver

variable {a b : TcpConnection} {s : Transfer}

theorem Connected.inv (h : Connected a b) : Inv a.send.nxt (new a b) where
  sender := h.sender
  receiver := h.receiver
  stream := h.unsent
  nonempty := not_mem_nil
  outgoing := by
    refine ⟨number_zero.symm, fun e he => ?_⟩
    rw [new, h.queue] at he
    exact absurd he not_mem_nil
  network := fun _ hs => absurd hs not_mem_nil
  covered := fun j hj => absurd hj (Nat.not_lt_zero j)
  received := by
    refine ⟨0, ⟨⟨Nat.zero_le _, h.unread, ?_, ?_⟩, ?_⟩, fun _ hs => absurd hs not_mem_nil⟩
    · exact h.nxt.trans number_zero.symm
    · intro l d hw
      rw [incoming, new, h.ooo, SortedMap.get?_empty] at hw
      cases hw
    · rw [incoming, new, h.ooo, SortedMap.get?_empty]

theorem Inv.labelled (h : Inv base s) (hb : s.accepted.length < UInt32.size / 2) :
    Labelled advance isSeqAfter (number base) s.sent := by
  refine Transfer.labelled h.nonempty (Nat.lt_of_le_of_lt ?_ hb)
  rw [← h.stream, length_append]
  exact Nat.le_add_right ..

-- What the receiver does apart from taking data.
theorem Inv.receiver_same (h : Inv base s) (hstate : c.state = .established)
    (hin : c.incoming = s.receiver.incoming) : Inv base { s with receiver := c } :=
  { h with
    receiver := hstate
    received := h.received.same hin }

section Step

variable [RttAverage] {segment : TcpSegment}

section

variable (h : Inv base s)

include h

theorem Inv.send (hs : s.step (.send data now) = some s') : Inv base s' := by
  rw [step, sendData, if_neg (not_not_intro h.sender)] at hs
  obtain rfl := some.inj hs
  set c := { s.sender with sendBuffer := s.sender.sendBuffer ++ data }
  have hout : Outgoing base s.sent c := ⟨h.outgoing.nxt, h.outgoing.queue⟩
  have hsame : c.SameIncoming (c.fillWindow now c.sendBuffer.length).2 :=
    fillWindow_same _
  obtain ⟨ho, hbuf, hall, hcov⟩ := hout.fillWindow now c.sendBuffer.length
  exact {
    sender := hsame.state.trans h.sender
    receiver := h.receiver
    stream := by
      rw [flatten_append, append_assoc, ← h.stream, append_assoc]
      exact congrArg _ hbuf
    nonempty := by
      rw [mem_append, not_or]
      refine ⟨h.nonempty, fun hmem => ?_⟩
      obtain ⟨segment, hseg, hnil⟩ := mem_map.mp hmem
      exact (hall segment hseg).payload hnil
    outgoing := ho
    network := by
      refine forall_mem_append.mpr ⟨fun segment hseg => ?_, hall⟩
      exact (h.network segment hseg).append
    covered := fun j hj => by
      rcases Nat.lt_or_ge j s.sent.length with hlt | hge
      · obtain ⟨segment, hseg, hseq⟩ := h.covered j hlt
        refine ⟨segment, mem_append_left _ hseg, ?_⟩
        rw [start_append (Nat.le_of_lt hlt), hseq]
      · obtain ⟨segment, hseg, hseq⟩ := hcov j hge hj
        exact ⟨segment, mem_append_right _ hseg, hseq⟩
    received := h.received.append }

theorem Inv.getRetransmits (hs : s.step (.getRetransmits now) = some s') : Inv base s' := by
  obtain rfl := some.inj hs
  have ⟨ho, hall⟩ := h.outgoing.getRetransmits h.nonempty now
  exact { h with
    outgoing := ho
    network := forall_mem_append.mpr ⟨h.network, hall⟩
    covered := fun j hj => by
      have ⟨segment, hseg, hseq⟩ := h.covered j hj
      exact ⟨segment, mem_append_left _ hseg, hseq⟩ }

theorem Inv.onSegment (hs : s.step (.onSegment segment now) = some s') : Inv base s' := by
  simp only [step, ite_none_left_eq_some, map_eq_some_iff] at hs
  obtain ⟨hfin, r, hr, rfl⟩ := hs
  have ⟨hout, _⟩ := onSegment_eq_some h.sender (eq_false_of_ne_true hfin) hr
  exact { h with
    sender := hout.state.trans h.sender
    stream := hout.buffer ▸ h.stream
    outgoing := h.outgoing.same hout }

theorem Inv.deliver (hb : s.accepted.length < UInt32.size / 2)
    (hs : s.step (.deliver segment now) = some s') : Inv base s' := by
  simp only [step, ite_none_right_eq_some, map_eq_some_iff] at hs
  obtain ⟨hmem, r, hr, rfl⟩ := hs
  have hc := h.network segment hmem
  have ⟨hout, hin⟩ := onSegment_eq_some h.receiver hc.fin hr
  rw [if_neg hc.payload] at hin
  exact { h with
    receiver := hout.state.trans h.receiver
    received := h.received.deliver (h.labelled hb) hc hin }

theorem Inv.step (hb : s.accepted.length < UInt32.size / 2)
    (hs : s.step e = some s') : Inv base s' := by
  cases e
  case send => exact h.send hs
  case getRetransmits => exact h.getRetransmits hs
  case onSegment => exact h.onSegment hs
  case deliver => exact h.deliver hb hs
  case read =>
    obtain rfl := some.inj hs
    exact { h with received := h.received.read }
  case answer data now =>
    obtain rfl := some.inj hs
    have hsame : s.receiver.SameIncoming (s.receiver.sendData data now).2 :=
      sendData_same
    exact h.receiver_same (hsame.state.trans h.receiver) hsame.incoming
  case answerAgain =>
    obtain rfl := some.inj hs
    exact h.receiver_same h.receiver rfl
  case acknowledge segment now =>
    simp only [Transfer.step, ite_none_left_eq_some, map_eq_some_iff,
      Bool.or_eq_true, not_or, Bool.not_eq_true] at hs
    obtain ⟨⟨hfin, hempty⟩, r, hr, rfl⟩ := hs
    have ⟨hout, hin⟩ := onSegment_eq_some h.receiver hfin hr
    rw [if_pos (by simpa using hempty)] at hin
    exact h.receiver_same (hout.state.trans h.receiver) hin

end

theorem accepted_le (hs : s.step e = some s') : s.accepted.length ≤ s'.accepted.length := by
  cases e <;> simp only [step] at hs
  case send =>
    split at hs
    · cases hs
    · obtain rfl := some.inj hs
      exact length_append ▸ Nat.le_add_right ..
  case onSegment | deliver | acknowledge =>
    split_ifs at hs
    obtain ⟨_, _, rfl⟩ := map_eq_some_iff.mp hs
    exact Nat.le_refl _
  all_goals exact some.inj hs ▸ Nat.le_refl _

theorem Inv.reaches (h : Inv base s) (r : Reaches Transfer.step anyEvent s s')
    (hb : s'.accepted.length < UInt32.size / 2) : Inv base s' := by
  refine r.invariant (P := fun s => s.accepted.length < UInt32.size / 2 → Inv base s) (fun _ => h)
    (fun hi _ hs hb => ?_) hb
  have hb := Nat.lt_of_le_of_lt (accepted_le hs) hb
  exact (hi hb).step hb hs

-- A delivery goes through unless the receiver divides by its congestion window of zero.
theorem Inv.isSome_deliver_iff (h : Inv base s) (hmem : segment ∈ s.network) :
    (s.step (.deliver segment now)).isSome ↔ ¬ s.receiver.DividesByZero segment := by
  rw [Transfer.step, if_pos hmem, isSome_map,
    onSegment_established h.receiver (h.network segment hmem).fin, isSome_map, isSome_takeAck_iff]

end Step

theorem delivers_in_order [RttAverage] (h : Connected a b)
    (r : Reaches step anyEvent (new a b) s) (hb : s.accepted.length < UInt32.size / 2) :
    s.output ++ s.receiver.recvBuffer <+: s.accepted ∧
      ((∀ segment ∈ s.network, segment ∈ s.delivered) →
        s.output ++ s.receiver.recvBuffer = s.sent.flatten) ∧
      ∀ segment ∈ s.network, ∀ now,
        ((s.step (.deliver segment now)).isSome ↔ ¬ s.receiver.DividesByZero segment) := by
  have hi := h.inv.reaches r hb
  have ⟨k, hk, hd⟩ := hi.received
  refine ⟨?_, fun hall => ?_, fun segment hmem now => hi.isSome_deliver_iff hmem⟩
  · have hflat : (s.sent.take k).flatten <+: s.sent.flatten :=
      ⟨(s.sent.drop k).flatten, by rw [← flatten_append, take_append_drop]⟩
    exact hk.buffer ▸ hflat.trans ⟨_, hi.stream⟩
  · refine hk.complete fun j hj => ?_
    have ⟨segment, hmem, hseq⟩ := hi.covered j hj
    have ⟨i, hlt, hseq', hhas⟩ := hd segment (hall segment hmem)
    exact (hi.labelled hb).start_inj hlt (hseq'.symm.trans hseq) ▸ hhas

local instance roundedAverage : RttAverage := .rounded

-- Two segments around the end of the sequence numbers arrive in the wrong order.
theorem delivers_in_order_reversed : ∃ s,
    Reaches step anyEvent (new (opened 4294967294 7 1 2) (opened 7 4294967294 2 1)) s ∧
      s.sent = [[1, 2, 3], [4, 5]] ∧ s.output ++ s.receiver.recvBuffer = [1, 2, 3, 4, 5] := by
  let segment (seq : UInt32) (data : List UInt8) : TcpSegment :=
    ⟨1, 2, seq, 8, .ack ||| .psh, 65535, [], data⟩
  obtain ⟨s, r, hb, hall, hsent⟩ : ∃ s,
      Reaches step anyEvent (new (opened 4294967294 7 1 2) (opened 7 4294967294 2 1)) s ∧
        s.accepted.length < UInt32.size / 2 ∧ (∀ segment ∈ s.network, segment ∈ s.delivered) ∧
        s.sent = [[1, 2, 3], [4, 5]] :=
    Reaches.exists_of_run
      [.send [1, 2, 3] 0, .send [4, 5] 1, .deliver (segment 2 [4, 5]) 2,
        .deliver (segment 4294967295 [1, 2, 3]) 3] (by decide +kernel)
  have h := delivers_in_order (opened_connected 4294967294 7 1 2) r hb
  refine ⟨s, r, hsent, ?_⟩
  rw [h.2.1 hall, hsent]
  rfl

-- One byte each way in every round. Three copies of a segment are duplicate acknowledgements, and
-- the next segment ends the recovery with half the window, until nothing is left of it.
theorem delivery_divides_by_zero : ∃ s,
    Reaches step anyEvent (new (opened 0 0 1 2) (opened 0 0 2 1)) s ∧
      ∃ segment ∈ s.network, (s.step (.deliver segment 0)).isNone :=
  let data (k : ℕ) : TcpSegment :=
    ⟨1, 2, 1 + .ofNat k, 1 + .ofNat k, .ack ||| .psh, 65535 - .ofNat k, [], [0]⟩
  let answer (k : ℕ) : TcpSegment := { data k with srcPort := 2, dstPort := 1 }
  let round (k : ℕ) : List Event :=
    replicate 3 (.deliver (data k) 0) ++
      [.answer [0] 0, .onSegment (answer k) 0, .send [0] 0, .deliver (data (k + 1)) 0]
  Reaches.exists_of_run ([.send [0] 0, .answer [0] 0] ++ (List.range 14).flatMap round ++
    [.onSegment (answer 14) 0, .send [0] 0]) (by decide +kernel)

end Transfer

end NetworkStack
