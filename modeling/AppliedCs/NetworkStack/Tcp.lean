import AppliedCs.Lib.SerialNumber
import AppliedCs.Lib.SortedList

open SerialNumber

namespace NetworkStack

inductive TcpState
  | closed
  | listen
  | synSent
  | synReceived
  | established
  | finWait1
  | finWait2
  | closeWait
  | closing
  | lastAck
  | timeWait
  deriving DecidableEq, Repr

abbrev TcpFlags := UInt8

namespace TcpFlags

def fin : TcpFlags := 0b00000001
def syn : TcpFlags := 0b00000010
def psh : TcpFlags := 0b00001000
def ack : TcpFlags := 0b00010000

def contains (flags other : TcpFlags) : Bool :=
  flags &&& other == other

end TcpFlags

inductive TcpOption
  | mss (size : UInt16)
  | windowScale (shift : UInt8)
  | sackPermitted
  | sack (blocks : List (UInt32 × UInt32))
  | timestamps (tsVal tsEcr : UInt32)
  deriving DecidableEq, Repr

structure TcpSegment where
  srcPort : UInt16
  dstPort : UInt16
  seqNum : UInt32 := 0
  ackNum : UInt32 := 0
  flags : TcpFlags := 0
  window : UInt16 := 65535
  options : List TcpOption := []
  payload : List UInt8 := []
  deriving DecidableEq, Repr

structure SendSequenceSpace where
  una : UInt32
  nxt : UInt32
  wnd : UInt16
  iss : UInt32
  deriving DecidableEq, Repr

def SendSequenceSpace.new (iss : UInt32) : SendSequenceSpace where
  una := iss
  nxt := iss
  wnd := 0
  iss := iss

structure RecvSequenceSpace where
  nxt : UInt32
  wnd : UInt16
  irs : UInt32
  deriving DecidableEq, Repr

def RecvSequenceSpace.new (irs : UInt32) : RecvSequenceSpace where
  nxt := irs + 1
  wnd := 65535
  irs := irs

-- Durations are counted in nanoseconds.
structure CongestionControl where
  cwnd : UInt32 := 10 * 1460
  ssthresh : UInt32 := 4294967295
  srtt : ℕ := 100000000
  rttvar : ℕ := 50000000
  rto : ℕ := 1000000000
  dupAcks : UInt32 := 0
  fastRecovery : Bool := false
  deriving DecidableEq, Repr

-- The two floating-point averages of the round-trip time.
class RttAverage where
  variance : (rttvar diff : ℕ) → ℕ
  mean : (srtt measured : ℕ) → ℕ

-- The averages with whole numbers.
abbrev RttAverage.rounded : RttAverage where
  variance rttvar diff := (3 * rttvar + diff) / 4
  mean srtt measured := (7 * srtt + measured) / 8

namespace CongestionControl

def maxRto : ℕ :=
  60000000000

def updateRtt [RttAverage] (c : CongestionControl) (measured : ℕ) : CongestionControl :=
  let diff := if measured > c.srtt then measured - c.srtt else c.srtt - measured
  let rttvar := RttAverage.variance c.rttvar diff
  let srtt := RttAverage.mean c.srtt measured
  let rto := srtt + 4 * rttvar
  let rto := if rto < 200000000 then 200000000 else rto
  let rto := if rto > 60000000000 then 60000000000 else rto
  { c with rttvar := rttvar, srtt := srtt, rto := rto }

variable (c : CongestionControl)

-- `none` is the panic of the division by zero.
def onAck (bytesAcked : UInt32) : Option CongestionControl :=
  if c.fastRecovery then
    some { c with cwnd := c.ssthresh, fastRecovery := false, dupAcks := 0 }
  else if c.cwnd < c.ssthresh then
    some { c with cwnd := c.cwnd + bytesAcked, dupAcks := 0 }
  else if c.cwnd = 0 then
    none
  else
    some { c with cwnd := c.cwnd + (1460 * bytesAcked) / c.cwnd, dupAcks := 0 }

def onDupAck : CongestionControl :=
  let c := { c with dupAcks := c.dupAcks + 1 }
  if c.dupAcks = 3 ∧ !c.fastRecovery then
    { c with ssthresh := c.cwnd / 2, cwnd := c.cwnd / 2 + 3 * 1460, fastRecovery := true }
  else if c.fastRecovery then
    { c with cwnd := c.cwnd + 1460 }
  else
    c

def onTimeout : CongestionControl :=
  let rto := c.rto * 2
  { c with
    ssthresh := c.cwnd / 2
    cwnd := 1460
    dupAcks := 0
    fastRecovery := false
    rto := if rto > maxRto then maxRto else rto }

end CongestionControl

structure RetransmitEntry where
  seq : UInt32
  data : List UInt8
  sentAt : ℕ
  retransmits : UInt32
  deriving DecidableEq, Repr

inductive TcpError
  | invalidState (message : String)
  | protocol (message : String)
  deriving DecidableEq, Repr

structure TcpConnection where
  state : TcpState
  localPort : UInt16
  remotePort : UInt16
  send : SendSequenceSpace
  recv : RecvSequenceSpace
  congestion : CongestionControl
  sendBuffer : List UInt8
  recvBuffer : List UInt8
  retransmitQueue : SortedMap UInt32 RetransmitEntry
  oooSegments : SortedMap UInt32 (List UInt8)
  mss : UInt16

def isSeqBefore (seq₁ seq₂ : UInt32) : Bool :=
  (seq₁ - seq₂).toInt32 < 0

def isSeqBeforeOrEqual (seq₁ seq₂ : UInt32) : Bool :=
  seq₁ == seq₂ || isSeqBefore seq₁ seq₂

def isSeqAfter (seq₁ seq₂ : UInt32) : Bool :=
  (seq₁ - seq₂).toInt32 > 0

def isSeqBetweenOrEqual (seq first last : UInt32) : Bool :=
  if first ≤ last then
    seq ≥ first && seq ≤ last
  else
    seq ≥ first || seq ≤ last

namespace TcpConnection

-- The initial sequence number is drawn at random.
def new (iss : UInt32) (localPort remotePort : UInt16) : TcpConnection where
  state := .closed
  localPort := localPort
  remotePort := remotePort
  send := .new iss
  recv := .new 0
  congestion := {}
  sendBuffer := []
  recvBuffer := []
  retransmitQueue := ∅
  oooSegments := ∅
  mss := 1460

def connect (c : TcpConnection) : Except TcpError TcpSegment × TcpConnection :=
  if c.state ≠ .closed then
    (.error (.invalidState "Cannot connect in current state"), c)
  else
    let syn :=
      { srcPort := c.localPort
        dstPort := c.remotePort
        seqNum := c.send.iss
        flags := .syn
        options := [.mss c.mss, .windowScale 7] }
    (.ok syn, { c with state := .synSent, send.nxt := c.send.iss + 1 })

def listen (c : TcpConnection) : Except TcpError Unit × TcpConnection :=
  if c.state ≠ .closed then
    (.error (.invalidState "Cannot listen in current state"), c)
  else
    (.ok (), { c with state := .listen })

variable (c : TcpConnection)

def availableWindow : UInt16 :=
  let buffered := UInt32.ofNat c.recvBuffer.length
  let window := if buffered ≤ 65535 then 65535 - buffered else 0
  (min window 65535).toUInt16

def isValidAck (ack : UInt32) : Bool :=
  isSeqBetweenOrEqual ack c.send.una c.send.nxt

-- The segment in which the connection sends an acknowledgement of what it has.
def reply (flags : TcpFlags) (window : UInt16) : TcpSegment where
  srcPort := c.localPort
  dstPort := c.remotePort
  seqNum := c.send.nxt
  ackNum := c.recv.nxt
  flags := flags
  window := window

def processMss (mss : UInt16) (options : List TcpOption) : UInt16 :=
  options.foldl (fun
    | mss, .mss size => min mss size
    | mss, _ => mss) mss

def processAck [RttAverage] (c : TcpConnection) (ackNum : UInt32) (window : UInt16) (now : ℕ) :
    Option TcpConnection :=
  if !c.isValidAck ackNum then
    some c
  else if ackNum = c.send.una then
    some { c with congestion := c.congestion.onDupAck }
  else do
    let bytesAcked := ackNum - c.send.una
    let congestion ← c.congestion.onAck bytesAcked
    let queue := c.retransmitQueue.retain fun seq entry =>
      !isSeqBeforeOrEqual (seq + UInt32.ofNat entry.data.length) ackNum
    let congestion :=
      match queue.values.head? with
      | some entry =>
        if entry.retransmits = 0 then congestion.updateRtt (now - entry.sentAt) else congestion
      | none => congestion
    some { c with
      send.una := ackNum
      send.wnd := window
      congestion := congestion
      retransmitQueue := queue }

-- Every round takes one of the segments that wait, so their number bounds the rounds.
def drainOoo : ℕ → TcpConnection → TcpConnection
  | 0, c => c
  | n + 1, c =>
    match c.oooSegments.get? c.recv.nxt with
    | none => c
    | some entry =>
      drainOoo n { c with
        oooSegments := c.oooSegments.erase c.recv.nxt
        recvBuffer := c.recvBuffer ++ entry
        recv.nxt := c.recv.nxt + UInt32.ofNat entry.length }

def processData (seq : UInt32) (data : List UInt8) : TcpSegment × TcpConnection :=
  let c :=
    if seq = c.recv.nxt then
      drainOoo c.oooSegments.entries.length { c with
        recvBuffer := c.recvBuffer ++ data
        recv.nxt := c.recv.nxt + UInt32.ofNat data.length }
    else if isSeqAfter seq c.recv.nxt then
      { c with oooSegments := c.oooSegments.insert seq data }
    else
      c
  (c.reply .ack c.availableWindow, c)

variable (segment : TcpSegment)

def onListen : Option TcpSegment × TcpConnection :=
  if segment.flags.contains .syn then
    let c := { c with recv := .new segment.seqNum, state := .synReceived }
    let synAck := { c.reply (.syn ||| .ack) c.recv.wnd with
      seqNum := c.send.iss
      options := [.mss c.mss] }
    (some synAck, { c with
      send.nxt := c.send.iss + 1
      mss := processMss c.mss segment.options })
  else
    (none, c)

def onSynSent : Except TcpError (Option TcpSegment) × TcpConnection :=
  if segment.flags.contains (.syn ||| .ack) then
    if segment.ackNum ≠ c.send.nxt then
      (.error (.protocol "Invalid ACK in SYN-ACK"), c)
    else
      let c := { c with
        recv := .new segment.seqNum
        send.una := segment.ackNum
        send.wnd := segment.window
        state := .established }
      (.ok (c.reply .ack c.recv.wnd), { c with mss := processMss c.mss segment.options })
  else if segment.flags.contains .syn then
    let c := { c with recv := .new segment.seqNum, state := .synReceived }
    (.ok <| some { c.reply (.syn ||| .ack) c.recv.wnd with seqNum := c.send.iss }, c)
  else
    (.ok none, c)

def onSynReceived : TcpConnection :=
  if segment.flags.contains .ack && segment.ackNum == c.send.nxt then
    { c with
      send.una := segment.ackNum
      send.wnd := segment.window
      state := .established }
  else
    c

-- A FIN moves the receive position behind itself, whatever is still missing before it.
def processFin (state : TcpState) : TcpSegment × TcpConnection :=
  let c := { c with recv.nxt := segment.seqNum + 1, state := state }
  (c.reply .ack c.recv.wnd, c)

def takeAck [RttAverage] (c : TcpConnection) (segment : TcpSegment) (now : ℕ) :
    Option TcpConnection :=
  if segment.flags.contains .ack then
    c.processAck segment.ackNum segment.window now
  else
    some c

def takePayload : Option TcpSegment × TcpConnection :=
  if !segment.payload.isEmpty then
    let r := c.processData segment.seqNum segment.payload
    (some r.1, r.2)
  else
    (none, c)

def onEstablished [RttAverage] (c : TcpConnection) (segment : TcpSegment) (now : ℕ) :
    Option (Option TcpSegment × TcpConnection) := do
  let c ← c.takeAck segment now
  let (response, c) := c.takePayload segment
  if segment.flags.contains .fin then
    let r := c.processFin segment .closeWait
    some (some r.1, r.2)
  else
    some (response, c)

def onFinWait1 : Option TcpSegment × TcpConnection :=
  let c :=
    if segment.flags.contains .ack && segment.ackNum == c.send.nxt then
      { c with state := .finWait2 }
    else
      c
  if segment.flags.contains .fin then
    let r := c.processFin segment (if c.state = .finWait2 then .timeWait else .closing)
    (some r.1, r.2)
  else
    (none, c)

def onFinWait2 : Option TcpSegment × TcpConnection :=
  if segment.flags.contains .fin then
    let r := c.processFin segment .timeWait
    (some r.1, r.2)
  else
    (none, c)

-- `none` is a panic.
def onSegment [RttAverage] (c : TcpConnection) (segment : TcpSegment) (now : ℕ) :
    Option (Except TcpError (Option TcpSegment) × TcpConnection) :=
  match c.state with
  | .closed => some (.ok none, c)
  | .listen => some ((c.onListen segment).map .ok id)
  | .synSent => some (c.onSynSent segment)
  | .synReceived => some (.ok none, c.onSynReceived segment)
  | .established => (c.onEstablished segment now).map (Prod.map .ok id)
  | .finWait1 => some ((c.onFinWait1 segment).map .ok id)
  | .finWait2 => some ((c.onFinWait2 segment).map .ok id)
  | .closeWait => some (.ok none, c)
  | .closing =>
    some (.ok none, if segment.flags.contains .ack then { c with state := .timeWait } else c)
  | .lastAck =>
    some (.ok none, if segment.flags.contains .ack then { c with state := .closed } else c)
  | .timeWait => some (.ok none, c)

-- One round of the loop that fills the window, `none` when the loop ends.
def nextSegment (now : ℕ) : Option (TcpSegment × TcpConnection) :=
  let inFlight := c.send.nxt - c.send.una
  let window := min c.send.wnd.toUInt32 c.congestion.cwnd
  let available := window - inFlight
  let toSend := min (min available c.mss.toUInt32) (UInt32.ofNat c.sendBuffer.length)
  if c.sendBuffer.isEmpty || inFlight ≥ window || toSend == 0 then
    none
  else
    let data := c.sendBuffer.take toSend.toNat
    let segment := { c.reply (.ack ||| .psh) c.availableWindow with payload := data }
    let entry := { seq := c.send.nxt, data := data, sentAt := now, retransmits := 0 }
    some (segment, { c with
      sendBuffer := c.sendBuffer.drop toSend.toNat
      retransmitQueue := c.retransmitQueue.insert c.send.nxt entry
      send.nxt := c.send.nxt + toSend })

-- Every round sends at least one byte, so the length of the buffer bounds the rounds.
def fillWindow (now : ℕ) : ℕ → TcpConnection → List TcpSegment × TcpConnection
  | 0, c => ([], c)
  | n + 1, c =>
    match c.nextSegment now with
    | none => ([], c)
    | some (segment, c) =>
      let r := fillWindow now n c
      (segment :: r.1, r.2)

def flushSendBuffer (now : ℕ) : List TcpSegment × TcpConnection :=
  c.fillWindow now c.sendBuffer.length

-- The function `send` of the source; the name is taken by the send sequence space.
def sendData (data : List UInt8) (now : ℕ) : Except TcpError (List TcpSegment) × TcpConnection :=
  if c.state ≠ .established then
    (.error (.invalidState "Cannot send in current state"), c)
  else
    let r := { c with sendBuffer := c.sendBuffer ++ data }.flushSendBuffer now
    (.ok r.1, r.2)

def close (c : TcpConnection) : Except TcpError (Option TcpSegment) × TcpConnection :=
  let sendFin (c : TcpConnection) :=
    (.ok <| some <| c.reply (.fin ||| .ack) c.availableWindow,
      { c with send.nxt := c.send.nxt + 1 })
  match c.state with
  | .established => sendFin { c with state := .finWait1 }
  | .closeWait => sendFin { c with state := .lastAck }
  | _ => (.error (.invalidState "Cannot close in current state"), c)

def getRetransmits (now : ℕ) : List TcpSegment × TcpConnection :=
  let expired (entry : RetransmitEntry) : Bool := now - entry.sentAt > c.congestion.rto
  let segments := c.retransmitQueue.values.filter expired |>.map fun entry =>
    { c.reply (.ack ||| .psh) c.availableWindow with
      seqNum := entry.seq
      payload := entry.data }
  let queue := c.retransmitQueue.map fun entry =>
    if expired entry then
      { entry with sentAt := now, retransmits := entry.retransmits + 1 }
    else
      entry
  (segments, { c with
    retransmitQueue := queue
    congestion := if segments.isEmpty then c.congestion else c.congestion.onTimeout })

def read : List UInt8 × TcpConnection :=
  (c.recvBuffer, { c with recvBuffer := [] })

end TcpConnection

end NetworkStack
