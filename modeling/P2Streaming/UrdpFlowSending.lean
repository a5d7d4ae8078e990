import P2Streaming.UrdpFlowState

/-!
# `urdp_flow`: queueing, transmitting, closing and the calls of the application

`__attempt_send` computes how much the peer's window and the congestion window
still allow, but the loop that follows never looks at the result: it transmits
every queued segment.
-/
namespace P2Streaming.Urdp
open BigEndianBytes WrappableInteger

/-- The loop of `__queue` that opens new segments; the count bounds its rounds. -/
def Outgoing.pushSegments (ctrlType : Ctrl) : ℕ → Outgoing → List Byte → Outgoing
  | 0, o, _ => o
  | _ + 1, o, [] => o
  | n + 1, o, b :: bs =>
      let sseg : SSegment := ⟨(b::bs).take mss,o.sndUna+o.slen,0,ctrlType⟩
      pushSegments ctrlType n
        { o with
          slist := o.slist ++ [sseg]
          slen := o.slen + BitVec.ofNat 32 sseg.buf.length }
        ((b::bs).drop mss)

/-- `urdp_flow::__queue`: data is first appended to the last segment that is still unsent,
of the same kind and not full. -/
def Outgoing.queue (o : Outgoing) (data : List Byte) (ctrlType : Ctrl) : Outgoing :=
  match o.slist.getLast? with
  | none => o.pushSegments ctrlType data.length data
  | some back =>
      if ctrlType = .data ∧ back.xmit=0 ∧ back.ctrlType=ctrlType ∧ back.buf.length < mss then
        let canWriteLen := min (mss - back.buf.length) data.length
        let o' := { o with
          slist := o.slist.dropLast ++ [{ back with buf := back.buf ++ data.take canWriteLen }]
          slen := o.slen + BitVec.ofNat 32 canWriteLen }
        o'.pushSegments ctrlType data.length (data.drop canWriteLen)
      else o.pushSegments ctrlType data.length data

namespace Outgoing

variable (ctrlType : Ctrl)

@[simp] theorem pushSegments_transmitted (n : ℕ) (o : Outgoing) (data : List Byte) :
    (o.pushSegments ctrlType n data).retransSlist = o.retransSlist ∧
      (o.pushSegments ctrlType n data).sndUna = o.sndUna ∧
      (o.pushSegments ctrlType n data).sndNxt = o.sndNxt := by
  induction n generalizing o data with
  | zero => simp [pushSegments]
  | succ n ih =>
    cases data with
    | nil => simp [pushSegments]
    | cons b bs => exact ih _ _

variable (o : Outgoing)

theorem queue_transmitted (data : List Byte) (ctrlType : Ctrl) :
    (o.queue data ctrlType).retransSlist = o.retransSlist ∧
      (o.queue data ctrlType).sndUna = o.sndUna ∧
      (o.queue data ctrlType).sndNxt = o.sndNxt := by
  unfold queue
  split
  · exact pushSegments_transmitted _ _ _ _
  · split
    · exact pushSegments_transmitted _ _ _ _
    · exact pushSegments_transmitted _ _ _ _

@[simp] theorem queue_retransSlist (data : List Byte) (ctrlType : Ctrl) :
    (o.queue data ctrlType).retransSlist = o.retransSlist := (o.queue_transmitted _ _).1

@[simp] theorem queue_sndUna (data : List Byte) (ctrlType : Ctrl) :
    (o.queue data ctrlType).sndUna = o.sndUna := (o.queue_transmitted _ _).2.1

@[simp] theorem queue_sndNxt (data : List Byte) (ctrlType : Ctrl) :
    (o.queue data ctrlType).sndNxt = o.sndNxt := (o.queue_transmitted _ _).2.2

variable {o}

theorem pushSegments_unsent (n : ℕ) (data : List Byte) (h : ∀ seg∈o.slist, seg.xmit=0) :
    ∀ seg ∈ (o.pushSegments ctrlType n data).slist, seg.xmit=0 := by
  induction n generalizing o data with
  | zero => exact h
  | succ n ih =>
    cases data with
    | nil => exact h
    | cons b bs =>
      apply ih
      intro seg hseg
      rcases List.mem_append.mp hseg with hseg | hseg
      · exact h seg hseg
      · rw [List.mem_singleton.mp hseg]

theorem queue_unsent (data : List Byte) (ctrlType : Ctrl) (h : ∀ seg∈o.slist, seg.xmit=0) :
    ∀ seg ∈ (o.queue data ctrlType).slist, seg.xmit=0 := by
  unfold queue
  split
  · exact pushSegments_unsent _ _ _ h
  · rename_i back hback
    split
    · apply pushSegments_unsent
      intro seg hseg
      rcases List.mem_append.mp hseg with hseg | hseg
      · exact h seg (List.dropLast_subset _ hseg)
      · rw [List.mem_singleton.mp hseg]
        exact h back (List.mem_of_getLast? hback)
    · exact pushSegments_unsent _ _ _ h

theorem queue_nil (h : o.slist=[]) : o.queue [] ctrlType = o := by
  simp [queue,h,pushSegments]

theorem pushSegments_ne_nil (n : ℕ) (data : List Byte)
    (h : o.slist≠[]) : (o.pushSegments ctrlType n data).slist ≠ [] := by
  induction n generalizing o data with
  | zero => exact h
  | succ n ih =>
    cases data with
    | nil => exact h
    | cons b bs => exact ih _ (by simp)

theorem queue_ne_nil {data : List Byte}
    (h : o.slist≠[] ∨ data≠[]) : (o.queue data ctrlType).slist ≠ [] := by
  unfold queue
  split
  · rename_i hlast
    cases data with
    | nil => exact absurd (List.getLast?_eq_none_iff.mp hlast) (h.resolve_right (by simp))
    | cons b bs =>
      rw [List.length_cons,pushSegments]
      exact pushSegments_ne_nil _ _ _ (by simp)
  · rename_i back hback
    have hne : o.slist≠[] := fun he => by simp [he] at hback
    split
    · exact pushSegments_ne_nil _ _ _ (by simp)
    · exact pushSegments_ne_nil _ _ _ hne

end Outgoing

namespace Flow

variable (f : Flow)

def queue (data : List Byte) (ctrlType : Ctrl) : Flow :=
  { f with snd := f.snd.queue data ctrlType }

def window : Window := ⟨f.snd,f.cc.sndWnd,f.cc.cwnd⟩

/-- The header `__packet_as_reliable_and_sendout` fills in. -/
def reliableHeader (env : Env) (seq : BitVec 32) (control : Ctrl) : ReliableHeader where
  control := control
  peerId := (if control = .connect then f.ctl.flowId else f.ctl.remotePeerId).setWidth 24
  lostrateRecving := env.lostrate
  idForLostDetect := f.unrel.idForLostRate
  sessionId := f.ctl.sessionId
  window := BitVec.ofNat 16 (min f.rcv.rcvWnd.toNat 0xffff)
  timeSending := (scapeZero env.now).setWidth 16
  timeEcho := f.tim.tRecent + (env.now.setWidth 16 - f.tim.tRecentNow)
  seqno := seq
  ackno := f.rcv.rcvNxt

def packetAsReliableAndSendout (env : Env) (seq : BitVec 32) (control : Ctrl)
    (data : List Byte) : Flow :=
  { f with
    log := f.log ++
      [.datagram f.ctl.remoteEndpoint (.reliable (f.reliableHeader env seq control) data)]
    unrel.idForLostRate := f.unrel.idForLostRate+1
    cc.lastack := f.rcv.rcvNxt
    tim := { f.tim with tAck := 0, tLasttraffic := env.now, tLastsend := env.now } }

/-- `urdp_flow::__packet_as_unreliable_and_sendout`; the segment is returned as the call
leaves it. -/
def packetAsUnreliableAndSendout (env : Env) (seg : SUnraliableSegment) :
    Flow × SUnraliableSegment :=
  let header : Header := {
    control := seg.control
    peerId := (if seg.control = .connect then f.ctl.flowId else f.ctl.remotePeerId).setWidth 24
    lostrateRecving := env.lostrate
    idForLostDetect := f.unrel.idForLostRate
    sessionId := f.ctl.sessionId
    window := BitVec.ofNat 16 (min f.rcv.rcvWnd.toNat 0xffff) }
  ({ f with
      log := f.log ++
        [.datagram f.ctl.remoteEndpoint (.unreliable header seg.pktID seg.msgType seg.buf)]
      unrel.idForLostRate := f.unrel.idForLostRate+1
      tim := { f.tim with tLasttraffic := env.now, tLastsend := env.now } },
    { seg with
      remainXmit := seg.remainXmit - 1
      timeout := env.now + BitVec.ofNat 32 (20 + env.random f.log.length % 21) })

/-- The check at the start of `__transmit`: the segment was sent too often and the peer has
been silent for ten seconds. -/
def givesUp (env : Env) (seg : SSegment) : Bool :=
  decide ((if f.ctl.state < .established then 16 else 8) ≤ seg.xmit.toInt ∧
    10000 ≤ modMinus env.now f.tim.tLastrecv)

/-- The rest of `__transmit`, up to the count in the segment itself. -/
def sendSegment (env : Env) (seg : SSegment) : Flow :=
  let f := f.packetAsReliableAndSendout env seg.seq seg.ctrlType seg.buf
  { f with
    snd.sndNxt := if seg.xmit=0 then f.snd.sndNxt + BitVec.ofNat 32 seg.buf.length
      else f.snd.sndNxt
    tim.tRtoBase := if f.tim.tRtoBase=0 then scapeZero env.now else f.tim.tRtoBase }

/-- `urdp_flow::__transmit` on one segment: nothing when it gives up, else the flow and the
segment afterwards. -/
def transmit (env : Env) (seg : SSegment) : Option (Flow × SSegment) :=
  if f.givesUp env seg then none
  else some (f.sendSegment env seg, { seg with xmit := seg.xmit + 1 })

/-- `__transmit(m_retrans_slist.begin(), now)`. -/
def transmitRetrans (env : Env) : Flow × Bool :=
  match f.snd.retransSlist with
  | [] => ({ f with fault := some .retransSlist }, true)
  | seg :: rest =>
      match f.transmit env seg with
      | none => (f, false)
      | some (f, seg) => ({ f with snd.retransSlist := seg :: rest }, true)

/-- What `__attempt_send` does about acknowledgements once nothing is left to send. -/
def attemptAck (env : Env) (sflags : SendFlags) : Flow :=
  if sflags = .immediateAck ∨
      f.tim.tAck ≠ 0 ∧ modMinus env.now f.tim.tAck ≤ ackDelay then
    f.packetAsReliableAndSendout env f.snd.sndNxt .ack []
  else if sflags ≠ .none ∧ f.tim.tAck=0 then
    { f with tim.tAck := scapeZero env.now }
  else f

/-- The loop of `__attempt_send` over the segments of `m_slist`. -/
def attemptLoop (env : Env) : List SSegment → SendFlags → Flow → Flow
  | [], sflags, f => f.attemptAck env sflags
  | seg :: rest, _, f =>
      match f.transmit env seg with
      | none => f
      | some (f, seg) =>
          attemptLoop env rest .none
            { f with snd.slist := rest, snd.retransSlist := f.snd.retransSlist ++ [seg] }

/-- After a pause `__attempt_send` halves the congestion window. -/
def idleWindow (env : Env) : Flow :=
  if (f.tim.rto : ℤ) < modMinus env.now f.tim.tLastsend then
    { f with cc.cwnd := BitVec.ofNat 32 (max (2*mss) (f.cc.cwnd.toNat / 2)) }
  else f

/-- `urdp_flow::__attempt_send`; the log notes what its loop started from. -/
def attemptSend (env : Env) (sflags : SendFlags) : Flow :=
  let f := f.idleWindow env
  let g := attemptLoop env f.snd.slist sflags f
  g.emit (.attempted f.window g.window)

def toClosedState : Flow :=
  if f.ctl.state = .closed then { f with ctl.canceled := true }
  else
    { f with
      ctl := { f.ctl with state := .closed, canceled := true, socket := false }
      snd := { f.snd with slist := [], retransSlist := [] }
      rcv.rlist := []
      tim.tRtoBase := 0
      posted := f.posted ++ [.flowUnregister]
      log := f.log ++ [.closed] }

/-- The step from closing to waiting for `CTRL_FIN_ACK`. -/
def sendFin (env : Env) : Flow :=
  let f := { f with
    tim.tCloseBase := some (env.now + BitVec.ofNat 32 waitFinAckTimeout)
    ctl.state := .watingFinAck }
  f.packetAsReliableAndSendout env f.snd.sndNxt .fin []

/-- `urdp_flow::__close`. -/
def doClose (env : Env) (graceful : Bool) : Flow :=
  if f.ctl.state = .closed then f.toClosedState
  else if f.ctl.closeCalled then f
  else
    let shutdown := if !graceful ∨ f.ctl.state < .established then ShutdownMode.forceful
      else if f.ctl.shutdown = .none then .graceful else f.ctl.shutdown
    let f := { f with ctl := { f.ctl with
      canceled := true, socket := false, closeCalled := true, shutdown := shutdown } }
    match shutdown with
    | .forceful => (f.packetAsReliableAndSendout env f.snd.sndNxt .rst []).toClosedState
    | .graceful =>
        if f.snd.retransSlist=[] ∧ f.snd.slist=[] then f.sendFin env
        else { f with ctl.state := .closing }
    | .none => f

def close (env : Env) (graceful : Bool) : Flow :=
  if f.ctl.canceled then f
  else doClose ({ f with ctl.disconnLocal := true }.emit .closeCalled) env graceful

/-- `m_unreliable_slist.insert`, in the order of `SUnraliableSegment::operator<`. -/
def unreliableLess (a b : SUnraliableSegment) : Bool :=
  if a.timeout≠b.timeout then modLess a.timeout b.timeout else modLess a.id b.id

def insertUnreliable (seg : SUnraliableSegment) : List SUnraliableSegment → List SUnraliableSegment
  | [] => [seg]
  | s :: rest =>
      if unreliableLess s seg then s :: insertUnreliable seg rest
      else if unreliableLess seg s then seg :: s :: rest
      else s :: rest

/-- How often `__send` transmits a semireliable message at the reported loss rate. -/
def semireliableXmit : Option (BitVec 8) → ℤ
  | none => 2
  | some rate =>
      if 15 * 255 < 100 * rate.toNat then 3
      else if 255 < 100 * rate.toNat then 2
      else 1

/-- The reliable branch of `urdp_flow::__send`: length and type in four bytes, then the
payload. -/
def sendReliable (env : Env) (buf : List Byte) (msgType : BitVec 16) :
    Flow × Option ErrorCode :=
  let bufLen := buf.length % 2^16
  let f := f.emit (.sent msgType buf)
  let f := f.queue (beBytes 2 bufLen ++ beBytes 2 msgType.toNat) .data
  let f := f.queue (buf.take bufLen) .data
  let f := f.attemptSend env .none
  if sndBufSize≤f.snd.slen.toNat then ({ f with cc.detectWritable := true }, some .wouldBlock)
  else (f, none)

/-- The other branch of `urdp_flow::__send`. -/
def sendUnreliable (env : Env) (buf : List Byte) (msgType : BitVec 16)
    (semireliable : Bool) : Flow :=
  if 2 * mss < buf.length ∨ buf.length=0 then f
  else
    let pktID := f.unrel.pktid+1
    let seg : SUnraliableSegment := {
      buf, msgType, pktID
      id := f.unrel.idSeed
      timeout := env.now
      remainXmit := if semireliable then semireliableXmit f.unrel.localToRemoteLostRate else 1
      control := if semireliable then .semireliableData else .unreliableData
      unreliable := by cases semireliable <;> simp }
    let f := { f with unrel := { f.unrel with pktid := pktID, idSeed := f.unrel.idSeed + 1 } }
    let (f, seg) := f.packetAsUnreliableAndSendout env seg
    if 0<seg.remainXmit then
      { f with unrel.slist := insertUnreliable seg f.unrel.slist } else f

def send (env : Env) (buf : List Byte) (msgType : BitVec 16) (mode : Reliability) :
    Flow × Option ErrorCode :=
  if !f.ctl.socket ∨ f.ctl.state ≠ .established then (f, some .notConnected)
  else match mode with
    | .reliable => f.sendReliable env buf msgType
    | .semireliable => (f.sendUnreliable env buf msgType true, none)
    | .unreliable => (f.sendUnreliable env buf msgType false, none)

def asyncSend (env : Env) (buf : List Byte) (msgType : BitVec 16)
    (mode : Reliability) : Flow :=
  match f.send env buf msgType mode with
  | (f, none) => if mode = .reliable then f.post .allertWriteable else f
  | (f, some .wouldBlock) => f
  | (f, some ec) => f.post (.allertDisconnected ec)

def ping (env : Env) : Flow :=
  if f.ctl.state ≠ .established then f
  else
    let f := if f.snd.slist=[] ∧ f.snd.retransSlist=[] then f.queue [0] .ack else f
    f.attemptSend env .none

def keepAsyncReceiving : Flow :=
  if f.ctl.keepRecving then f
  else { f with ctl.keepRecving := true }.post .asyncReceive

def perform (env : Env) : AppOp → Flow
  | .send buf msgType mode => f.asyncSend env buf msgType mode
  | .ping => f.ping env
  | .close graceful => f.close env graceful
  | .keepReceiving => f.keepAsyncReceiving
  | .blockReceiving => { f with ctl.keepRecving := false }
  | .pingInterval msec => { f with tim.pingInterval := min msec (2^31 - 1) }

/-- One call of the application, which reaches the flow only through a connection. -/
def runOp (env : Env) (op : AppOp) : Flow :=
  if !f.ctl.socket then f else f.perform env op

def runOps (env : Env) (ops : List AppOp) : Flow :=
  ops.foldl (fun f op => f.runOp env op) f

/-- A callback, followed by what the application does before it returns. A connection that
is told of a failure lets go of the flow before it tells the application. -/
def call (env : Env) (c : Callback) : Flow :=
  let f := f.emit (.callback c)
  match c with
  | .onConnected (some _) | .onDisconnected _ => f
  | _ => f.runOps env (env.react f.callbacks)

end Flow
end P2Streaming.Urdp
