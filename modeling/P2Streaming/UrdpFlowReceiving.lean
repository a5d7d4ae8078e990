import P2Streaming.UrdpFlowSending

/-!
# `urdp_flow`: receiving

`__process` is cut where the source's own comments cut it: the checks on the basic
header, the switch over the control byte, acknowledgements, data, and the
notifications at the end. Each part is one definition here.
-/
namespace P2Streaming.Urdp
open BigEndianBytes WrappableInteger

/-- The two bytes `__can_let_transport_read` takes for the length of the next message; the
second may stand in the next segment. Without them the source reads past a buffer. -/
def lengthBytes : List RSegment → Option (List Byte)
  | ⟨b₀ :: b₁ :: _,_⟩ :: _ => some [b₀,b₁]
  | ⟨[b₀],_⟩ :: ⟨b₁::_,_⟩ :: _ => some [b₀,b₁]
  | _ => none

/-- The loop of `__recv` that takes bytes from the front of `m_rlist`. -/
def takeBytes : List RSegment → ℕ → Option (List Byte × List RSegment)
  | rlist, 0 => some ([], rlist)
  | [], _ + 1 => none
  | segment :: rest, n + 1 =>
      let lenth := min (n+1) segment.buf.length
      if segment.buf.length ≤ n + 1 then
        (takeBytes rest (n + 1 - lenth)).map fun r => (segment.buf.take lenth ++ r.1, r.2)
      else
        some (segment.buf.take lenth,
          ⟨segment.buf.drop lenth,segment.seq + BitVec.ofNat 32 lenth⟩ :: rest)

/-- `m_rlist.insert`: the set is ordered by `mod_less` on the sequence numbers, and of two
segments that neither precedes the other the older one stays. -/
def insertRSegment (rseg : RSegment) : List RSegment → List RSegment × Bool
  | [] => ([rseg], true)
  | s :: rest =>
      if modLess s.seq rseg.seq then
        let r := insertRSegment rseg rest
        (s::r.1, r.2)
      else if modLess rseg.seq s.seq then (rseg :: s :: rest, true)
      else (s::rest, false)

/-- The loop of `__process` that moves `m_rcv_nxt` over what has become contiguous. -/
def advanceRcvNxt : List RSegment → BitVec 32 → BitVec 32 → Bool → BitVec 32 × BitVec 32 × Bool
  | [], rcvNxt, rlen, newData => (rcvNxt, rlen, newData)
  | it :: rest, rcvNxt, rlen, newData =>
      if modLessEqual it.seq rcvNxt then
        let seqEnd := it.seq + BitVec.ofNat 32 it.buf.length
        if modLess rcvNxt seqEnd then
          let nAdjust := seqEnd - rcvNxt
          advanceRcvNxt rest (rcvNxt+nAdjust) (rlen+nAdjust) true
        else advanceRcvNxt rest rcvNxt rlen newData
      else (rcvNxt, rlen, newData)

/-- The cut of a segment that starts below `m_rcv_nxt`; the comparison is one of plain
unsigned words. -/
def trimSegment (rcvNxt seqno : BitVec 32) (data : List Byte) : BitVec 32 × List Byte :=
  if seqno < rcvNxt then
    let nAdjust := rcvNxt - seqno
    if nAdjust.toNat<data.length then (seqno+nAdjust, data.drop nAdjust.toNat)
    else (rcvNxt, [])
  else (seqno, data)

def popAcked (sndUna : BitVec 32) : List SSegment → List SSegment
  | [] => []
  | seg :: rest => if 0 < modMinus sndUna seg.seq then popAcked sndUna rest else seg :: rest

/-- `m_snd_una`, `m_slen` and `m_retrans_slist` after an accepted acknowledgement. -/
def Outgoing.acked (o : Outgoing) (ackno : BitVec 32) : Outgoing :=
  { o with
    sndUna := ackno
    slen := o.slen - (ackno - o.sndUna)
    retransSlist := popAcked ackno o.retransSlist }

/-- `timed_keeper_set::try_keep` for eight seconds. -/
def tryKeep (rkeeper : List (BitVec 16 × ℕ)) (tick : ℕ) (id : BitVec 16) :
    List (BitVec 16 × ℕ) × Bool :=
  let kept := rkeeper.filter fun e => tick < e.2
  if kept.any fun e => e.1 = id then (kept, false) else ((id, tick + 8000) :: kept, true)

namespace Flow

variable (f : Flow)

/-- `urdp_flow::__can_let_transport_read`; nothing where the source reads past a buffer. -/
def canLetTransportRead : Option ℤ :=
  if f.ctl.state ≠ .established then some (-1)
  else match f.unrel.rlist with
    | buf :: _ => some buf.length
    | [] =>
        if f.rcv.rlen.toNat<4 then some 0
        else (lengthBytes f.rcv.rlist).map fun bufForLen =>
          let maxReadLen := beValue bufForLen + 4
          if f.rcv.rlen.toNat < maxReadLen then 0 else maxReadLen

/-- The part of `__recv` that may open the advertised window again. -/
def reopenWindow (env : Env) : Flow :=
  let room := BitVec.ofNat 32 recvBufSize - f.rcv.rlen
  if min (recvBufSize / 2) mss ≤ (room - f.rcv.rcvWnd).toNat then
    let wasClosed := f.rcv.rcvWnd = 0
    let f := { f with rcv.rcvWnd := room }
    if wasClosed then f.attemptSend env .immediateAck else f
  else f

def recv (env : Env) : Flow × Except ErrorCode (List Byte) :=
  if !f.ctl.socket ∨ f.ctl.state ≠ .established then (f, .error .notConnected)
  else match f.canLetTransportRead with
    | none => ({ f with fault := some .rlist }, .error .wouldBlock)
    | some maxReadLen =>
        if maxReadLen=0 then ({ f with rcv.detectReadable := true }, .error .wouldBlock)
        else match f.unrel.rlist with
          | buf :: rest => ({ f with unrel.rlist := rest }, .ok buf)
          | [] =>
              match takeBytes f.rcv.rlist maxReadLen.toNat with
              | none => ({ f with fault := some .rlist }, .error .wouldBlock)
              | some (bytes, rlist) =>
                  -- the two length bytes are trimmed off before the buffer is handed on
                  let buf := bytes.drop 2
                  let rlen := f.rcv.rlen - BitVec.ofNat 32 maxReadLen.toNat
                  let f := { f with rcv := { f.rcv with rlist, rlen } }
                  ((f.emit (.recvd buf)).reopenWindow env, .ok buf)

/-- `m_establish_time` and `m_t_close_base` of a flow whose handshake has ended. -/
def noteEstablished (env : Env) : Flow :=
  { f with tim := { f.tim with establishTime := some env.now, tCloseBase := none } }

def allertConnected (env : Env) (ec : Option ErrorCode) : Flow :=
  let f := f.noteEstablished env
  if !f.ctl.socket ∨ f.ctl.canceled then f.doClose env true
  else match ec with
    | none => f.keepAsyncReceiving.call env (.onConnected none)
    | some ec => (f.call env (.onConnected (some ec))).toClosedState

/-- `urdp_flow::__allert_disconnected`; the log notes when a time-out is the reason. -/
def allertDisconnected (env : Env) (ec : Option ErrorCode) : Flow :=
  let f := if ec = some .timedOut then f.emit .timedOut else f
  if !f.ctl.socket ∨ f.ctl.canceled then f.toClosedState
  else
    let f := if !f.ctl.disconnLocal ∧ f.ctl.state ≠ .closed then
        if .established ≤ f.ctl.state then f.call env (.onDisconnected ec)
        else if f.ctl.active then f.call env (.onConnected ec)
        else f
      else f
    f.toClosedState

def allertReceived (env : Env) (buf : List Byte) : Flow :=
  if !f.ctl.socket ∨ f.ctl.canceled then f.doClose env true
  else f.call env (.onReceived buf)

/-- `urdp_flow::__async_receive`; the count bounds its recursion. -/
def asyncReceive (env : Env) : ℕ → Flow → Flow
  | 0, f => f
  | n + 1, f =>
      if f.ctl.canceled ∨ f.ctl.state = .closed then f
      else if !f.ctl.keepRecving then f
      else match f.recv env with
        | (f, .ok buf) => asyncReceive env n (f.allertReceived env buf)
        | (f, .error .wouldBlock) => f
        | (f, .error ec) => f.allertDisconnected env (some ec)

/-- Every round takes an unreliable message or at least four bytes of the stream. -/
def receiveRounds : ℕ := f.unrel.rlist.length + f.rcv.rlen.toNat + 1

def allertReadable (env : Env) : Flow :=
  if !f.ctl.socket ∨ f.ctl.canceled then f.doClose env true
  else if !f.rcv.detectReadable then f
  else match f.canLetTransportRead with
    | none => { f with fault := some .rlist }
    | some maxReadLen =>
        if maxReadLen=0 then f
        else
          let f := { f with rcv.detectReadable := false }
          if f.ctl.keepRecving then asyncReceive env f.receiveRounds f else f

def allertWriteable (env : Env) : Flow :=
  if !f.ctl.socket ∨ f.ctl.canceled then f.doClose env true
  else if f.snd.slen.toNat<sndBufSize then
    { f with cc.detectWritable := false }.call env .onWritable
  else f

/-- `set_socket` and `dispatch_accepted`, for a flow the acceptor finds connected. -/
def acceptFlow (env : Env) : Flow :=
  if f.ctl.state = .established then { f with ctl.socket := true }.call env .acceptFlow else f

def allertAccepted (env : Env) : Flow :=
  if f.ctl.canceled then f.doClose env true
  else
    let f := f.noteEstablished env
    match env.accepting with
    | .dispatched => f.keepAsyncReceiving.acceptFlow env
    | .pending => { f.keepAsyncReceiving with ctl.acceptPending := true }
    | .expired => f.close env true

def updateRtt (rtt : ℤ) : Flow :=
  if rtt<0 then f
  else
    let rtt := max 20 rtt.toNat
    let srtt := if f.tim.srtt=0 then rtt else (7 * f.tim.srtt + rtt) / 8
    let rttvar := if f.tim.srtt=0 then rtt / 2
      else (3 * f.tim.rttvar + (max rtt f.tim.srtt - min rtt f.tim.srtt)) / 4
    { f with tim := { f.tim with
      srtt, rttvar, rto := bound minRto (srtt + max 1 (4*rttvar)) maxRto } }

/-- The oldest unacknowledged segment once more; if that fails the peer is given up, and
the caller returns. -/
def retransmit (env : Env) : Flow × Bool :=
  match f.transmitRetrans env with
  | (f, true) => (f, true)
  | (f, false) => (f.allertDisconnected env (some .timedOut), false)

/-- Recovery, slow start and congestion avoidance after `nAcked` new bytes; the answer is
`false` when `__process` returns here. -/
def adjustWindow (env : Env) (nAcked : BitVec 32) : Flow × Bool :=
  let mss32 := BitVec.ofNat 32 mss
  if 3≤f.cc.dupAcks.toNat then
    if f.cc.recover≤f.snd.sndUna then
      let nInFlight := f.snd.sndNxt - f.snd.sndUna
      let cwnd := BitVec.ofNat 32 (min f.cc.ssthresh.toNat (nInFlight+mss32).toNat)
      ({ f with cc := { f.cc with cwnd, dupAcks := 0 } }, true)
    else
      match f.retransmit env with
      | (f, false) => (f, false)
      | (f, true) =>
          let less := BitVec.ofNat 32 (min nAcked.toNat f.cc.cwnd.toNat)
          ({ f with cc.cwnd := f.cc.cwnd + (mss32 - less) }, true)
  else
    let more := if f.cc.cwnd<f.cc.ssthresh then mss
      else max 1 (mss * mss / f.cc.cwnd.toNat)
    ({ f with cc := { f.cc with cwnd := f.cc.cwnd + BitVec.ofNat 32 more, dupAcks := 0 } }, true)

/-- The round-trip time an echoed time stamp gives; zero is no time stamp. -/
def echoRtt (env : Env) (timeEcho : BitVec 16) : Flow :=
  if timeEcho=0 then f else f.updateRtt (modMinus (env.now.setWidth 16) timeEcho)

/-- The queues and the retransmission timer after an acknowledgement of new data. -/
def takeAck (env : Env) (h : ReliableHeader) : Flow :=
  let f := f.echoRtt env h.timeEcho
  let snd := f.snd.acked h.ackno
  let tRtoBase := if snd.retransSlist=[] ∨ snd.sndUna=snd.sndNxt then 0
    else if f.tim.tRtoBase=0 then scapeZero env.now else f.tim.tRtoBase
  { f with snd := snd, tim.tRtoBase := tRtoBase, cc.sndWnd := h.window.setWidth 32 }

/-- `m_snd_una < ackno <= m_snd_nxt`. The answer is absent when `__process` returns here and
else says whether the flow has just become established on the passive side. -/
def processNewAck (env : Env) (h : ReliableHeader) : Flow × Option Bool :=
  match (f.takeAck env h).adjustWindow env (h.ackno - f.snd.sndUna) with
  | (f, false) => (f, none)
  | (f, true) =>
      if f.ctl.state = .synRcvd then ({ f with ctl.state := .established }, some true)
      else (f, some false)

/-- One more duplicate acknowledgement; the third starts recovery. -/
def countDupAck (env : Env) : Flow × Bool :=
  let dupAcks := f.cc.dupAcks+1
  if dupAcks=3 then
    let nInFlight := f.snd.sndNxt - f.snd.sndUna
    let ssthresh := BitVec.ofNat 32 (max ((nInFlight*3).toNat / 4) (3*mss))
    { f with cc := { f.cc with dupAcks, ssthresh, recover := f.snd.sndNxt } }.retransmit env
  else
    let cwnd := if 3<dupAcks.toNat then f.cc.cwnd + BitVec.ofNat 32 mss else f.cc.cwnd
    ({ f with cc := { f.cc with dupAcks, cwnd } }, true)

/-- `ackno == m_snd_una`. -/
def processDupAck (env : Env) (h : ReliableHeader) (data : List Byte) :
    Flow × Option Bool :=
  let f := { f with cc.sndWnd := h.window.setWidth 32 }
  if data≠[] then (f, some false)
  else if f.snd.sndUna=f.snd.sndNxt then ({ f with cc.dupAcks := 0 }, some false)
  else match f.countDupAck env with
    | (f, false) => (f, none)
    | (f, true) => (f, some false)

/-- The acknowledgement part of `__process`. -/
def processAck (env : Env) (h : ReliableHeader) (data : List Byte) :
    Flow × Option Bool :=
  if modLess f.snd.sndUna h.ackno ∧ modLessEqual h.ackno f.snd.sndNxt then
    f.processNewAck env h
  else if h.ackno=f.snd.sndUna then f.processDupAck env h data
  else (f, some false)

/-- Data that fits: `m_rlist`, `m_rcv_wnd`, `m_rcv_nxt` and `m_rlen`, and whether there is
something new to read. -/
def insertData (seqno : BitVec 32) (data : List Byte) : Flow × Bool :=
  let (rlist, inserted) := insertRSegment ⟨data,seqno⟩ f.rcv.rlist
  let rcvWnd := if inserted then
      BitVec.ofNat 32 (f.rcv.rcvWnd.toNat - data.length) else f.rcv.rcvWnd
  if seqno=f.rcv.rcvNxt then
    let (rcvNxt, rlen, newData) := advanceRcvNxt rlist f.rcv.rcvNxt f.rcv.rlen false
    ({ f with rcv := { f.rcv with rlist, rcvWnd, rcvNxt, rlen } }, newData)
  else ({ f with rcv := { f.rcv with rlist, rcvWnd } }, false)

/-- The data part of `__process`. -/
def processData (control : Ctrl) (seqno : BitVec 32) (data : List Byte) :
    Flow × Bool :=
  let (seqno, data) := trimSegment f.rcv.rcvNxt seqno data
  let past := modMinus (seqno + BitVec.ofNat 32 data.length) f.rcv.rcvNxt
  if data=[] ∨ f.rcv.rlist≠[] ∧ recvBufSize≤past then (f, false)
  else if control ≠ .data ∨ f.ctl.shutdown ≠ .none then
    if seqno=f.rcv.rcvNxt then
      ({ f with rcv.rcvNxt := f.rcv.rcvNxt + BitVec.ofNat 32 data.length }, false)
    else (f, false)
  else f.insertData seqno data

/-- What the end of `__process` tells the connection. -/
def notify (env : Env) (connected newData accepted : Bool) : Flow :=
  let readable := newData && f.rcv.detectReadable
  let writable := f.cc.detectWritable && decide (f.snd.slen.toNat < (sndBufSize+recvBufSize) / 2)
  let f := if connected then f.allertConnected env none else f
  let f := if writable then f.allertWriteable env else f
  let f := if readable then f.allertReadable env else f
  if accepted then f.allertAccepted env else f

/-- The end of `__process`: a closing flow whose data has all been acknowledged sends its
`CTRL_FIN`, any other sends what it can and notifies. -/
def respond (env : Env) (ackno : BitVec 32) (sflags : SendFlags)
    (connected newData accepted : Bool) : Flow :=
  if f.ctl.state = .closing ∧ ackno=f.snd.sndNxt then f.sendFin env
  else (f.attemptSend env sflags).notify env connected newData accepted

/-- `__process` behind the acknowledgement part. -/
def processRest (env : Env) (h : ReliableHeader) (data : List Byte)
    (connected accepted : Bool) : Flow :=
  let sflags := if h.seqno≠f.rcv.rcvNxt ∨ connected then SendFlags.immediateAck
    else if data≠[] then .delayedAck else .none
  let (f, newData) := f.processData h.control h.seqno data
  f.respond env h.ackno sflags connected newData accepted

/-- `m_t_recent` follows the segment that covers the last acknowledgement sent. -/
def updateTimes (env : Env) (h : ReliableHeader) (data : List Byte) : Flow :=
  let f := { f with tim := { f.tim with tLasttraffic := env.now, tLastrecv := env.now } }
  if modLessEqual h.seqno f.cc.lastack ∧
      modLess f.cc.lastack (h.seqno + BitVec.ofNat 32 data.length) then
    { f with tim := { f.tim with
      tRecentNow := env.now.setWidth 16, tRecent := h.timeSending } }
  else f

/-- `__process` behind the switch. -/
def processSegment (env : Env) (h : ReliableHeader) (data : List Byte)
    (src : Endpoint) (connected : Bool) : Flow × Bool :=
  if .synSent ≤ f.ctl.state ∧ f.ctl.remoteEndpoint≠src then (f, false)
  else match (f.updateTimes env h data).processAck env h data with
    | (f, none) => (f, true)
    | (f, some accepted) => (f.processRest env h data connected accepted, true)

/-- `CTRL_CONNECT` on a listening flow. -/
def processConnect (env : Env) (h : ReliableHeader) (data : List Byte)
    (src : Endpoint) : Flow :=
  let rcvNxt := h.seqno + BitVec.ofNat 32 data.length
  let f := { f with
    ctl := { f.ctl with
      state := .synRcvd
      remotePeerId := h.peerId.setWidth 32
      sessionId := h.sessionId
      remoteEndpoint := src }
    rcv.rcvNxt := rcvNxt
    cc.lastack := rcvNxt
    tim := { f.tim with
      tRecent := h.timeSending
      tRecentNow := env.now.setWidth 16
      tLasttraffic := env.now
      tLastrecv := env.now } }
  (f.queue (beBytes 4 f.ctl.flowId.toNat) .connectAck).attemptSend env .immediateAck

/-- `CTRL_CONNECT_ACK` on a flow that waits for it. -/
def processConnectAck (h : ReliableHeader) (data : List Byte) : Flow :=
  { f with
    ctl := { f.ctl with
      state := .established
      remotePeerId := BitVec.ofNat 32 (beValue (data.take 4)) }
    rcv.rcvNxt := h.seqno
    cc.lastack := h.seqno }

/-- `CTRL_PUNCH`: the connect request is sent to where the punch came from. -/
def processPunch (env : Env) (src : Endpoint) : Flow :=
  let f := { f with
    ctl.remoteEndpoint := src
    tim := { f.tim with tLasttraffic := env.now, tLastrecv := env.now } }
  match f.snd.retransSlist with
  | [seg] =>
      if seg.ctrlType = .connect then
        ({ f with snd.retransSlist := [{ seg with xmit := 1 }] }.transmitRetrans env).1
      else f
  | _ => f

/-- The switch of `__process` over the control byte of a reliable datagram. -/
def processReliable (env : Env) (h : ReliableHeader) (data : List Byte)
    (src : Endpoint) : Flow × Bool :=
  match h.control with
  | .networkUnreachable =>
      if h.sessionId≠f.ctl.sessionId then (f, true)
      else if f.ctl.state = .synSent then (f.allertConnected env (some .hostUnreachable), true)
      else ({ f with ctl.disconnRemote := true }.allertDisconnected env (some .connectionReset),
        true)
  | .connect => (if f.ctl.state = .listen then f.processConnect env h data src else f, true)
  | .connectAck =>
      if f.ctl.state = .synSent then
        if h.sessionId≠f.ctl.sessionId ∨ data.length<4 then (f, false)
        else (f.processConnectAck h data).processSegment env h data src true
      else f.processSegment env h data src false
  | .punch => (f.processPunch env src, true)
  | .rst =>
      ({ f with ctl.disconnRemote := true }.allertDisconnected env (some .connectionReset), true)
  | .fin =>
      let f := { f with ctl.disconnRemote := true }
      let f := f.packetAsReliableAndSendout env f.snd.sndNxt .finAck []
      (f.allertDisconnected env (some .connectionReset), true)
  | .finAck => (f.allertDisconnected env none, true)
  | _ => f.processSegment env h data src false

/-- `CTRL_UNRELIABLE_DATA` and `CTRL_SEMIRELIABLE_DATA`. -/
def processUnreliable (env : Env) (control : Ctrl) (sbuf : List Byte) : Flow × Bool :=
  if unreliableFormatSize + 4 ≤ sbuf.length ∧ f.ctl.socket ∧ f.ctl.state = .established then
    let pkt := sbuf.drop (unreliableFormatSize+2)
    let push (f : Flow) := { f with unrel.rlist := f.unrel.rlist ++ [pkt] }.allertReadable env
    if control = .unreliableData then (push f, true)
    else
      let id := BitVec.ofNat 16 (field sbuf unreliableFormatSize 2)
      let (rkeeper, kept) := tryKeep f.unrel.rkeeper env.tick id
      let f := { f with unrel.rkeeper := rkeeper }
      (if kept then push f else f, true)
  else (f, false)

/-- The first check of `__process`: the session, and the endpoint once established. -/
def rejects (h : Header) (src : Endpoint) : Prop :=
  .synSent ≤ f.ctl.state ∧
    (h.sessionId≠f.ctl.sessionId ∨ .established ≤ f.ctl.state ∧ f.ctl.remoteEndpoint≠src)

instance (h : Header) (src : Endpoint) : Decidable (f.rejects h src) := by
  unfold rejects
  infer_instance

/-- What `__process` takes from every header that passes that check. -/
def noteHeader (env : Env) (h : Header) : Flow :=
  { f with
    tim := { f.tim with tLasttraffic := env.now, tLastrecv := env.now }
    cc.sndWnd := h.window.setWidth 32
    unrel.localToRemoteLostRate := some h.lostrateRecving }

def process (env : Env) (sbuf : List Byte) (src : Endpoint) : Flow × Bool :=
  if f.ctl.state = .closed then (f, true)
  else if sbuf.length<unreliableFormatSize then (f, false)
  else
    let h := Header.decode sbuf
    if f.rejects h src then (f, false)
    else
      let f := f.noteHeader env h
      if h.control = .unreliableData ∨ h.control = .semireliableData then
        f.processUnreliable env h.control sbuf
      else if sbuf.length < reliableFormatSize then (f, false)
      else f.processReliable env (ReliableHeader.decode sbuf) (sbuf.drop reliableFormatSize) src

def onReceived (env : Env) (sbuf : List Byte) (src : Endpoint) : Flow :=
  match f.process env sbuf src with
  | (f, true) => f
  | (f, false) =>
      if f.ctl.ignoreAllPkt then f
      else { f.packetAsReliableAndSendout env f.snd.sndNxt .rst [] with ctl.ignoreAllPkt := true }

end Flow
end P2Streaming.Urdp
