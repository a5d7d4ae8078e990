import P2Streaming.UrdpFlowEvents
import P2Streaming.TransitionRuns

/-!
# The small steps a flow is made of

A call of `urdp_flow` does many things at once, but few that its invariants are
about. `Core` keeps the members those invariants mention, and `Micro` lists every
way in which a call changes them, each with what is known at that point of the
code. Two assumptions can be switched on: `strict`, that the retransmission queue
is only used as it was meant to be, and `trusted`, that a reset is only sent when
the application has closed the flow or a time-out has expired.
-/
namespace P2Streaming.Urdp
open BigEndianBytes Relation TransitionRuns List

structure Core where
  state : TcpState
  shutdown : ShutdownMode
  socket : Bool
  canceled : Bool
  closeCalled : Bool
  active : Bool
  sessionId : BitVec 16
  remoteEndpoint : Endpoint
  snd : Outgoing
  recover : BitVec 32
  dupAcks : BitVec 8
  rlist : List RSegment
  rcvNxt : BitVec 32
  rlen : BitVec 32
  ackDue : Bool
  unreliableDue : Bool
  detectWritable : Bool
  posted : List Posted
  log : List Output
  fault : Option Fault

@[simps] def Flow.core (f : Flow) : Core where
  state := f.ctl.state
  shutdown := f.ctl.shutdown
  socket := f.ctl.socket
  canceled := f.ctl.canceled
  closeCalled := f.ctl.closeCalled
  active := f.ctl.active
  sessionId := f.ctl.sessionId
  remoteEndpoint := f.ctl.remoteEndpoint
  snd := f.snd
  recover := f.cc.recover
  dupAcks := f.cc.dupAcks
  rlist := f.rcv.rlist
  rcvNxt := f.rcv.rcvNxt
  rlen := f.rcv.rlen
  ackDue := f.tim.tAck != 0
  unreliableDue := !f.unrel.slist.isEmpty
  detectWritable := f.cc.detectWritable
  posted := f.posted
  log := f.log
  fault := f.fault

structure Arrival where
  header : ReliableHeader
  data : List Byte
  src : Endpoint

/-- Control bytes that the switch of `__process` lets through to the acknowledgement part. -/
def Ctrl.ordinary : Ctrl → Bool
  | .connectAck | .connectAckAck | .data | .ack | .unassigned _ => true
  | _ => false

/-- The application or the owner has closed the flow, or a time-out has expired. -/
def Excused (log : List Output) : Prop := .closeCalled ∈ log ∨ .timedOut ∈ log

def Output.plain : Output → Bool
  | .callback _ | .closeCalled | .timedOut | .closed | .unregistered => true
  | _ => false

/-- The queues after everything queued has gone out for the first time. -/
def Outgoing.drained (o : Outgoing) : Outgoing :=
  { o with
    slist := []
    retransSlist := o.retransSlist ++ o.slist.map fun seg => { seg with xmit := seg.xmit + 1 }
    sndNxt := o.sndNxt + BitVec.ofNat 32 (o.slist.map fun seg => seg.buf.length).sum }

theorem Outgoing.drained_nil {o : Outgoing} (h : o.slist=[]) : o.drained=o := by
  cases o
  simp_all [drained]

/-- What one call of `__attempt_send` does to the queues. -/
structure Attempt (pre post : Window) : Prop where
  unsent : ∀ seg∈pre.snd.slist, seg.xmit=0
  snd : post.snd=pre.snd.drained
  sndWnd : post.sndWnd=pre.sndWnd
  cwnd : post.cwnd=pre.cwnd

/-- The acknowledgement number covers whole segments of the retransmission queue. -/
def Outgoing.Boundary (o : Outgoing) (ackno : BitVec 32) : Prop :=
  ∃ n≤o.retransSlist.length,
    (ackno - o.sndUna).toNat = ((o.retransSlist.take n).map fun seg => seg.buf.length).sum

namespace Core

variable (c : Core)

def emit (o : Output) : Core := { c with log := c.log ++ [o] }

def transmitted (h : ReliableHeader) (data : List Byte) : Core :=
  { c with
    log := c.log ++ [.datagram c.remoteEndpoint (.reliable h data)]
    ackDue := false }

structure Fits (c : Core) (h : ReliableHeader) (control : Ctrl) (seq : BitVec 32) : Prop where
  control : h.control=control
  seqno : h.seqno=seq
  ackno : h.ackno=c.rcvNxt
  sessionId : h.sessionId=c.sessionId
  live : c.state ≠ .closed

def toClosed : Core :=
  { c with
    state := .closed
    canceled := true
    socket := false
    snd := { c.snd with slist := [], retransSlist := [] }
    rlist := []
    posted := c.posted ++ [.flowUnregister]
    log := c.log ++ [.closed] }

/-- What the flow may note in passing. It calls its connection only while it has one, and the
last call is part of closing. -/
def Notes : Output → Prop
  | .callback cb => c.socket = true ∧ cb.terminal=false
  | .closeCalled | .timedOut => True
  | _ => False

theorem Notes.plain {c : Core} {o : Output} (h : c.Notes o) : o.plain=true := by
  cases o <;> first | rfl | exact h.elim

/-- The receive queue after a segment that starts at or above `m_rcv_nxt`. -/
def inserted (seqno : BitVec 32) (data : List Byte) : Core :=
  let rlist := (insertRSegment ⟨data,seqno⟩ c.rlist).1
  let r := if seqno=c.rcvNxt then advanceRcvNxt rlist c.rcvNxt c.rlen false
    else (c.rcvNxt, c.rlen, false)
  { c with rlist := rlist, rcvNxt := r.1, rlen := r.2.1 }

/-- What is left of an arriving segment once it is trimmed and fits the buffer. -/
structure Remains (c : Core) (a : Arrival) (seqno : BitVec 32) (data : List Byte) : Prop where
  trim : trimSegment c.rcvNxt a.header.seqno a.data = (seqno, data)
  nonempty : data≠[]
  fits : ¬(c.rlist≠[] ∧
    recvBufSize ≤ modMinus (seqno + BitVec.ofNat 32 data.length) c.rcvNxt)

/-- One reliable message leaves `m_rlist`. -/
structure Delivery (c : Core) (buf : List Byte) (d : Core) : Prop where
  established : c.state = .established
  socket : c.socket=true
  step : ∃ bufForLen bytes rlist, lengthBytes c.rlist = some bufForLen ∧
    beValue bufForLen + 4 ≤ c.rlen.toNat ∧
    takeBytes c.rlist (beValue bufForLen + 4) = some (bytes, rlist) ∧ buf = bytes.drop 2 ∧
    d = { c with
      rlist := rlist
      rlen := c.rlen - BitVec.ofNat 32 (beValue bufForLen + 4)
      log := c.log ++ [.recvd buf] }

/-- The peer's stream has a position here: every state after the first synchronising
datagram of the peer. -/
def Synced : Prop := TcpState.synRcvd ≤ c.state

/-- The flow has an excuse for a reset, and it is not one that nobody has called yet. -/
def Excused : Prop := Urdp.Excused c.log ∧ (c.active=true ∨ c.state ≠ .listen)

/-- The datagram is one the flow answers as it is: it does not end the handshake here. -/
def Answers (rx : Option Arrival) : Prop :=
  ∃ a∈rx, a.header.control.ordinary=true ∧ (c.state = .synSent → a.header.control ≠ .connectAck)

/-- Everything queued goes out at once, one header for each segment. -/
def sentOut (snd : Outgoing) (hs : List ReliableHeader) : Core :=
  { c with
    log := c.log ++ List.zipWith (fun seg h => .datagram c.remoteEndpoint (.reliable h seg.buf))
      snd.slist hs
    snd := snd.drained
    ackDue := c.ackDue && snd.slist.isEmpty }

def Headers (slist : List SSegment) (hs : List ReliableHeader) : Prop :=
  List.Forall₂ (fun seg h => c.Fits h seg.ctrlType seg.seq) slist hs

/-- `__recv` would read past the buffers of `m_rlist`. -/
def Stuck : Prop :=
  4 ≤ c.rlen.toNat ∧ ∀ bufForLen, lengthBytes c.rlist = some bufForLen →
    beValue bufForLen + 4 ≤ c.rlen.toNat ∧ takeBytes c.rlist (beValue bufForLen + 4) = none

end Core

def OrdinaryArrival (rx : Option Arrival) : Prop := ∃ a∈rx, a.header.control.ordinary=true

open Urdp.Core in
/-- The small steps. `rx` is the reliable datagram the flow is processing, if any. -/
inductive Micro (strict trusted : Prop) (rx : Option Arrival) : Core → Core → Prop
  | note {c : Core} (o : Output) (noted : c.Notes o) : Micro strict trusted rx c (c.emit o)
  | attempted {c : Core} {pre post : Window} (h : Attempt pre post) :
      Micro strict trusted rx c (c.emit (.attempted pre post))
  | ack {c : Core} {h : ReliableHeader} {seq : BitVec 32} (fits : Fits c h .ack seq)
      (due : .established ≤ c.state ∨ c.ackDue=true ∨ c.Answers rx) :
      Micro strict trusted rx c (c.transmitted h [])
  | finAck {c : Core} {h : ReliableHeader} (fits : Fits c h .finAck c.snd.sndNxt)
      (asked : ∃ a∈rx, a.header.control = .fin) :
      Micro strict trusted rx c (c.transmitted h [])
  | rst {c : Core} {h : ReliableHeader} (fits : Fits c h .rst c.snd.sndNxt)
      (excused : trusted → c.Excused) : Micro strict trusted rx c (c.transmitted h [])
  | unreliable {c : Core} {h : Header} {pktID msgType : BitVec 16} {data : List Byte}
      (control : h.control = .unreliableData ∨ h.control = .semireliableData)
      (sessionId : h.sessionId=c.sessionId)
      (due : c.state = .established ∨ c.unreliableDue=true) (live : c.state ≠ .closed) :
      Micro strict trusted rx c
        (c.emit (.datagram c.remoteEndpoint (.unreliable h pktID msgType data)))
  | ackDue {c : Core} (due : .established ≤ c.state ∨ c.Answers rx) (live : c.state ≠ .closed) :
      Micro strict trusted rx c { c with ackDue := true }
  | unreliableDue {c : Core} (b : Bool)
      (due : b=true → c.state = .established ∨ c.unreliableDue=true) :
      Micro strict trusted rx c { c with unreliableDue := b }
  | detectWritable {c : Core} (b : Bool) (due : b=true → c.state = .established) :
      Micro strict trusted rx c { c with detectWritable := b }
  | post {c : Core} (p : Posted) (ordinary : p ≠ .flowUnregister)
      (due : c.active=true ∨ .established ≤ c.state) :
      Micro strict trusted rx c { c with posted := c.posted ++ [p] }
  | unpost {c : Core} {p : Posted} {rest : List Posted} (h : c.posted = p :: rest)
      (ordinary : p ≠ .flowUnregister) : Micro strict trusted rx c { c with posted := rest }
  | unregister {c : Core} {rest : List Posted} (h : c.posted = .flowUnregister :: rest) :
      Micro strict trusted rx c { c with posted := rest, log := c.log ++ [.unregistered] }
  | send {c : Core} {buf : List Byte} {msgType : BitVec 16} {snd : Outgoing}
      {hs : List ReliableHeader} (established : c.state = .established) (socket : c.socket=true)
      (queued : snd = (c.snd.queue (beBytes 2 (buf.length % 2^16) ++ beBytes 2 msgType.toNat)
        .data).queue (buf.take (buf.length % 2^16)) .data)
      (headers : c.Headers snd.slist hs) :
      Micro strict trusted rx c ((c.emit (.sent msgType buf)).sentOut snd hs)
  | ping {c : Core} {hs : List ReliableHeader} (established : c.state = .established)
      (idle : c.snd.retransSlist=[]) (headers : c.Headers (c.snd.queue [0] .ack).slist hs) :
      Micro strict trusted rx c (c.sentOut (c.snd.queue [0] .ack) hs)
  | connect {c d : Core} {dst : Endpoint} {domainName : List Byte} {hs : List ReliableHeader}
      (fresh : c.state = .init) (socket : c.socket=true)
      (asked : d = { c with state := .synSent, active := true, remoteEndpoint := dst })
      (headers : d.Headers (d.snd.queue domainName .connect).slist hs) :
      Micro strict trusted rx c (d.sentOut (d.snd.queue domainName .connect) hs)
  | listened {c d : Core} {a : Arrival} {flowId : BitVec 32} {hs : List ReliableHeader}
      (arrival : a∈rx) (control : a.header.control = .connect) (listening : c.state = .listen)
      (called : d = { c with
        state := .synRcvd, sessionId := a.header.sessionId, remoteEndpoint := a.src
        rcvNxt := a.header.seqno + BitVec.ofNat 32 a.data.length })
      (headers : d.Headers (d.snd.queue (beBytes 4 flowId.toNat) .connectAck).slist hs) :
      Micro strict trusted rx c (d.sentOut (d.snd.queue (beBytes 4 flowId.toNat) .connectAck) hs)
  | retransmit {c : Core} {h : ReliableHeader} {seg : SSegment} {rest : List SSegment}
      (oldest : c.snd.retransSlist = seg :: rest) (counted : strict → seg.xmit≠0)
      (fits : Fits c h seg.ctrlType seg.seq) :
      Micro strict trusted rx c
        { c.transmitted h seg.buf with
          snd := { c.snd with
            retransSlist := { seg with xmit := seg.xmit + 1 } :: rest
            sndNxt := if seg.xmit=0 then c.snd.sndNxt + BitVec.ofNat 32 seg.buf.length
              else c.snd.sndNxt } }
  | accept {c : Core} {a : Arrival} (arrival : a∈rx)
      (ordinary : a.header.control.ordinary=true)
      (above : modLess c.snd.sndUna a.header.ackno = true)
      (upTo : modLessEqual a.header.ackno c.snd.sndNxt = true)
      (boundary : strict → c.snd.Boundary a.header.ackno)
      (waiting : c.state = .synRcvd → 3 ≤ c.dupAcks.toNat) :
      Micro strict trusted rx c { c with snd := c.snd.acked a.header.ackno }
  | acceptFirst {c : Core} {a : Arrival} (arrival : a∈rx)
      (ordinary : a.header.control.ordinary=true)
      (above : modLess c.snd.sndUna a.header.ackno = true)
      (upTo : modLessEqual a.header.ackno c.snd.sndNxt = true)
      (boundary : strict → c.snd.Boundary a.header.ackno) (waiting : c.state = .synRcvd) :
      Micro strict trusted rx c
        { c with snd := c.snd.acked a.header.ackno, dupAcks := 0, state := .established }
  | dupAcks {c : Core} (n : BitVec 8) (recover : BitVec 32) (ordinary : OrdinaryArrival rx)
      (recovering : 3≤n.toNat →
        3 ≤ c.dupAcks.toNat ∧ recover=c.recover ∨ recover=c.snd.sndNxt)
      (duplicate : n≠0 → c.Answers rx ∧ ∃ a∈rx, a.header.ackno=c.snd.sndUna) :
      Micro strict trusted rx c { c with dupAcks := n, recover := recover }
  | established {c : Core} (waiting : c.state = .synRcvd)
      (late : ∃ a∈rx, a.header.control.ordinary=true ∧ a.header.ackno=c.snd.sndUna) :
      Micro strict trusted rx c { c with state := .established }
  | synced {c : Core} {a : Arrival} (arrival : a∈rx)
      (control : a.header.control = .connectAck) (waiting : c.state = .synSent)
      (sessionId : a.header.sessionId=c.sessionId) (id : 4≤a.data.length) :
      Micro strict trusted rx c
        { c with
          state := .established
          rcvNxt := a.header.seqno + BitVec.ofNat 32 a.data.length }
  | syncedEarly {c : Core} {a : Arrival} (arrival : a∈rx)
      (control : a.header.control = .connectAck) (waiting : c.state = .synSent)
      (odd : 3 ≤ c.dupAcks.toNat ∨ c.rlist≠[] ∨ c.remoteEndpoint≠a.src) :
      Micro strict trusted rx c { c with state := .established, rcvNxt := a.header.seqno }
  | insert {c : Core} {a : Arrival} {seqno : BitVec 32} {data : List Byte} (arrival : a∈rx)
      (control : a.header.control = .data) (reading : c.shutdown = .none)
      (remains : c.Remains a seqno data) : Micro strict trusted rx c (c.inserted seqno data)
  | skip {c : Core} {a : Arrival} {seqno : BitVec 32} {data : List Byte} (arrival : a∈rx)
      (ordinary : a.header.control.ordinary=true)
      (ignored : a.header.control ≠ .data ∨ c.shutdown ≠ .none)
      (remains : c.Remains a seqno data) (here : seqno=c.rcvNxt) :
      Micro strict trusted rx c { c with rcvNxt := c.rcvNxt + BitVec.ofNat 32 data.length }
  | closing {c : Core} (connected : .established ≤ c.state) (live : c.state ≠ .closed)
      (first : c.closeCalled=false) :
      Micro strict trusted rx c
        { c with
          canceled := true, socket := false, closeCalled := true, shutdown := .graceful
          state := .closing }
  | fin {c : Core} {h : ReliableHeader} (waiting : c.state = .closing)
      (fits : Fits c h .fin c.snd.sndNxt)
      (done : c.snd.retransSlist=[] ∨ ∃ a∈rx, a.header.control.ordinary=true ∧
        a.header.ackno = c.snd.sndNxt ∧
        (c.snd.sndUna=c.snd.sndNxt ∨ modLess c.snd.sndUna c.snd.sndNxt = false)) :
      Micro strict trusted rx c { c.transmitted h [] with state := .watingFinAck }
  | abort {c : Core} {h : ReliableHeader} (fits : Fits c h .rst c.snd.sndNxt)
      (excused : trusted → c.Excused) :
      Micro strict trusted rx c
        { (c.transmitted h []).toClosed with closeCalled := true, shutdown := .forceful }
  | closed {c : Core} (live : c.state ≠ .closed) : Micro strict trusted rx c c.toClosed
  | report {c : Core} (cb : Callback) (last : cb.terminal=true) (attached : c.socket=true)
      (live : c.state ≠ .closed) : Micro strict trusted rx c (c.emit (.callback cb)).toClosed
  | cancel {c : Core} (dead : c.state = .closed) :
      Micro strict trusted rx c { c with canceled := true }
  | accepted {c : Core} (connected : c.state = .established) :
      Micro strict trusted rx c { c with socket := true }
  | punch {c : Core} {a : Arrival} {retransSlist : List SSegment} (arrival : a∈rx)
      (control : a.header.control = .punch)
      (same : retransSlist=c.snd.retransSlist ∨ ∃ seg, c.snd.retransSlist = [seg] ∧
        retransSlist = [{ seg with xmit := 1 }]) :
      Micro strict trusted rx c
        { c with remoteEndpoint := a.src, snd := { c.snd with retransSlist := retransSlist } }
  | faultSending {c : Core} (loose : ¬strict) (empty : c.snd.retransSlist=[]) :
      Micro strict trusted rx c { c with fault := some .retransSlist }
  | faultReading {c : Core} (reading : c.state = .established) (stuck : c.Stuck) :
      Micro strict trusted rx c { c with fault := some .rlist }

/-- A small step, or a message that leaves `__recv` and reaches the application. -/
inductive Move (strict trusted : Prop) (rx : Option Arrival) : Core → Core → Prop
  | micro {c d : Core} (h : Micro strict trusted rx c d) : Move strict trusted rx c d
  | handover {c c₁ c₂ : Core} {buf : List Byte} (taken : c.Delivery buf c₁)
      (quiet : ReflTransGen (Micro strict trusted rx) c₁ c₂) (attached : c₂.socket=true) :
      Move strict trusted rx c (c₂.emit (.callback (.onReceived buf)))

theorem Core.sentOut_nil {c : Core} (h : c.snd.slist=[]) : c.sentOut c.snd [] = c := by
  rw [sentOut,Outgoing.drained_nil h,h]
  cases c
  simp

/-- What holds between any two small steps, whatever the peer sends. -/
structure Core.Local (c : Core) : Prop where
  drained : c.snd.slist=[]
  canceled : c.canceled=true → c.closeCalled=true ∨ c.state = .closed
  closeCalled : c.closeCalled=true → .closing ≤ c.state
  detached : c.canceled=true ∨ c.state = .closed → c.socket=false
  attached : c.active=true → c.canceled=false → c.socket=true
  synSent : c.state = .synSent → c.active=true
  unreliableDue : c.unreliableDue=true → .established ≤ c.state
  detectWritable : c.detectWritable=true → .established ≤ c.state
  posted : c.posted≠[] → c.active=true ∨ .established ≤ c.state
  shutdown : c.closeCalled=false → c.shutdown = .none
  joined : c.socket=true → c.active=true ∨ .established ≤ c.state

theorem Core.Local.unclosed {c : Core} (h : c.Local) (hs : ¬.closing ≤ c.state) :
    c.canceled=false ∧ c.closeCalled=false := by
  have hcc : c.closeCalled=false := by
    by_contra hc
    exact hs (h.closeCalled (by simpa using hc))
  refine ⟨?_,hcc⟩
  by_contra hc
  rcases h.canceled (by simpa using hc) with hc | hc
  · simp [hcc] at hc
  · exact hs (hc ▸ (by decide))

section
variable {strict trusted : Prop} {rx : Option Arrival}
open Urdp.Core

variable {c d : Core}

theorem Micro.local (h : Micro strict trusted rx c d) (hc : c.Local) : d.Local := by
  have hu := hc.unclosed
  have hec : TcpState.established ≤ .closing := by decide
  have hcw : TcpState.closing ≤ .watingFinAck := by decide
  have hcd : TcpState.closing ≤ .closed := by decide
  obtain ⟨h1,h2,h3,h4,h5,h6,h7,h8,h9,h10,h11⟩ := hc
  cases h with
  | note | attempted | ack | finAck | rst | unreliable | ackDue | retransmit | accept | dupAcks
  | insert | skip | punch | faultSending | faultReading =>
    exact ⟨h1,h2,h3,h4,h5,h6,h7,h8,h9,h10,h11⟩
  | unreliableDue b due =>
    refine ⟨h1,h2,h3,h4,h5,h6,fun hb => ?_,h8,h9,h10,h11⟩
    rcases due hb with he | hd
    · exact he.ge
    · exact h7 hd
  | detectWritable b due => exact ⟨h1,h2,h3,h4,h5,h6,h7,fun hb => (due hb).ge,h9,h10,h11⟩
  | post p _ due => exact ⟨h1,h2,h3,h4,h5,h6,h7,h8,fun _ => due,h10,h11⟩
  | unpost hp | unregister hp => exact ⟨h1,h2,h3,h4,h5,h6,h7,h8,fun _ => h9 (by simp [hp]),h10,h11⟩
  | send | ping => exact ⟨rfl,h2,h3,h4,h5,h6,h7,h8,h9,h10,h11⟩
  | connect fresh socket asked =>
    subst asked
    obtain ⟨hc,hcc⟩ := hu (by rw [fresh]; decide)
    refine ⟨rfl,by simp [sentOut,hc],by simp [sentOut,hcc],by simp [sentOut,hc],
      fun _ _ => socket,fun _ => rfl,fun hd => ?_,fun hd => ?_,fun _ => .inl rfl,h10,
      fun _ => .inl rfl⟩
    · exact absurd (fresh ▸ h7 hd) (by decide)
    · exact absurd (fresh ▸ h8 hd) (by decide)
  | listened _ _ listening called =>
    subst called
    obtain ⟨hc,hcc⟩ := hu (by rw [listening]; decide)
    refine ⟨rfl,by simp [sentOut,hc],by simp [sentOut,hcc],by simp [sentOut,hc],h5,nofun,
      fun hd => ?_,fun hd => ?_,fun hp => ?_,h10,fun hs => ?_⟩
    · exact absurd (listening ▸ h7 hd) (by decide)
    · exact absurd (listening ▸ h8 hd) (by decide)
    · exact (h9 hp).imp_right fun hp => absurd (listening ▸ hp) (by decide)
    · exact (h11 hs).imp_right fun hp => absurd (listening ▸ hp) (by decide)
  | established waiting | synced _ _ waiting | syncedEarly _ _ waiting
  | acceptFirst _ _ _ _ _ waiting =>
    obtain ⟨hc,hcc⟩ := hu (by rw [waiting]; decide)
    exact ⟨h1,by simp [hc],by simp [hcc],by simp [hc],h5,nofun,fun _ => le_refl _,
      fun _ => le_refl _,fun _ => .inr (le_refl _),h10,fun _ => .inr (le_refl _)⟩
  | closing =>
    exact ⟨h1,fun _ => .inl rfl,fun _ => le_refl _,fun _ => rfl,nofun,nofun,
      fun _ => hec,fun _ => hec,fun _ => .inr hec,nofun,nofun⟩
  | fin waiting =>
    have hew := le_trans hec hcw
    have hc : c.canceled=true → c.closeCalled=true :=
      fun hc => (h2 hc).resolve_right (by rw [waiting]; decide)
    exact ⟨h1,fun h => .inl (hc h),fun _ => hcw,fun h => h4 (h.imp_right nofun),h5,nofun,
      fun _ => hew,fun _ => hew,fun _ => .inr hew,h10,
      fun _ => .inr hew⟩
  | abort =>
    have hed := le_trans hec hcd
    exact ⟨rfl,fun _ => .inr rfl,fun _ => hcd,fun _ => rfl,nofun,nofun,
      fun _ => hed,fun _ => hed,fun _ => .inr hed,nofun,nofun⟩
  | closed | report =>
    have hed := le_trans hec hcd
    exact ⟨rfl,fun _ => .inr rfl,fun _ => hcd,fun _ => rfl,nofun,nofun,
      fun _ => hed,fun _ => hed,fun _ => .inr hed,h10,nofun⟩
  | cancel dead =>
    exact ⟨h1,fun _ => .inr dead,h3,fun _ => h4 (.inr dead),nofun,h6,h7,h8,h9,h10,h11⟩
  | accepted connected =>
    obtain ⟨hc,-⟩ := hu (by rw [connected]; decide)
    exact ⟨h1,h2,h3,by simp [hc,connected],fun _ _ => rfl,h6,h7,h8,h9,h10,
      fun _ => .inr connected.ge⟩

theorem Move.local (h : Move strict trusted rx c d) (hc : c.Local) : d.Local := by
  cases h with
  | micro h => exact h.local hc
  | handover taken quiet =>
    obtain ⟨_,_,_,_,_,_,_,_,_,rfl⟩ := taken
    have h₁ : Core.Local _ := invariant_of_steps _ (fun _ _ h hc => Micro.local h hc) quiet
      ⟨hc.1,hc.2,hc.3,hc.4,hc.5,hc.6,hc.7,hc.8,hc.9,hc.10,hc.11⟩
    exact ⟨h₁.1,h₁.2,h₁.3,h₁.4,h₁.5,h₁.6,h₁.7,h₁.8,h₁.9,h₁.10,h₁.11⟩

/-- The flow may be told of data: it has a connection, or had one, or is excused. -/
def Core.Ready (c : Core) : Prop :=
  c.active=true ∨ .established ≤ c.state ∨ c.Excused

theorem Excused.append {log : List Output} (h : Urdp.Excused log) (more : List Output) :
    Urdp.Excused (log++more) := h.imp (mem_append_left _) (mem_append_left _)

/-- What never goes back: the state behind `ESTABLISHED`, the log, and being the active side. -/
structure Core.Grows (c d : Core) : Prop where
  established : .established ≤ c.state → .established ≤ d.state
  log : c.log <+: d.log
  active : c.active=true → d.active=true
  called : c.state ≠ .listen → d.state ≠ .listen

theorem Core.Grows.refl (c : Core) : c.Grows c := ⟨id,prefix_rfl,id,id⟩

theorem Core.Grows.trans {c d e : Core} (h : c.Grows d) (h' : d.Grows e) : c.Grows e :=
  ⟨h'.established ∘ h.established,h.log.trans h'.log,h'.active ∘ h.active,h'.called ∘ h.called⟩

theorem Core.Grows.excused (h : c.Grows d) (he : c.Excused) : d.Excused := by
  obtain ⟨more,hm⟩ := h.log
  exact ⟨hm ▸ Urdp.Excused.append he.1 more,he.2.imp h.active h.called⟩

theorem Core.Grows.ready (h : c.Grows d) (hr : c.Ready) : d.Ready :=
  hr.imp h.active (Or.imp h.established h.excused)

theorem Core.sentOut_log (c : Core) (snd : Outgoing) (hs : List ReliableHeader) :
    c.log <+: (c.sentOut snd hs).log := prefix_append _ _

theorem Micro.grows (h : Micro strict trusted rx c d) : c.Grows d := by
  cases h with
  | note | attempted | unreliable | ack | finAck | rst | retransmit | unregister =>
    exact ⟨id,prefix_append _ _,id,id⟩
  | send =>
    refine ⟨id,List.IsPrefix.trans ?_ (sentOut_log (c.emit _) _ _),id,id⟩
    exact prefix_append _ _
  | ping => exact ⟨id,sentOut_log _ _ _,id,id⟩
  | ackDue | unreliableDue | detectWritable | post | unpost | accept | dupAcks | insert
  | skip | cancel | accepted | punch | faultSending | faultReading =>
    exact ⟨id,prefix_rfl,id,id⟩
  | connect fresh _ asked =>
    subst asked
    exact ⟨fun h => absurd (fresh ▸ h) (by decide),prefix_append _ _,fun _ => rfl,nofun⟩
  | listened _ _ listening called =>
    subst called
    exact ⟨fun h => absurd (listening ▸ h) (by decide),prefix_append _ _,id,nofun⟩
  | established | synced | syncedEarly | acceptFirst =>
    exact ⟨fun _ => le_refl _,prefix_rfl,id,nofun⟩
  | closing =>
    exact ⟨fun _ => show TcpState.established ≤ .closing by decide,prefix_rfl,id,nofun⟩
  | fin =>
    exact ⟨fun _ => show TcpState.established ≤ .watingFinAck by decide,
      prefix_append _ _,id,nofun⟩
  | abort | report =>
    exact ⟨fun _ => show TcpState.established ≤ .closed by decide,
      (prefix_append _ _).trans (prefix_append _ _),id,nofun⟩
  | closed =>
    exact ⟨fun _ => show TcpState.established ≤ .closed by decide,prefix_append _ _,id,nofun⟩

theorem Micro.steps_grow (h : ReflTransGen (Micro strict trusted rx) c d) : c.Grows d :=
  invariant_of_steps (fun d => c.Grows d) (fun _ _ h hc => hc.trans h.grows) h (.refl c)

theorem Move.grows (h : Move strict trusted rx c d) : c.Grows d := by
  cases h with
  | micro h => exact h.grows
  | handover taken quiet =>
    obtain ⟨_,_,_,_,_,_,_,_,_,rfl⟩ := taken
    have hq := Micro.steps_grow quiet
    exact ⟨hq.established,(prefix_append _ _).trans (hq.log.trans (prefix_append _ _)),
      hq.active,hq.called⟩

theorem Move.steps_grow (h : ReflTransGen (Move strict trusted rx) c d) : c.Grows d :=
  invariant_of_steps (fun d => c.Grows d) (fun _ _ h hc => hc.trans h.grows) h (.refl c)

end
end P2Streaming.Urdp
