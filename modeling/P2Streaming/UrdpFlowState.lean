import P2Streaming.WrappableInteger
import P2Streaming.UrdpPacketFormat

/-!
# `urdp_flow`: constants, segments and the state of one endpoint

The members of `urdp_flow` are grouped as its header groups them. Times are the
32-bit ticks of `time32_type`, sequence numbers and window sizes are words, and
the log keeps what the flow did to the outside world: the datagrams it handed to
the shared layer and the calls it made to its connection, next to notes of the
reliable messages that went in and out. The choices a call takes from outside (the
clock, random numbers, the estimated loss rate, what the application does inside a
callback) come with each call as an `Env`.
-/
namespace P2Streaming.Urdp
open BigEndianBytes WrappableInteger

/-- `TcpState`, in the order the comparisons of the source use. -/
inductive TcpState where
  | init | listen | synSent | synRcvd | established | closing | watingFinAck | closed
  deriving DecidableEq, Repr

def TcpState.rank : TcpState → ℕ
  | .init => 0
  | .listen => 1
  | .synSent => 2
  | .synRcvd => 3
  | .established => 4
  | .closing => 5
  | .watingFinAck => 6
  | .closed => 7

instance : LE TcpState := ⟨fun s t => s.rank ≤ t.rank⟩
instance : LT TcpState := ⟨fun s t => s.rank < t.rank⟩

instance : Preorder TcpState where
  le_refl s := Nat.le_refl s.rank
  le_trans _ _ _ := Nat.le_trans
  lt_iff_le_not_ge _ _ := Nat.lt_iff_le_and_not_ge

instance (s t : TcpState) : Decidable (s≤t) := inferInstanceAs (Decidable (s.rank≤t.rank))
instance (s t : TcpState) : Decidable (s<t) := inferInstanceAs (Decidable (s.rank<t.rank))

inductive ShutdownMode where
  | none | graceful | forceful
  deriving DecidableEq, Repr

inductive SendFlags where
  | none | delayedAck | immediateAck
  deriving DecidableEq, Repr

/-- The `tribool` argument of `async_send`. -/
inductive Reliability where
  | reliable | semireliable | unreliable
  deriving DecidableEq, Repr

inductive ErrorCode where
  | notConnected | wouldBlock | timedOut | connectionReset | hostUnreachable
  | alreadyConnected | inProgress
  deriving DecidableEq, Repr

structure Endpoint where
  address : BitVec 32
  port : BitVec 16
  deriving DecidableEq, Repr

abbrev Time32 := BitVec 32

def minRto : ℕ := 250
def maxRto : ℕ := 8*1000
def ackDelay : ℕ := 100
def defaultTimeout : ℕ := 10*1000
def idleTimeout : ℕ := 20*1000
def waitFinAckTimeout : ℕ := 10*1000
def mtuSize : ℕ := 1450
def recvBufSize : ℕ := 0xffff + 16 * 1024
def sndBufSize : ℕ := recvBufSize * 3 / 2

/-- `m_mss`, which `__init` sets to `MTU_SIZE` and nothing changes. -/
def mss : ℕ := mtuSize

def modLess (n1 n2 : BitVec 32) : Bool := wrappableLess n1 n2
def modLessEqual (n1 n2 : BitVec 32) : Bool := wrappableLessEqual n1 n2
def modMinus {w : ℕ} (n1 n2 : BitVec w) : ℤ := wrappableMinus n1 n2

def scapeZero (t : Time32) : Time32 := if t=0 then 1 else t

def bound (lower middle upper : ℕ) : ℕ := min (max lower middle) upper

structure SSegment where
  buf : List Byte
  seq : BitVec 32
  xmit : BitVec 8
  ctrlType : Ctrl
  deriving DecidableEq, Repr

structure RSegment where
  buf : List Byte
  seq : BitVec 32
  deriving DecidableEq, Repr

structure SUnraliableSegment where
  buf : List Byte
  id : BitVec 32
  timeout : Time32
  pktID : BitVec 16
  msgType : BitVec 16
  remainXmit : ℤ
  control : Ctrl
  unreliable : control = .unreliableData ∨ control = .semireliableData
  deriving DecidableEq, Repr

inductive Callback where
  | onConnected (ec : Option ErrorCode)
  | onDisconnected (ec : Option ErrorCode)
  | onWritable
  | onReceived (buf : List Byte)
  | acceptFlow
  deriving DecidableEq, Repr

/-- A callback after which the connection has let go of the flow. -/
def Callback.terminal : Callback → Bool
  | .onConnected (some _) | .onDisconnected _ => true
  | _ => false

/-- What the application calls on the flow through its connection. -/
inductive AppOp where
  | send (buf : List Byte) (msgType : BitVec 16) (mode : Reliability)
  | ping
  | close (graceful : Bool)
  | keepReceiving
  | blockReceiving
  | pingInterval (msec : ℕ)
  deriving DecidableEq, Repr

/-- Handlers waiting in the `io_service`. -/
inductive Posted where
  | asyncReceive
  | allertWriteable
  | allertDisconnected (ec : ErrorCode)
  | allertConnected (ec : ErrorCode)
  | flowUnregister
  deriving DecidableEq, Repr

/-- What became of a flow handed to its acceptor: a connection was made for it at once,
it waits for `keep_async_accepting`, or the acceptor is gone. -/
inductive Accepting where
  | dispatched | pending | expired
  deriving DecidableEq, Repr

structure Env where
  tick : ℕ
  lostrate : BitVec 8
  rtoLimit : ℕ
  random : ℕ → ℕ
  accepting : Accepting
  react : List Callback → List AppOp

/-- `tick_now()`. -/
def Env.now (env : Env) : Time32 := BitVec.ofNat 32 env.tick

/-- The queues of the sender: segments not yet sent, segments sent and not acknowledged. -/
structure Outgoing where
  slist : List SSegment
  retransSlist : List SSegment
  sndUna : BitVec 32
  sndNxt : BitVec 32
  slen : BitVec 32
  deriving DecidableEq, Repr

structure Incoming where
  rlist : List RSegment
  rcvNxt : BitVec 32
  rlen : BitVec 32
  rcvWnd : BitVec 32
  detectReadable : Bool
  deriving DecidableEq, Repr

structure Control where
  state : TcpState
  shutdown : ShutdownMode
  socket : Bool
  canceled : Bool
  closeCalled : Bool
  keepRecving : Bool
  active : Bool
  ignoreAllPkt : Bool
  disconnLocal : Bool
  disconnRemote : Bool
  acceptPending : Bool
  sessionId : BitVec 16
  flowId : BitVec 32
  remotePeerId : BitVec 32
  remoteEndpoint : Endpoint
  deriving DecidableEq, Repr

structure Timing where
  tRtoBase : Time32
  tAck : Time32
  tLastrecv : Time32
  tLastsend : Time32
  tLasttraffic : Time32
  tCloseBase : Option Time32
  establishTime : Option Time32
  tRecent : BitVec 16
  tRecentNow : BitVec 16
  rttvar : ℕ
  srtt : ℕ
  rto : ℕ
  pingInterval : ℕ
  deriving DecidableEq, Repr

structure Congestion where
  sndWnd : BitVec 32
  ssthresh : BitVec 32
  cwnd : BitVec 32
  recover : BitVec 32
  lastack : BitVec 32
  dupAcks : BitVec 8
  detectWritable : Bool
  deriving DecidableEq, Repr

/-- The unreliable side. `localToRemoteLostRate` counts in units of `LOST_RATE_PRECISION`
and is absent until the peer has reported one. -/
structure Unreliable where
  rlist : List (List Byte)
  slist : List SUnraliableSegment
  rkeeper : List (BitVec 16 × ℕ)
  pktid : BitVec 16
  idSeed : BitVec 32
  localToRemoteLostRate : Option (BitVec 8)
  idForLostRate : BitVec 8
  deriving DecidableEq, Repr

/-- What the loop of one call of `__attempt_send` starts from or ends with; `m_cwnd` is as the
call has adjusted it after a pause. -/
structure Window where
  snd : Outgoing
  sndWnd : BitVec 32
  cwnd : BitVec 32
  deriving DecidableEq, Repr

inductive Output where
  | datagram (dst : Endpoint) (p : Packet)
  | callback (c : Callback)
  | sent (msgType : BitVec 16) (payload : List Byte)
  | recvd (buf : List Byte)
  | attempted (pre post : Window)
  | closeCalled
  | timedOut
  | closed
  | unregistered
  deriving DecidableEq, Repr

/-- The queue whose `begin()` was dereferenced although it was empty. -/
inductive Fault where
  | retransSlist | rlist
  deriving DecidableEq, Repr

/-- One endpoint. After a `fault` the program has no defined behaviour and the flow takes no
further step. -/
structure Flow where
  ctl : Control
  snd : Outgoing
  rcv : Incoming
  tim : Timing
  cc : Congestion
  unrel : Unreliable
  posted : List Posted
  log : List Output
  fault : Option Fault
  deriving DecidableEq, Repr

namespace Flow

def emit (f : Flow) (o : Output) : Flow := { f with log := f.log ++ [o] }

def post (f : Flow) (p : Posted) : Flow := { f with posted := f.posted ++ [p] }

def callbacks (f : Flow) : List Callback :=
  f.log.filterMap fun
    | .callback c => some c
    | _ => none

/-- Members a constructor call takes from outside or leaves uninitialised. -/
structure Init where
  isn : BitVec 32
  rcvNxt : BitVec 32
  sessionId : BitVec 16
  flowId : BitVec 32
  tRecentNow : BitVec 16
  pktid : BitVec 16
  idForLostRate : BitVec 8
  deriving DecidableEq, Repr

def init (p : Init) (now : Time32) : Flow where
  ctl := {
    state := .init, shutdown := .none, socket := false, canceled := false, closeCalled := false,
    keepRecving := false, active := false, ignoreAllPkt := false, disconnLocal := false,
    disconnRemote := false, acceptPending := false, sessionId := p.sessionId, flowId := p.flowId,
    remotePeerId := 0xffffffff#32, remoteEndpoint := ⟨0,0⟩ }
  snd := { slist := [], retransSlist := [], sndUna := p.isn, sndNxt := p.isn, slen := 0 }
  rcv := {
    rlist := [], rcvNxt := p.rcvNxt, rlen := 0, rcvWnd := BitVec.ofNat 32 recvBufSize,
    detectReadable := true }
  tim := {
    tRtoBase := 0, tAck := 0, tLastrecv := now, tLastsend := now, tLasttraffic := now,
    tCloseBase := some (now + BitVec.ofNat 32 idleTimeout), establishTime := none, tRecent := 0,
    tRecentNow := p.tRecentNow, rttvar := 0, srtt := 0, rto := minRto,
    pingInterval := defaultTimeout }
  cc := {
    sndWnd := BitVec.ofNat 32 (recvBufSize / 2), ssthresh := BitVec.ofNat 32 recvBufSize,
    cwnd := BitVec.ofNat 32 (2*mss), recover := 0, lastack := p.rcvNxt, dupAcks := 0,
    detectWritable := false }
  unrel := {
    rlist := [], slist := [], rkeeper := [], pktid := p.pktid, idSeed := 0,
    localToRemoteLostRate := none, idForLostRate := p.idForLostRate }
  posted := []
  log := []
  fault := none

def createForActiveConnect (p : Init) (now : Time32) : Flow :=
  let f := init p now
  { f with ctl := { f.ctl with active := true, socket := true } }

def createForPassiveConnect (p : Init) (remoteEdp : Endpoint) (now : Time32) : Flow :=
  let f := init p now
  { f with ctl := { f.ctl with state := .listen, remoteEndpoint := remoteEdp } }

end Flow
end P2Streaming.Urdp
