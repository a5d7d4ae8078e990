import P2Streaming.PacketStreams
import P2Streaming.TransitionRuns

/-!
# `trdp_flow`: sending over one TCP connection

Only one `async_write` is under way at a time. What is given to `__send` meanwhile waits
in `send_bufs_` and is given to `__send` once more when the write has completed; an element
of that queue has no room for the packet type. Next to the members of the source the state
lists what was issued, and `clock` is the latest time anybody has read.
-/
namespace P2Streaming.Trdp
open BigEndianBytes PacketStreams

/-- The packet types that `__send` is called with. -/
inductive PktType where
  | ping | pong | data
  deriving DecidableEq, Repr

/-- `PING_PKT`, `PONG_PKT` and `DATA_PKT`. -/
def PktType.code : PktType → Byte
  | .ping => 99
  | .pong => 100
  | .data => 101

def invalidMsgType : BitVec 16 := 0xffff

/-- The arguments of `__send`; `alertWritable` is what makes a packet reliable. -/
structure Frame where
  type : PktType
  msgType : Option (BitVec 16)
  buffer : List Byte
  alertWritable : Bool
  deriving DecidableEq, Repr

def Frame.body (frame : Frame) : List Byte :=
  frame.type.code :: ((frame.msgType.elim [] fun t => beBytes 2 t.toNat) ++ frame.buffer)

/-- A call of `__send` from outside the queue. -/
structure Issue where
  frame : Frame
  time : ℕ
  deriving DecidableEq, Repr

/-- `send_emlment`; an `outTime` of `MAX_TIME` is absent. What it was queued for is not part of
the source's element, and no function looks at it. -/
structure Element where
  buf : List Byte
  outTime : Option ℕ
  msgType : BitVec 16
  alertWritable : Bool
  issue : Issue
  deriving DecidableEq, Repr

/-- `trdp_flow`. `sending` keeps the argument of the completion handler of the write under way. -/
structure TrdpFlow where
  connected : Bool
  closePosted : Bool
  sending : Option Bool
  sendBufs : List Element
  idForLostRate : Byte
  stream : List Byte
  issued : List Issue
  clock : ℕ
  deriving DecidableEq, Repr

/-- The calls that issue packets. The buffer of a ping holds the time, that of a pong what the
ping held. -/
inductive Request where
  | asyncSendReliable (buffer : List Byte) (msgType : BitVec 16)
  | asyncSendSemireliable (buffer : List Byte) (msgType : BitVec 16)
  | asyncSendUnreliable (buffer : List Byte) (msgType : BitVec 16)
  | ping (time : BitVec 64)
  | pong (time : BitVec 64)
  deriving DecidableEq, Repr

def Request.frame : Request → Frame
  | .asyncSendReliable buffer msgType => ⟨.data,some msgType,buffer,true⟩
  | .asyncSendSemireliable buffer msgType => ⟨.data,some msgType,buffer,false⟩
  -- `qued_sending_size_` is always zero, so nothing is dropped here
  | .asyncSendUnreliable buffer msgType => ⟨.data,some msgType,buffer,false⟩
  | .ping time => ⟨.ping,none,beBytes 8 time.toNat,false⟩
  | .pong time => ⟨.pong,none,beBytes 8 time.toNat,false⟩

/-- The element `__send` queues. -/
def elementFor (frame : Frame) (now : ℕ) : Element where
  buf := frame.buffer
  outTime := if frame.alertWritable then none else some (now+250)
  msgType := frame.msgType.getD invalidMsgType
  alertWritable := frame.alertWritable
  issue := ⟨frame,now⟩

/-- How `__handle_sent_packet` gives an element to `__send`. -/
def Element.frame (elm : Element) : Frame where
  type := .data
  msgType := if elm.msgType=invalidMsgType then none else some elm.msgType
  buffer := elm.buf
  alertWritable := elm.alertWritable

/-- `elm.outTime >= now`. -/
def Element.inTime (elm : Element) (now : ℕ) : Bool := elm.outTime.all fun t => decide (now≤t)

namespace TrdpFlow

def create (idForLostRate : Byte) : TrdpFlow where
  connected := true
  closePosted := false
  sending := none
  sendBufs := []
  idForLostRate := idForLostRate
  stream := []
  issued := []
  clock := 0

variable (f : TrdpFlow)

/-- The end of `__send`: the packet goes to `async_write`. -/
def write (frame : Frame) : TrdpFlow :=
  let id := f.idForLostRate+1
  let len := 2 + frame.buffer.length + if frame.msgType.isSome then 2 else 0
  { f with
    idForLostRate := id
    stream := f.stream ++ (beBytes 2 len ++ id :: frame.body)
    sending := some frame.alertWritable }

/-- The element at the head of `send_bufs_` should have been sent ten seconds ago. -/
def overdue (now : ℕ) : Bool :=
  f.sendBufs.head?.any fun elm => elm.outTime.any fun t => decide (t+10000<now)

def send (now : ℕ) (frame : Frame) (fromQue : Bool) : TrdpFlow :=
  if !f.connected then { f with closePosted := true }
  else if f.sendBufs≠[] ∧ !fromQue ∨ f.sending.isSome then
    if f.overdue now then { f with closePosted := true }
    else { f with sendBufs := f.sendBufs ++ [elementFor frame now] }
  else f.write frame

/-- A call of the application, the ping timer, or a ping of the peer. -/
def issue (now : ℕ) (r : Request) : TrdpFlow :=
  let f := { f with issued := f.issued ++ [Issue.mk r.frame now], clock := max f.clock now }
  f.send now r.frame false

/-- The loop of `__handle_sent_packet`, over the elements of `send_bufs_`. -/
def sendQueued (now : ℕ) : List Element → TrdpFlow → TrdpFlow
  | [], f => f
  | elm :: rest, f =>
      if f.sending.isSome then f
      else
        let f := { f with sendBufs := rest }
        if elm.inTime now then sendQueued now rest (f.send now elm.frame true)
        else sendQueued now rest { f with idForLostRate := f.idForLostRate + 1 }

/-- What the application sends inside `on_writable`. -/
def onWritable (sends : List (ℕ × Request)) : TrdpFlow :=
  sends.foldl (fun f s => f.issue s.1 s.2) f

/-- The completion of a write, up to the loop over `send_bufs_`. -/
def completed (now : ℕ) (alertWritable : Bool) (sends : List (ℕ × Request)) :
    TrdpFlow :=
  let f := { f with sending := none, clock := max f.clock now }
  if f.connected ∧ alertWritable then f.onWritable sends else f

/-- `trdp_flow::__handle_sent_packet` after a write that succeeded. -/
def handleSentPacket (now : ℕ) (sends : List (ℕ × Request)) : TrdpFlow :=
  match f.sending with
  | none => f
  | some alertWritable =>
      let f := f.completed now alertWritable sends
      if !f.connected then f else sendQueued now f.sendBufs f

/-- What can happen to a connected flow. The last one is the posted `__to_close_state`. -/
inductive Event where
  | issue (now : ℕ) (r : Request)
  | sentPacket (now : ℕ) (sends : List (ℕ × Request))
  | closeHandler
  deriving DecidableEq, Repr

def step : Event → TrdpFlow
  | .issue now r => f.issue now r
  | .sentPacket now sends => f.handleSentPacket now sends
  | .closeHandler =>
      if f.closePosted then { f with connected := false, sendBufs := [], closePosted := false } else f

def run (es : List Event) : TrdpFlow := es.foldl step f

end TrdpFlow
end P2Streaming.Trdp
