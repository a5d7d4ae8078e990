import P2Streaming.UrdpFlowReceiving

/-!
# Moving the origin of the sequence numbers

Adding one constant to every sequence number a flow holds or has sent is meant to change
nothing else. Every function of the flow commutes with that shift except two, which compare
sequence numbers as plain integers: the cut of old data and the test for the end of recovery.
-/
namespace P2Streaming.Urdp
open BigEndianBytes WrappableInteger SerialNumbers

variable (k : BitVec 32)

def SSegment.shift (s : SSegment) : SSegment := { s with seq := s.seq + k }

def RSegment.shift (s : RSegment) : RSegment := { s with seq := s.seq + k }

def Outgoing.shift (o : Outgoing) : Outgoing :=
  { o with
    slist := o.slist.map (SSegment.shift k)
    retransSlist := o.retransSlist.map (SSegment.shift k)
    sndUna := o.sndUna+k
    sndNxt := o.sndNxt + k }

def Incoming.shift (r : Incoming) : Incoming :=
  { r with rlist := r.rlist.map (RSegment.shift k), rcvNxt := r.rcvNxt + k }

def Congestion.shift (c : Congestion) : Congestion :=
  { c with recover := c.recover+k, lastack := c.lastack + k }

def ReliableHeader.shift (h : ReliableHeader) : ReliableHeader :=
  { h with seqno := h.seqno+k, ackno := h.ackno + k }

def Packet.shift : Packet → Packet
  | .reliable h data => .reliable (h.shift k) data
  | .unreliable h pktID msgType data => .unreliable h pktID msgType data

def Window.shift (w : Window) : Window := { w with snd := w.snd.shift k }

def Output.shift : Output → Output
  | .datagram dst p => .datagram dst (p.shift k)
  | .attempted pre post => .attempted (pre.shift k) (post.shift k)
  | o => o

/-- The flow with `k` added to every sequence number, in its members and in what it has sent. -/
def Flow.shift (f : Flow) : Flow :=
  { f with
    snd := f.snd.shift k
    rcv := f.rcv.shift k
    cc := f.cc.shift k
    log := f.log.map (Output.shift k) }

/-- A shift that also renames the count of duplicate acknowledgements. A function that commutes
with all of them neither reads nor changes that count. -/
def Flow.moved (φ : BitVec 8 → BitVec 8) (f : Flow) : Flow :=
  { f.shift k with cc := { f.cc.shift k with dupAcks := φ f.cc.dupAcks } }

section Members

variable (k : BitVec 32) (φ : BitVec 8 → BitVec 8) (o : Outgoing)

@[simp] theorem Outgoing.slist_shift : (o.shift k).slist = o.slist.map (SSegment.shift k) := rfl
@[simp] theorem Outgoing.retransSlist_shift :
    (o.shift k).retransSlist = o.retransSlist.map (SSegment.shift k) := rfl
@[simp] theorem Outgoing.sndUna_shift : (o.shift k).sndUna = o.sndUna+k := rfl
@[simp] theorem Outgoing.sndNxt_shift : (o.shift k).sndNxt = o.sndNxt+k := rfl
@[simp] theorem Outgoing.slen_shift : (o.shift k).slen = o.slen := rfl
variable (r : Incoming)

@[simp] theorem Incoming.rlist_shift : (r.shift k).rlist = r.rlist.map (RSegment.shift k) := rfl
@[simp] theorem Incoming.rcvNxt_shift : (r.shift k).rcvNxt = r.rcvNxt+k := rfl
@[simp] theorem Incoming.rlen_shift : (r.shift k).rlen = r.rlen := rfl
@[simp] theorem Incoming.rcvWnd_shift : (r.shift k).rcvWnd = r.rcvWnd := rfl
@[simp] theorem Incoming.detectReadable_shift : (r.shift k).detectReadable = r.detectReadable := rfl
variable (f : Flow)

@[simp] theorem Flow.ctl_moved : (f.moved k φ).ctl = f.ctl := rfl
@[simp] theorem Flow.snd_moved : (f.moved k φ).snd = f.snd.shift k := rfl
@[simp] theorem Flow.rcv_moved : (f.moved k φ).rcv = f.rcv.shift k := rfl
@[simp] theorem Flow.tim_moved : (f.moved k φ).tim = f.tim := rfl
@[simp] theorem Flow.cc_moved : (f.moved k φ).cc = { f.cc.shift k with dupAcks := φ f.cc.dupAcks } := rfl
@[simp] theorem Flow.unrel_moved : (f.moved k φ).unrel = f.unrel := rfl

end Members

theorem ite_eq_map {α β : Type*} {φ : α → β} {c d : Prop} [Decidable c] [Decidable d] (hcd : c ↔ d)
    {a b : α} {a' b' : β} (ha : d → a' = φ a) (hb : ¬ d → b' = φ b) :
    (if c then a' else b') = φ (if d then a else b) := by
  by_cases hd : d
  · rw [if_pos (hcd.mpr hd),if_pos hd,ha hd]
  · rw [if_neg (mt hcd.mp hd),if_neg hd,hb hd]

variable {k} {φ : BitVec 8 → BitVec 8}

theorem Outgoing.pushSegments_shift (ctrlType : Ctrl) (n : ℕ) (o : Outgoing) (data : List Byte) :
    (o.shift k).pushSegments ctrlType n data = (o.pushSegments ctrlType n data).shift k := by
  induction n generalizing o data with
  | zero => rfl
  | succ n ih =>
    cases data with
    | nil => rfl
    | cons b bs =>
      rw [pushSegments,pushSegments,← ih]
      simp [Outgoing.shift,SSegment.shift,add_right_comm]

theorem Outgoing.queue_shift (o : Outgoing) (data : List Byte) (ctrlType : Ctrl) :
    (o.shift k).queue data ctrlType = (o.queue data ctrlType).shift k := by
  have hlast : (o.shift k).slist.getLast? = o.slist.getLast?.map (SSegment.shift k) := List.getLast?_map
  unfold queue
  rw [hlast]
  cases o.slist.getLast? with
  | none => exact o.pushSegments_shift _ _ _
  | some back =>
    simp only [Option.map_some,SSegment.shift]
    split_ifs
    · rw [← pushSegments_shift]
      simp [Outgoing.shift,SSegment.shift]
    · exact o.pushSegments_shift _ _ _

namespace Flow

variable (f : Flow)

theorem emit_moved (o : Output) : (f.moved k φ).emit (o.shift k) = (f.emit o).moved k φ := by
  simp [emit,moved,shift]

theorem callbacks_moved : (f.moved k φ).callbacks = f.callbacks := by
  change (f.log.map (Output.shift k)).filterMap _ = f.log.filterMap _
  rw [List.filterMap_map]
  congr 1
  funext o
  cases o <;> rfl

theorem queue_moved (data : List Byte) (ctrlType : Ctrl) :
    (f.moved k φ).queue data ctrlType = (f.queue data ctrlType).moved k φ := by
  simp [queue,moved,shift,Outgoing.queue_shift]

variable (env : Env)

theorem packetAsReliableAndSendout_moved (seq : BitVec 32) (control : Ctrl)
    (data : List Byte) : (f.moved k φ).packetAsReliableAndSendout env (seq+k) control data =
      (f.packetAsReliableAndSendout env seq control data).moved k φ := by
  simp [packetAsReliableAndSendout,moved,shift,reliableHeader,Output.shift,Packet.shift,
    ReliableHeader.shift,Incoming.shift,Congestion.shift]

theorem packetAsUnreliableAndSendout_moved (seg : SUnraliableSegment) :
    (f.moved k φ).packetAsUnreliableAndSendout env seg =
      ((f.packetAsUnreliableAndSendout env seg).1.moved k φ,
        (f.packetAsUnreliableAndSendout env seg).2) := by
  simp [packetAsUnreliableAndSendout,moved,shift,Output.shift,Packet.shift,Incoming.shift]

variable (seg : SSegment)

theorem givesUp_moved :
    (f.moved k φ).givesUp env (seg.shift k) = f.givesUp env seg := rfl

theorem sendSegment_moved :
    (f.moved k φ).sendSegment env (seg.shift k) = (f.sendSegment env seg).moved k φ := by
  have hsent : (f.moved k φ).packetAsReliableAndSendout env (seg.shift k).seq (seg.shift k).ctrlType
    (seg.shift k).buf =
      (f.packetAsReliableAndSendout env seg.seq seg.ctrlType seg.buf).moved k φ :=
    packetAsReliableAndSendout_moved f env seg.seq seg.ctrlType seg.buf
  unfold sendSegment
  rw [hsent]
  by_cases hx : seg.xmit=0
  · have hx' : (seg.shift k).xmit = 0 := hx
    simp only [if_pos hx,if_pos hx']
    dsimp only [moved,shift,Outgoing.shift]
    rw [add_right_comm]
    rfl
  · have hx' : ¬ (seg.shift k).xmit = 0 := hx
    simp only [if_neg hx,if_neg hx']
    rfl

theorem transmit_moved :
    (f.moved k φ).transmit env (seg.shift k) = (f.transmit env seg).map fun r =>
    (r.1.moved k φ, r.2.shift k) := by
  unfold transmit
  rw [givesUp_moved,sendSegment_moved]
  split_ifs <;> rfl

theorem transmitRetrans_moved :
    (f.moved k φ).transmitRetrans env = Prod.map (moved k φ) id (f.transmitRetrans env) := by
  unfold transmitRetrans
  rw [snd_moved,Outgoing.retransSlist_shift]
  cases f.snd.retransSlist with
  | nil => rfl
  | cons seg rest =>
    simp only [List.map_cons,transmit_moved]
    cases f.transmit env seg with
    | none => rfl
    | some r => rfl

theorem attemptAck_moved (sflags : SendFlags) :
    (f.moved k φ).attemptAck env sflags = (f.attemptAck env sflags).moved k φ :=
  ite_eq_map Iff.rfl (fun _ => packetAsReliableAndSendout_moved f env _ .ack [])
    fun _ => ite_eq_map Iff.rfl (fun _ => rfl) fun _ => rfl

theorem attemptLoop_moved (l : List SSegment) (sflags : SendFlags) (f : Flow) :
    attemptLoop env (l.map (SSegment.shift k)) sflags (f.moved k φ) =
    (attemptLoop env l sflags f).moved k φ := by
  induction l generalizing sflags f with
  | nil => exact attemptAck_moved f env sflags
  | cons seg rest ih =>
    rw [List.map_cons,attemptLoop,attemptLoop,transmit_moved]
    cases f.transmit env seg with
    | none => rfl
    | some r =>
      rw [Option.map_some,← ih]
      simp [moved,shift,Outgoing.shift]

theorem idleWindow_moved : (f.moved k φ).idleWindow env = (f.idleWindow env).moved k φ :=
  ite_eq_map Iff.rfl (fun _ => rfl) fun _ => rfl

theorem attemptSend_moved (sflags : SendFlags) :
    (f.moved k φ).attemptSend env sflags = (f.attemptSend env sflags).moved k φ := by
  unfold attemptSend
  dsimp only
  rw [idleWindow_moved,snd_moved,Outgoing.slist_shift,attemptLoop_moved,← emit_moved]
  rfl

theorem toClosedState_moved : (f.moved k φ).toClosedState = f.toClosedState.moved k φ :=
  ite_eq_map Iff.rfl (fun _ => rfl) fun _ => by
    simp [moved,shift,Outgoing.shift,Incoming.shift,Output.shift]

theorem sendFin_moved : (f.moved k φ).sendFin env = (f.sendFin env).moved k φ :=
  packetAsReliableAndSendout_moved { f with
    tim.tCloseBase := some (env.now + BitVec.ofNat 32 waitFinAckTimeout)
    ctl.state := .watingFinAck } env f.snd.sndNxt .fin []

theorem doClose_moved (graceful : Bool) :
    (f.moved k φ).doClose env graceful = (f.doClose env graceful).moved k φ := by
  refine ite_eq_map Iff.rfl (fun _ => toClosedState_moved f) fun _ => ite_eq_map Iff.rfl (fun
    _ => rfl) fun _ => ?_
  rw [ctl_moved]
  obtain ⟨mode,hmode⟩ : ∃ m, (if !graceful ∨ f.ctl.state < .established then ShutdownMode.forceful
      else if f.ctl.shutdown = .none then .graceful else f.ctl.shutdown) = m := ⟨_,rfl⟩
  rw [hmode]
  have hrst (g : Flow) : ((g.moved k φ).packetAsReliableAndSendout env (g.snd.sndNxt+k) .rst
    []).toClosedState =
      (g.packetAsReliableAndSendout env g.snd.sndNxt .rst []).toClosedState.moved k φ := by
    rw [packetAsReliableAndSendout_moved,toClosedState_moved]
  let g : Flow := { f with
    ctl := { f.ctl with canceled := true, socket := false, closeCalled := true, shutdown := mode } }
  cases mode with
  | forceful => exact hrst g
  | graceful => exact ite_eq_map (by simp) (fun _ => sendFin_moved g env) fun _ => rfl
  | none => rfl

theorem close_moved (graceful : Bool) :
    (f.moved k φ).close env graceful = (f.close env graceful).moved k φ := by
  refine ite_eq_map Iff.rfl (fun _ => rfl) fun _ => ?_
  rw [← doClose_moved,← emit_moved]
  rfl

variable (buf : List Byte) (msgType : BitVec 16)

theorem sendReliable_moved :
    (f.moved k φ).sendReliable env buf msgType =
    Prod.map (moved k φ) id (f.sendReliable env buf msgType) := by
  unfold sendReliable
  dsimp only
  have hsent : (f.moved k φ).emit (.sent msgType buf) = (f.emit (.sent msgType buf)).moved k φ :=
    emit_moved f (.sent msgType buf)
  rw [hsent,queue_moved,queue_moved,attemptSend_moved]
  exact ite_eq_map Iff.rfl (fun _ => rfl) fun _ => rfl

theorem sendUnreliable_moved (semireliable : Bool) :
    (f.moved k φ).sendUnreliable env buf msgType semireliable =
    (f.sendUnreliable env buf msgType semireliable).moved k φ := by
  refine ite_eq_map Iff.rfl (fun _ => rfl) fun _ => ?_
  have hid : { f.moved k φ with unrel := { f.unrel with pktid := f.unrel.pktid+1, idSeed :=
    f.unrel.idSeed + 1 } } =
      moved k φ { f with unrel := { f.unrel with pktid := f.unrel.pktid+1, idSeed :=
        f.unrel.idSeed + 1 } } := rfl
  dsimp only
  rw [unrel_moved,hid,packetAsUnreliableAndSendout_moved]
  exact ite_eq_map Iff.rfl (fun _ => rfl) fun _ => rfl

theorem send_moved (mode : Reliability) :
    (f.moved k φ).send env buf msgType mode = Prod.map (moved k φ) id (f.send env buf msgType mode) := by
  refine ite_eq_map Iff.rfl (fun _ => rfl) fun _ => ?_
  cases mode with
  | reliable => exact sendReliable_moved f env buf msgType
  | semireliable => exact congrArg (·, none) (sendUnreliable_moved f env buf msgType true)
  | unreliable => exact congrArg (·, none) (sendUnreliable_moved f env buf msgType false)

theorem asyncSend_moved (mode : Reliability) :
    (f.moved k φ).asyncSend env buf msgType mode = (f.asyncSend env buf msgType mode).moved k φ := by
  unfold asyncSend
  rw [send_moved]
  obtain ⟨g,ec⟩ := f.send env buf msgType mode
  rcases ec with _ | ec
  · exact ite_eq_map Iff.rfl (fun _ => rfl) fun _ => rfl
  · cases ec <;> rfl

theorem ping_moved : (f.moved k φ).ping env = (f.ping env).moved k φ := by
  refine ite_eq_map Iff.rfl (fun _ => rfl) fun _ => ?_
  have hqueue : (if (f.moved k φ).snd.slist = [] ∧
    (f.moved k φ).snd.retransSlist = [] then (f.moved k φ).queue [0] .ack
      else f.moved k φ) = moved k φ (if f.snd.slist=[] ∧
        f.snd.retransSlist=[] then f.queue [0] .ack else f) :=
    ite_eq_map (by simp) (fun _ => queue_moved f _ _) fun _ => rfl
  rw [hqueue]
  exact attemptSend_moved _ env .none

theorem keepAsyncReceiving_moved : (f.moved k φ).keepAsyncReceiving = f.keepAsyncReceiving.moved k φ :=
  ite_eq_map Iff.rfl (fun _ => rfl) fun _ => rfl

theorem perform_moved (op : AppOp) : (f.moved k φ).perform env op = (f.perform env op).moved k φ := by
  cases op with
  | send buf msgType mode => exact asyncSend_moved f env buf msgType mode
  | ping => exact ping_moved f env
  | close graceful => exact close_moved f env graceful
  | keepReceiving => exact keepAsyncReceiving_moved f
  | blockReceiving => rfl
  | pingInterval msec => rfl

theorem runOps_moved (ops : List AppOp) :
    (f.moved k φ).runOps env ops = (f.runOps env ops).moved k φ := by
  induction ops generalizing f with
  | nil => rfl
  | cons op ops ih =>
    have hop : (f.moved k φ).runOp env op = (f.runOp env op).moved k φ :=
      ite_eq_map Iff.rfl (fun _ => rfl) fun _ => perform_moved f env op
    unfold runOps at ih ⊢
    rw [List.foldl_cons,List.foldl_cons,hop,ih]

theorem call_moved (c : Callback) : (f.moved k φ).call env c = (f.call env c).moved k φ := by
  have hemit : (f.moved k φ).emit (.callback c) = (f.emit (.callback c)).moved k φ :=
    emit_moved f (.callback c)
  unfold call
  dsimp only
  rw [hemit,callbacks_moved]
  split
  · rfl
  · rfl
  · exact runOps_moved _ env _

end Flow
end P2Streaming.Urdp
