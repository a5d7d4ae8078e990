import P2Streaming.UrdpFlowRuns
import P2Streaming.UrdpFlowLog
import P2Streaming.UrdpForeignDatagrams

/-!
# Two flows and the network between them

One flow connects, the other accepts. The network may hand a flow any datagram that
was sent to it, at any time and as often as it likes, or never: a log is never
emptied. It neither changes nor invents datagrams.
-/
namespace P2Streaming.Urdp
open BigEndianBytes TransitionRuns

inductive Side where
  | connector | acceptor
  deriving DecidableEq, Repr

def Side.peer : Side → Side
  | .connector => .acceptor
  | .acceptor => .connector

theorem Side.eq_peer_of_ne {side side' : Side} (h : side'≠side) : side'=side.peer := by
  revert h
  cases side' <;> cases side <;> decide

abbrev System := Side → Flow

/-- A flow does something by itself, or the network hands it a datagram of its peer. -/
inductive SystemEvent where
  | act (side : Side) (env : Env) (ev : Event)
  | deliver (side : Side) (env : Env) (p : Packet)

namespace System

def next (s : System) (side : Side) (env : Env) (ev : Event) : System :=
  Function.update s side ((s side).step env ev)

variable (addr : Side → Endpoint)

def step (s : System) : SystemEvent → System
  | .act side env ev => if ev.arrival.isNone then s.next side env ev else s
  | .deliver side env p =>
      if .datagram (addr side) p ∈ (s side.peer).log then
        s.next side env (.received p.encode (addr side.peer))
      else s

def run (s : System) (es : List SystemEvent) : System := es.foldl (step addr) s

structure Start (s : System) : Prop where
  connector : ∃ p now, s .connector = .createForActiveConnect p now
  acceptor : ∃ p remoteEdp now, s .acceptor = .createForPassiveConnect p remoteEdp now

theorem Start.created {s : System} (h : Start s) (side : Side) : (s side).Created := by
  cases side with
  | connector => exact .inl h.connector
  | acceptor => exact .inr h.acceptor

end System

/-- What a flow makes of a datagram, whether it is a reliable one or not. -/
def Packet.arrival (p : Packet) (src : Endpoint) : Arrival :=
  ⟨ReliableHeader.decode p.encode,p.encode.drop reliableFormatSize,src⟩

@[simp] theorem Packet.arrival_reliable (h : ReliableHeader) (data : List Byte) (src : Endpoint) :
    (Packet.reliable h data).arrival src = ⟨h,data,src⟩ := by
  have hd : (h.encode++data).drop reliableFormatSize = data := by
    rw [← h.length_encode,List.drop_left]
  rw [arrival,encode,ReliableHeader.decode_encode,hd]

@[simp] theorem Packet.arrival_control (p : Packet) (src : Endpoint) :
    (p.arrival src).header.control = p.header.control := congrArg Header.control p.decode_encode

theorem Flow.process_encode (f : Flow) (env : Env) {h : ReliableHeader} (data : List Byte)
    (src : Endpoint) (hrel : h.control ≠ .unreliableData) (hsemi : h.control ≠ .semireliableData) :
    f.process env (Packet.reliable h data).encode src = if f.ctl.state = .closed then (f, true)
      else if f.rejects h.toHeader src then (f, false)
      else (f.noteHeader env h.toHeader).processReliable env h data src := by
  have harrival := Packet.arrival_reliable h data src
  have hheader : ReliableHeader.decode (Packet.reliable h data).encode = h :=
    congrArg Arrival.header harrival
  have hdata : (Packet.reliable h data).encode.drop reliableFormatSize = data :=
    congrArg Arrival.data harrival
  have hlen : reliableFormatSize ≤ (Packet.reliable h data).encode.length := by simp [Packet.encode]
  have hcontrol : ¬ (h.toHeader.control = .unreliableData ∨ h.toHeader.control = .semireliableData) :=
    not_or.mpr ⟨hrel,hsemi⟩
  refine if_congr Iff.rfl rfl ?_
  rw [if_neg (not_lt.mpr ((by decide : unreliableFormatSize ≤ reliableFormatSize).trans hlen))]
  simp only [Packet.decode_encode,Packet.header]
  refine if_congr Iff.rfl rfl ?_
  rw [if_neg hcontrol,if_neg (not_lt.mpr hlen),hheader,hdata]

/-- The datagram was sent to `dst` by the flow with this log. -/
def Heard (log : List Output) (dst src : Endpoint) (x : Arrival) : Prop :=
  ∃ p, .datagram dst p ∈ log ∧ x = p.arrival src

namespace System

variable {addr : Side → Endpoint}

theorem step_cases (s : System) (e : SystemEvent) : s.step addr e = s ∨
    ∃ side env ev, s.step addr e = s.next side env ev ∧
      (∀ x∈ev.arrival, Heard (s side.peer).log (addr side) (addr side.peer) x) ∧
      ((ev.arrival=none ∧ e = .act side env ev) ∨ ∃ p, e = .deliver side env p ∧
        .datagram (addr side) p ∈ (s side.peer).log ∧ ev = .received p.encode (addr side.peer)) := by
  cases e with
  | act side env ev =>
    by_cases hn : ev.arrival=none
    · refine .inr ⟨side,env,ev,by simp [step,hn],fun x hx => ?_,.inl ⟨hn,rfl⟩⟩
      simp [hn] at hx
    · exact .inl (by simp [step,hn])
  | deliver side env p =>
    by_cases hp : .datagram (addr side) p ∈ (s side.peer).log
    · refine .inr ⟨side,env,_,by rw [step,if_pos hp],?_,.inr ⟨p,rfl,hp,rfl⟩⟩
      rintro x ⟨⟩
      exact ⟨p,hp,rfl⟩
    · exact .inl (by rw [step,if_neg hp])

theorem next_self (s : System) (side : Side) (env : Env) (ev : Event) :
    s.next side env ev side = (s side).step env ev := Function.update_self ..

theorem next_peer (s : System) (side : Side) (env : Env) (ev : Event) :
    s.next side env ev side.peer = s side.peer :=
  Function.update_of_ne (by cases side <;> decide) ..

theorem next_forall {s : System} {side : Side} {env : Env} {ev : Event} {P : Core → Prop}
    (h : ∀ side, P (s side).core) (hnew : P ((s side).step env ev).core) (side' : Side) :
    P (s.next side env ev side').core := by
  by_cases hside : side'=side
  · subst hside
    rwa [next_self]
  · rw [next,Function.update_of_ne hside]
    exact h side'

/-! ### Two flows that meet -/

def twoHosts : Side → Endpoint
  | .connector => ⟨1,1⟩
  | .acceptor => ⟨2,2⟩

/-- The sequence numbers of the connector start at 10, those of the acceptor at 40. -/
def twoFlows : System
  | .connector => .createForActiveConnect ⟨10,0,5,7,0,0,0⟩ 0
  | .acceptor => .createForPassiveConnect ⟨40,0,0,9,0,0,0⟩ ⟨1,1⟩ 0

theorem twoFlows_start : twoFlows.Start := ⟨⟨_,_,rfl⟩,_,_,_,rfl⟩

/-- A header of their session; `id` counts the datagrams of a flow. -/
def sessionHeader (control : Ctrl) (peerId : BitVec 24) (id : BitVec 8) (seqno ackno : BitVec 32) :
    ReliableHeader where
  control := control
  peerId := peerId
  lostrateRecving := 0
  idForLostDetect := id
  sessionId := 5
  window := 0xffff
  timeSending := 1
  timeEcho := 1
  seqno := seqno
  ackno := ackno

/-- The connect request and its answer have arrived; the acknowledgement of the answer is
under way. -/
def greetings : List SystemEvent :=
  [.act .connector Flow.stillEnv (.connect ⟨2,2⟩ [1] 0),
    .deliver .acceptor Flow.stillEnv (.reliable (sessionHeader .connect 7 0 10 0) [1]),
    .deliver .connector Flow.stillEnv (.reliable (sessionHeader .connectAck 7 0 40 11) [0,0,0,9])]

def greetingAck : Packet := .reliable (sessionHeader .ack 9 1 11 44) []

end System
end P2Streaming.Urdp
