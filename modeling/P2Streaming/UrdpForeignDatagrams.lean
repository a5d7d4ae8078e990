import P2Streaming.UrdpFlowEvents

/-!
# Datagrams of a foreign session or from a foreign endpoint

An established flow refuses such a datagram before it touches anything, but
`on_received` answers the first refusal with a `CTRL_RST`, and sends it to
`m_remote_endpoint`: to the legitimate peer, not to where the datagram came from.
-/
namespace P2Streaming.Urdp
open BigEndianBytes

namespace Flow

/-- The datagrams the flow has sent to an endpoint, oldest first. -/
def sentTo (f : Flow) (dst : Endpoint) : List Packet :=
  f.log.filterMap fun
    | .datagram d p => if d=dst then some p else none
    | _ => none

/-- The session id or the source is not the one of the flow's connection. -/
def Foreign (f : Flow) (sbuf : List Byte) (src : Endpoint) : Prop :=
  (Header.decode sbuf).sessionId ≠ f.ctl.sessionId ∨ src≠f.ctl.remoteEndpoint

/-- Neither the peer of `f` nor its application can tell `g` from `f`, now or later. -/
structure Undisturbed (f g : Flow) : Prop where
  control : g.ctl=f.ctl
  queues : g.snd=f.snd ∧ g.rcv=f.rcv ∧ g.unrel=f.unrel
  timers : g.tim=f.tim ∧ g.cc=f.cc ∧ g.posted=f.posted
  peer : ∀ evs : List (Env × Event),
    (g.run evs).sentTo f.ctl.remoteEndpoint = (f.run evs).sentTo f.ctl.remoteEndpoint
  application : ∀ evs : List (Env × Event), (g.run evs).callbacks = (f.run evs).callbacks

theorem Undisturbed.refl (f : Flow) : Undisturbed f f where
  control := rfl
  queues := ⟨rfl,rfl,rfl⟩
  timers := ⟨rfl,rfl,rfl⟩
  peer _ := rfl
  application _ := rfl

theorem process_foreign {f : Flow} (env : Env) {sbuf : List Byte} {src : Endpoint}
    (hf : f.ctl.state = .established) (h : f.Foreign sbuf src) : f.process env sbuf src = (f, false) := by
  have hr : f.rejects (Header.decode sbuf) src := by
    have hs : TcpState.synSent≤f.ctl.state := by rw [hf]; decide
    have he : TcpState.established≤f.ctl.state := hf.ge
    rcases h with h | h
    · exact ⟨hs,.inl h⟩
    · exact ⟨hs,.inr ⟨he,h.symm⟩⟩
  have hc : f.ctl.state ≠ .closed := by rw [hf]; decide
  rw [process,if_neg hc]
  split
  · rfl
  · exact if_pos hr

@[simp] theorem sentTo_reset (f : Flow) (env : Env) (seq : BitVec 32) (control : Ctrl) :
    (f.packetAsReliableAndSendout env seq control []).sentTo f.ctl.remoteEndpoint =
      f.sentTo f.ctl.remoteEndpoint ++ [.reliable (f.reliableHeader env seq control) []] := by
  simp [packetAsReliableAndSendout,sentTo]

/-- A foreign datagram goes unnoticed exactly when an earlier refusal has already used up
the one reset a flow sends. -/
theorem undisturbed_by_foreign_iff (f : Flow) (env : Env) (sbuf : List Byte) (src : Endpoint)
    (hf : f.ctl.state = .established) (h : f.Foreign sbuf src) :
    Undisturbed f (f.onReceived env sbuf src) ↔ f.ctl.ignoreAllPkt=true := by
  have hp := process_foreign env hf h
  constructor
  · intro hu
    by_contra hi
    have hsent := hu.peer []
    simp only [onReceived,hp,if_neg hi,run] at hsent
    have hlen := congrArg List.length (hsent.symm.trans (sentTo_reset f env f.snd.sndNxt .rst))
    simp at hlen
  · intro hi
    have he : f.onReceived env sbuf src = f := by simp [onReceived,hp,hi]
    rw [he]
    exact Undisturbed.refl f

def stillEnv : Env where
  tick := 1
  lostrate := 0
  rtoLimit := 500
  random _ := 0
  accepting := .dispatched
  react _ := []

/-- The answer to a connect request of session 5 that ended at sequence number 11. -/
def connectAckPacket : Packet :=
  .reliable
    { control := .connectAck, peerId := 7, lostrateRecving := 0, idForLostDetect := 0,
      sessionId := 5, window := 1000, timeSending := 1, timeEcho := 1, seqno := 40, ackno := 11 }
    [0,0,0,9]

/-- A flow that has connected to port 2 of host 2, with nothing in flight. -/
def connectedFlow : Flow :=
  (createForActiveConnect ⟨10,0,5,7,0,0,0⟩ 0).run
    [(stillEnv, .connect ⟨2,2⟩ [1] 0),(stillEnv, .received connectAckPacket.encode ⟨2,2⟩)]

/-- The same answer from host 3 makes that flow reset its own connection. -/
theorem foreign_datagram_resets_peer : connectedFlow.ctl.state = .established ∧
    connectedFlow.Foreign connectAckPacket.encode ⟨3,3⟩ ∧ ¬Undisturbed connectedFlow
      (connectedFlow.onReceived stillEnv connectAckPacket.encode ⟨3,3⟩) := by
  refine ⟨by decide +kernel,.inr (by decide +kernel),fun hu => ?_⟩
  have hsent := hu.peer []
  revert hsent
  decide +kernel

/-- The second foreign datagram is ignored. -/
theorem second_foreign_datagram_ignored :
    let sbuf := connectAckPacket.encode
    let f := connectedFlow.onReceived stillEnv sbuf ⟨3,3⟩
    unreliableFormatSize ≤ sbuf.length ∧ Undisturbed f (f.onReceived stillEnv sbuf ⟨3,3⟩) :=
  ⟨by decide +kernel,(undisturbed_by_foreign_iff _ stillEnv _ ⟨3,3⟩ (by decide +kernel)
    (.inr (by decide +kernel))).mpr (by decide +kernel)⟩

end Flow
end P2Streaming.Urdp
