import P2Streaming.SharedUdpLayer
import P2Streaming.UrdpFlowRuns
import P2Streaming.UrdpForeignDatagrams

/-!
# What a refused connection request comes to

A layer without an acceptor for a domain answers a request with a refusal that consists
of the basic header alone. The layer that gets it finds the flow, but `__process` demands
the longer reliable header before it looks at the control byte.
-/
namespace P2Streaming.Urdp
open BigEndianBytes

namespace Flow

theorem Created.attached {f : Flow} (h : f.Created) (evs : List (Env × Event))
    (hs : (f.run evs).ctl.state = .synSent) :
    (f.run evs).ctl.socket = true ∧ (f.run evs).ctl.canceled = false := by
  have hl : (f.run evs).core.Local := run_keeps Core.Local (fun _ _ _ _ hm hc => hm.local hc)
    (fun _ _ _ _ hd hc => hd.local hc) h.local h.local evs
  obtain ⟨hcanceled,-⟩ := hl.unclosed (by rw [core_state,hs]; decide)
  exact ⟨hl.attached (hl.synSent hs) hcanceled,hcanceled⟩

def resets (f : Flow) : List Output :=
  f.log.filter fun
    | .datagram _ (.reliable h _) => h.control = .rst
    | _ => false

/-- The refusal was reported to the application, the flow is gone and sent no reset. -/
structure Reported (f g : Flow) : Prop where
  state : g.ctl.state = .closed
  callbacks : g.callbacks = f.callbacks ++ [.onConnected (some .hostUnreachable)]
  resets : g.resets=f.resets

/-- The refusal a connection request of the flow is answered with. -/
def refusal (f : Flow) (env : Env) (seq : BitVec 32) (domain : List Byte) : List Byte :=
  let request := Packet.reliable (f.reliableHeader env seq .connect) domain
  (makeRefuse (Header.decode request.encode)).encode

section
variable {f : Flow} {env : Env} {seq : BitVec 32} {domain pad : List Byte}

theorem refusal_header : Header.decode (f.refusal env seq domain ++ pad) =
    makeRefuse (f.reliableHeader env seq .connect).toHeader := by
  rw [refusal,Header.decode_encode,Packet.decode_encode]
  rfl

theorem length_refusal : (f.refusal env seq domain ++ pad).length = 12+pad.length := by
  rw [List.length_append,refusal,Header.length_encode]
  rfl

theorem refusal_peerId : (makeRefuse (f.reliableHeader env seq .connect).toHeader).peerId.toNat =
    f.ctl.flowId.toNat % 2^24 := by
  simp [makeRefuse,reliableHeader]

theorem refusal_routed {layer : SharedUdpLayer} {flow : ℕ}
    (registered : ∀ id, layer.flows id = some flow ↔ id=f.ctl.flowId.toNat) (now keepNow : ℕ)
    (src : Endpoint) :
    (layer.doHandleReceived now keepNow (onWire (f.refusal env seq domain ++ pad)) src).2 =
      .delivered flow ↔ f.ctl.flowId.toNat<2^24 := by
  set sbuf := f.refusal env seq domain ++ pad with hsbuf
  have hlong : ¬(onWire sbuf).length < unreliableFormatSize+zeroBytes := by
    rw [onWire,List.length_append,hsbuf,length_refusal,List.length_replicate,
      unreliableFormatSize]
    omega
  have hdrop : (onWire sbuf).drop zeroBytes = sbuf := by simp [onWire]
  have hheader : Header.decode sbuf = makeRefuse (f.reliableHeader env seq .connect).toHeader :=
    refusal_header
  have hlow : f.ctl.flowId.toNat % 2^24 ≠ invalidFlowId := by
    rw [invalidFlowId]
    omega
  have hmod : f.ctl.flowId.toNat % 2^24 = f.ctl.flowId.toNat ↔ f.ctl.flowId.toNat<2^24 :=
    Nat.mod_eq_iff_lt (by decide)
  rw [SharedUdpLayer.doHandleReceived,if_neg hlong,hdrop,SharedUdpLayer.doHandleReceivedUrdpMsg,
    hheader,if_neg (by simp [makeRefuse]),refusal_peerId,SharedUdpLayer.verdictFor,if_pos hlow,
    ← hmod,← registered]
  cases hflow : layer.flows (f.ctl.flowId.toNat % 2^24) with
  | none => simp [makeRefuse]
  | some other => simp

variable {src : Endpoint} (hs : f.ctl.state = .synSent)
include hs

theorem not_rejects_refusal : ¬f.rejects (makeRefuse (f.reliableHeader env seq .connect).toHeader)
    src := by
  rintro ⟨-,hsession | ⟨hconnected,-⟩⟩
  · exact hsession rfl
  · exact absurd (hs ▸ hconnected) (by decide)

theorem process_refusal (env' : Env) :
    f.process env' (f.refusal env seq domain ++ pad) src =
      let g := f.noteHeader env' (makeRefuse (f.reliableHeader env seq .connect).toHeader)
      if pad.length<12 then (g, false)
      else (g.allertConnected env' (some .hostUnreachable), true) := by
  have hlength := @length_refusal f env seq domain pad
  have hlive : f.ctl.state ≠ .closed := by rw [hs]; decide
  have hlong : ¬(f.refusal env seq domain ++ pad).length < unreliableFormatSize := by
    rw [hlength,unreliableFormatSize]
    omega
  simp only [process,if_neg hlive,if_neg hlong,refusal_header,if_neg (not_rejects_refusal hs)]
  rw [if_neg (by simp [makeRefuse])]
  by_cases hpad : pad.length<12
  · rw [if_pos hpad,if_pos (by rw [hlength,reliableFormatSize]; omega)]
  · rw [if_neg hpad,if_neg (by rw [hlength,reliableFormatSize]; omega)]
    have hheader : (ReliableHeader.decode (f.refusal env seq domain ++ pad)).toHeader =
      makeRefuse (f.reliableHeader env seq .connect).toHeader := refusal_header
    simp only [processReliable,hheader,makeRefuse]
    exact (if_neg (not_not.mpr rfl)).trans (if_pos hs)

theorem onReceived_short (env' : Env) (hpad : pad.length<12) :
    (f.onReceived env' (f.refusal env seq domain ++ pad) src).ctl.state = .synSent := by
  rw [onReceived,process_refusal hs,if_pos hpad]
  dsimp only
  split_ifs
  · exact hs
  · exact hs

theorem onReceived_long (env' : Env) (hpad : 12≤pad.length) (hsocket : f.ctl.socket=true)
    (hcanceled : f.ctl.canceled=false) :
    Reported f (f.onReceived env' (f.refusal env seq domain ++ pad) src) := by
  rw [onReceived,process_refusal hs,if_neg (Nat.not_lt.mpr hpad)]
  have hlive : ¬f.ctl.state = .closed := by rw [hs]; decide
  refine ⟨?_,?_,?_⟩ <;>
    simp [allertConnected,noteEstablished,noteHeader,hsocket,hcanceled,call,emit,toClosedState,
      hlive,callbacks,resets]

end

/-- A refusal is reported exactly when it is longer than the basic header by what makes it
a reliable one, and comes to a flow whose id fits into a header. -/
theorem refusal_reported_iff {f : Flow} (created : f.Created) (evs : List (Env × Event))
    (waiting : (f.run evs).ctl.state = .synSent) {layer : SharedUdpLayer} {flow : ℕ}
    (registered : ∀ id, layer.flows id = some flow ↔ id = (f.run evs).ctl.flowId.toNat)
    (env env' : Env) (seq : BitVec 32) (domain pad : List Byte) (src : Endpoint) (now keepNow : ℕ) :
    let g := f.run evs
    let refusal := g.refusal env seq domain ++ pad
    (layer.doHandleReceived now keepNow (onWire refusal) src).2 = .delivered flow ∧
        g.Reported (g.onReceived env' refusal src) ↔
      g.ctl.flowId.toNat < 2^24 ∧ 12≤pad.length := by
  intro g refusal
  obtain ⟨hsocket,hcanceled⟩ := created.attached evs waiting
  refine and_congr (refusal_routed registered now keepNow src) ⟨fun hreported => ?_,fun hpad => ?_⟩
  · by_contra hpad
    have hstill : (g.onReceived env' refusal src).ctl.state = .synSent :=
      onReceived_short waiting env' (Nat.lt_of_not_le hpad)
    exact absurd (hstill.symm.trans hreported.state) (by decide)
  · exact onReceived_long waiting env' hpad hsocket hcanceled

/-- Flow 0 of its layer, with id 7, that has asked port 2 of host 2 for a connection. -/
def askingFlow : Flow :=
  (createForActiveConnect ⟨10,0,5,7,0,0,0⟩ 0).run [(stillEnv, .connect ⟨2,2⟩ [1] 0)]

def askingLayer : SharedUdpLayer :=
  { SharedUdpLayer.create [] [] with flows := Function.update (fun _ => none) 7 (some 0) }

/-- The refusal reaches the flow, which resets and goes on waiting. -/
theorem refusal_answered_by_reset :
    let refusal := askingFlow.refusal stillEnv 10 [1]
    let g := askingFlow.onReceived stillEnv refusal ⟨2,2⟩
    (askingLayer.doHandleReceived 0 0 (onWire refusal) ⟨2,2⟩).2 = .delivered 0 ∧
      askingFlow.ctl.state = .synSent ∧ g.ctl.state = .synSent ∧ g.callbacks=[] ∧
      askingFlow.resets = [] ∧ g.resets.length=1 ∧ ¬askingFlow.Reported g := by
  refine ⟨by decide +kernel,by decide +kernel,by decide +kernel,by decide +kernel,
    by decide +kernel,by decide +kernel,fun h => ?_⟩
  have hstate := h.state
  revert hstate
  decide +kernel

/-- With twelve bytes more it is reported. -/
theorem long_refusal_reported :
    let refusal := askingFlow.refusal stillEnv 10 [1] ++ List.replicate 12 0
    askingFlow.ctl.state = .synSent ∧
      (askingLayer.doHandleReceived 0 0 (onWire refusal) ⟨2,2⟩).2 = .delivered 0 ∧
      askingFlow.Reported (askingFlow.onReceived stillEnv refusal ⟨2,2⟩) := by
  have hwaiting : askingFlow.ctl.state = .synSent := by decide +kernel
  have hid : askingFlow.ctl.flowId.toNat=7 := by decide +kernel
  refine ⟨hwaiting,(refusal_reported_iff (Or.inl ⟨_,_,rfl⟩) _ hwaiting (fun id => ?_) stillEnv
    stillEnv 10 [1] (List.replicate 12 0) ⟨2,2⟩ 0 0).mpr ⟨by decide +kernel,by decide⟩⟩
  rw [show ((createForActiveConnect ⟨10,0,5,7,0,0,0⟩ 0).run
    [(stillEnv, .connect ⟨2,2⟩ [1] 0)]).ctl.flowId.toNat = 7 from hid]
  by_cases h : id=7
  · simp [askingLayer,h]
  · simp [askingLayer,h]

end Flow
end P2Streaming.Urdp
