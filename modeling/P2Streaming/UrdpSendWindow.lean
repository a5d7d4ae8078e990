import P2Streaming.UrdpFlowRuns
import P2Streaming.UrdpFlowLog
import P2Streaming.UrdpForeignDatagrams

/-!
# The send window

The loop of `__attempt_send` stops only when nothing is queued, so a call keeps to
the window exactly when everything it finds queued fits.
-/
namespace P2Streaming.Urdp
open BigEndianBytes TransitionRuns

namespace Window

/-- `m_snd_nxt - m_snd_una`. -/
def inFlight (w : Window) : ℕ := (w.snd.sndNxt - w.snd.sndUna).toNat

/-- The bytes waiting in `m_slist`. -/
def queued (w : Window) : ℕ := (w.snd.slist.map fun seg => seg.buf.length).sum

/-- What may be in flight: the peer's window, or the congestion window with the two segments
of limited transmit. -/
def usable (w : Window) : ℕ := min w.sndWnd.toNat (w.cwnd.toNat + 2 * mss)

/-- A call keeps to the window: it adds nothing beyond it, and nothing at all when it is zero. -/
structure Respects (pre post : Window) : Prop where
  bound : post.inFlight ≤ max pre.inFlight post.usable
  closed : pre.sndWnd=0 → post.snd=pre.snd

def Fits (w : Window) : Prop :=
  w.snd.slist=[] ∨
    w.sndWnd≠0 ∧ (w.inFlight+w.queued) % 2^32 ≤ max w.inFlight w.usable

end Window

variable {pre post : Window}

theorem Attempt.inFlight (h : Attempt pre post) : post.inFlight = (pre.inFlight+pre.queued) % 2^32 := by
  rw [Window.inFlight,h.snd]
  simp only [Outgoing.drained,Window.inFlight,Window.queued]
  generalize (pre.snd.slist.map fun seg => seg.buf.length).sum = n
  have : pre.snd.sndNxt + BitVec.ofNat 32 n - pre.snd.sndUna =
      pre.snd.sndNxt - pre.snd.sndUna + BitVec.ofNat 32 n := by bv_omega
  rw [this,BitVec.toNat_add,BitVec.toNat_ofNat,Nat.add_mod_mod]

theorem Attempt.usable (h : Attempt pre post) : post.usable=pre.usable := by
  rw [Window.usable,h.sndWnd,h.cwnd,Window.usable]

theorem Attempt.respects_iff (h : Attempt pre post) : pre.Respects post ↔ pre.Fits := by
  constructor
  · intro hr
    by_cases hq : pre.snd.slist=[]
    · exact .inl hq
    refine .inr ⟨fun hw => ?_,?_⟩
    · -- with a closed window the queue would have to stay, but the call empties it
      have hs := congrArg Outgoing.slist (hr.closed hw)
      rw [h.snd] at hs
      exact hq hs.symm
    · have hb := hr.bound
      rwa [h.inFlight,h.usable] at hb
  · rintro (hq | ⟨hw,hb⟩)
    · have hs : post.snd=pre.snd := h.snd.trans (Outgoing.drained_nil hq)
      refine ⟨?_,fun _ => hs⟩
      rw [Window.inFlight,hs]
      exact le_max_left _ _
    · refine ⟨?_,fun h => absurd h hw⟩
      rwa [h.inFlight,h.usable]

/-- Every call the log notes is an `Attempt`. -/
def Core.Attempts (c : Core) : Prop := ∀ pre post, .attempted pre post ∈ c.log → Attempt pre post

theorem Micro.attempts {strict trusted : Prop} {rx : Option Arrival} {c d : Core}
    (h : Micro strict trusted rx c d) (hc : c.Attempts) : d.Attempts := by
  intro pre post hm
  rcases h.mem_log hm with ho | ho
  · exact hc pre post ho
  · cases ho with
    | note plain => cases plain
    | attempted ha => exact ha

theorem Core.Delivery.attempts {c d : Core} {buf : List Byte} (h : c.Delivery buf d)
    (hc : c.Attempts) : d.Attempts := by
  obtain ⟨-,-,_,_,_,-,-,-,-,rfl⟩ := h
  intro pre post hm
  rcases List.mem_append.mp hm with ho | ho
  · exact hc pre post ho
  · cases List.mem_singleton.mp ho

namespace Flow

/-- In every state any run reaches, a call of `__attempt_send` keeps to the window exactly when
everything queued fits into it. -/
theorem attempt_respects_window_iff {f : Flow} (created : f.Created) (evs : List (Env × Event))
    {pre post : Window} (h : .attempted pre post ∈ (f.run evs).log) : pre.Respects post ↔ pre.Fits := by
  have hcreated : f.core.Attempts := by
    rcases created with ⟨p,now,rfl⟩ | ⟨p,remoteEdp,now,rfl⟩ <;> exact fun _ _ h => nomatch h
  have hrun : (f.run evs).core.Attempts :=
    run_keeps Core.Attempts (fun _ _ _ _ h => h.attempts) (fun _ _ _ _ h => h.attempts)
      created.local hcreated evs
  exact (hrun pre post h).respects_iff

/-- The answer to the connect request, from a peer that has no room. -/
def closedWindowPacket : Packet :=
  .reliable
    { control := .connectAck, peerId := 7, lostrateRecving := 0, idForLostDetect := 0,
      sessionId := 5, window := 0, timeSending := 1, timeEcho := 1, seqno := 40, ackno := 11 }
    [0,0,0,9]

/-- A flow that has connected to such a peer and then sends an empty message. -/
def overrunningFlow : Flow :=
  (createForActiveConnect ⟨10,0,5,7,0,0,0⟩ 0).run
    [(stillEnv, .connect ⟨2,2⟩ [1] 0),(stillEnv, .received closedWindowPacket.encode ⟨2,2⟩),
      (stillEnv, .op (.send [] 0 .reliable))]

/-- The message goes out although the window is zero. -/
theorem closed_window_overrun :
    ∃ pre post, .attempted pre post ∈ overrunningFlow.log ∧ ¬pre.Respects post := by
  let pre : Window := ⟨⟨[⟨[0,0,0,0],11,0,.data⟩],[],11,11,4⟩,0,4350⟩
  let post : Window := ⟨⟨[],[⟨[0,0,0,0],11,1,.data⟩],11,15,4⟩,0,4350⟩
  refine ⟨pre,post,by decide +kernel,fun h => ?_⟩
  exact absurd (h.closed rfl) (by decide)

/-- The connect request of that flow fits. -/
theorem connect_request_respects_window :
    ∃ pre post, .attempted pre post ∈ overrunningFlow.log ∧ pre.Respects post := by
  let pre : Window := ⟨⟨[⟨[1],10,0,.connect⟩],[],10,10,1⟩,40959,2900⟩
  let post : Window := ⟨⟨[],[⟨[1],10,1,.connect⟩],10,11,1⟩,40959,2900⟩
  have hm : .attempted pre post ∈ overrunningFlow.log := by decide +kernel
  refine ⟨pre,post,hm,(attempt_respects_window_iff (.inl ⟨_,_,rfl⟩) _ hm).mpr ?_⟩
  exact .inr ⟨by decide,by decide⟩

end Flow
end P2Streaming.Urdp
