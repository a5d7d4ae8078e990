import P2Streaming.UrdpAcquaintance

/-!
# When reordering resets a connection

`on_received` answers whatever `__process` refuses with a `CTRL_RST`. Between two flows
of one connection nothing is refused, but for unreliable datagrams: they are refused
by every flow that is not established or has no socket yet, and so by an acceptor that
has not heard the end of the handshake.
-/
namespace P2Streaming.Urdp
open BigEndianBytes TransitionRuns List

namespace Flow

/-- What `__process` asks of a datagram of the peer. -/
structure Welcomes (f : Flow) (p : Packet) (src : Endpoint) : Prop where
  session : .synSent ≤ f.ctl.state → p.header.sessionId=f.ctl.sessionId
  source : .synSent ≤ f.ctl.state → f.ctl.remoteEndpoint=src
  unreliable : ∀ h pktID msgType data, p = .unreliable h pktID msgType data →
    (h.control = .unreliableData ∨ h.control = .semireliableData) ∧
      f.ctl.socket = true ∧ f.ctl.state = .established
  reliable : ∀ h data, p = .reliable h data → h.control.sendable=true ∧
    (f.ctl.state = .synSent → h.control = .connectAck → 4≤data.length)

variable {src : Endpoint} {f : Flow} (env : Env)

theorem processSegment_taken {h : ReliableHeader} {data : List Byte} (connected : Bool)
    (source : .synSent ≤ f.ctl.state → f.ctl.remoteEndpoint=src) :
    (f.processSegment env h data src connected).2 = true := by
  unfold processSegment
  rw [if_neg (fun hs => hs.2 (source hs.1))]
  split <;> rfl

theorem processReliable_taken {h : ReliableHeader} {data : List Byte}
    (hw : f.Welcomes (.reliable h data) src) : (f.processReliable env h data src).2 = true := by
  obtain ⟨hsend,hanswer⟩ := hw.reliable h data rfl
  unfold processReliable
  split
  · rename_i hc
    rw [hc] at hsend
    cases hsend
  · rfl
  · rename_i hc
    split
    · rename_i hs
      have hle : .synSent ≤ f.ctl.state := hs.ge
      have hsession : h.sessionId=f.ctl.sessionId := hw.session hle
      rw [if_neg (not_or.mpr ⟨not_not.mpr hsession,Nat.not_lt.mpr (hanswer hs hc)⟩)]
      exact processSegment_taken (f := f.processConnectAck h data) env true
        fun _ => hw.source hle
    · exact processSegment_taken env false hw.source
  · rfl
  · rfl
  · rfl
  · rfl
  · exact processSegment_taken env false hw.source

theorem processUnreliable_taken (control : Ctrl) {sbuf : List Byte}
    (hlen : unreliableFormatSize+4 ≤ sbuf.length) (socket : f.ctl.socket=true)
    (hf : f.ctl.state = .established) : (f.processUnreliable env control sbuf).2 = true := by
  unfold processUnreliable
  rw [if_pos ⟨hlen,socket,hf⟩]
  split <;> rfl

theorem process_taken {p : Packet}
    (hw : f.Welcomes p src) : (f.process env p.encode src).2 = true := by
  have hrejects : ¬f.rejects p.header src := by
    rintro ⟨hs,hne | ⟨-,hne⟩⟩
    · exact hne (hw.session hs)
    · exact hne (hw.source hs)
  cases p with
  | reliable h data =>
    have hs := (hw.reliable h data rfl).1
    have hrel : h.control ≠ .unreliableData := fun hc => by
      rw [hc] at hs
      cases hs
    have hsemi : h.control ≠ .semireliableData := fun hc => by
      rw [hc] at hs
      cases hs
    rw [f.process_encode env data src hrel hsemi]
    by_cases hclosed : f.ctl.state = .closed
    · rw [if_pos hclosed]
    · rw [if_neg hclosed,if_neg (show ¬f.rejects h.toHeader src from hrejects)]
      exact processReliable_taken (f := f.noteHeader env h.toHeader) env ⟨hw.1,hw.2,hw.3,hw.4⟩
  | unreliable h pktID msgType data =>
    obtain ⟨hcontrol,socket,hf⟩ := hw.unreliable _ _ _ _ rfl
    have hlen : unreliableFormatSize+4 ≤
        (Packet.unreliable h pktID msgType data).encode.length := by
      simp only [Packet.encode,length_append,h.length_encode,length_beBytes]
      omega
    have hshort : ¬(Packet.unreliable h pktID msgType data).encode.length < unreliableFormatSize := by
      omega
    have hopen : ¬f.ctl.state = .closed := by
      rw [hf]
      decide
    unfold process
    rw [if_neg hopen,if_neg hshort,Packet.decode_encode]
    dsimp only [Packet.header] at hrejects ⊢
    rw [if_neg hrejects,if_pos hcontrol]
    exact processUnreliable_taken (f := f.noteHeader env h) env _ hlen socket hf

def ResetsExcused (log : List Output) : Prop := ∀ pre dst h data,
  pre ++ [.datagram dst (.reliable h data)] <+: log → h.control = .rst → Excused pre

end Flow

theorem Micro.resetsExcused {strict trusted : Prop} {rx : Option Arrival} {c d : Core}
    (h : Micro strict trusted rx c d) (ht : trusted) (hw : d.WellSent)
    (hc : Flow.ResetsExcused c.log) : Flow.ResetsExcused d.log := by
  intro pre dst hdr data hpre hrst
  obtain ⟨new,hlog,hnew⟩ := h.emits
  rw [hlog] at hpre
  rcases Nat.lt_or_ge pre.length c.log.length with hlt | hge
  · refine hc pre dst hdr data ?_ hrst
    exact prefix_of_prefix_length_le hpre (prefix_append _ _) (by
      rw [length_append]
      exact hlt)
  -- a reset of this step was sent with the whole old log behind it
  · obtain ⟨more,rfl⟩ := prefix_of_prefix_length_le (prefix_append c.log new)
      ((prefix_append pre _).trans hpre) hge
    have hmem : .datagram dst (.reliable hdr data) ∈ new := by
      rw [append_assoc,prefix_append_right_inj] at hpre
      exact hpre.subset (by simp)
    cases hnew _ hmem with
    | note plain => cases plain
    | rst _ _ excused => exact Excused.append (excused ht).1 more
    | ack _ _ _ control | finAck _ control | fin _ control => cases hrst.symm.trans control
    | segment _ _ _ mem =>
      obtain ⟨seg,hseg,hcontrol,-⟩ := mem
      have hsegment := hw.segments seg hseg
      rw [← hcontrol,hrst] at hsegment
      cases hsegment

theorem Core.Delivery.resetsExcused {c d : Core} {buf : List Byte} (h : c.Delivery buf d)
    (hc : Flow.ResetsExcused c.log) : Flow.ResetsExcused d.log := by
  obtain ⟨-,-,_,_,_,-,-,-,-,rfl⟩ := h
  intro pre dst hdr data hpre
  rcases prefix_concat_iff.mp hpre with he | hpre
  · cases (append_inj' he rfl).2
  · exact hc pre dst hdr data hpre

namespace System

variable (addr : Side → Endpoint)

def ResetSafe (s : System) : SystemEvent → Prop
  | .act _ _ _ => True
  | .deliver side _ p =>
      (p.header.control = .unreliableData ∨ p.header.control = .semireliableData →
        (s side).ctl.state = .closed ∨ Excused (s side).log ∨
          (s side).ctl.state = .established ∧ (s side).ctl.socket = true) ∧
      -- the retransmissions of an answer have not carried `m_snd_nxt` half around the ring
      (p.header.control = .data → (s side).ctl.state = .synRcvd →
        modLessEqual ((s side).snd.sndUna + 4) (s side).snd.sndNxt = true)

/-- What holds of two flows between which no reset was without an excuse. -/
structure Peaceful (sid : BitVec 16) (isn : BitVec 32) (s : System) : Prop where
  locals : ∀ side, (s side).core.Local
  acquainted : Acquainted (addr .connector) (addr .acceptor) sid isn
    (s .connector).core (s .acceptor).core
  excused : ∀ side, Flow.ResetsExcused (s side).log

namespace Peaceful

variable {addr : Side → Endpoint} {sid : BitVec 16} {isn : BitVec 32} {s : System}

theorem connector_welcomes (h : Peaceful addr sid isn s) {p : Packet}
    (hp : .datagram (addr .connector) p ∈ (s .acceptor).log)
    (hu : p.header.control = .unreliableData ∨ p.header.control = .semireliableData →
      (s .connector).ctl.state = .established ∧ (s .connector).ctl.socket = true) :
    (s .connector).Welcomes p (addr .acceptor) where
  session _ := (h.acquainted.sessionSent.2 _ p hp).trans h.acquainted.session.1.symm
  source _ := h.acquainted.dialled _ (h.acquainted.called _ p hp)
  unreliable hdr pktID msgType data he := by
    subst he
    have hc := h.acquainted.wellSent.2.unreliable _ _ _ _ _ hp
    exact ⟨hc,(hu hc).2,(hu hc).1⟩
  reliable hdr data he := by
    subst he
    refine ⟨h.acquainted.wellSent.2.reliable _ _ _ hp,fun _ hc => ?_⟩
    exact (h.acquainted.greetingSent _ _ _ hp hc).2.ge

theorem acceptor_welcomes (h : Peaceful addr sid isn s) {p : Packet}
    (hp : .datagram (addr .acceptor) p ∈ (s .connector).log) (live : (s .acceptor).ctl.state ≠ .closed)
    (hu : p.header.control = .unreliableData ∨ p.header.control = .semireliableData →
      (s .acceptor).ctl.state = .established ∧ (s .acceptor).ctl.socket = true) :
    (s .acceptor).Welcomes p (addr .connector) where
  session hs := by
    have hn : (s .acceptor).ctl.state ≠ .listen := fun hl => absurd (hl ▸ hs) (by decide)
    exact (h.acquainted.sessionSent.1 _ p hp).trans (h.acquainted.session.2 hn live).symm
  source hs := by
    have hn : (s .acceptor).ctl.state ≠ .listen := fun hl => absurd (hl ▸ hs) (by decide)
    exact h.acquainted.remote hn live
  unreliable hdr pktID msgType data he := by
    subst he
    have hc := h.acquainted.wellSent.1.unreliable _ _ _ _ _ hp
    exact ⟨hc,(hu hc).2,(hu hc).1⟩
  reliable hdr data he := by
    subst he
    exact ⟨h.acquainted.wellSent.1.reliable _ _ _ hp,
      fun hs => absurd hs h.acquainted.handshake.accepting.2⟩

theorem process_closed {f : Flow} (env : Env) (sbuf : List Byte) (src : Endpoint)
    (hf : f.ctl.state = .closed) : (f.process env sbuf src).2 = true := by
  rw [Flow.process,if_pos hf]

variable {env : Env}

theorem taken {side : Side} {p : Packet} (src : Endpoint) (safe : s.ResetSafe (.deliver side env p))
    (called : p.header.control = .unreliableData ∨ p.header.control = .semireliableData →
      (s side).ctl.active = true ∨ (s side).ctl.state ≠ .listen)
    (welcomes : (s side).ctl.state ≠ .closed →
      (p.header.control = .unreliableData ∨ p.header.control = .semireliableData →
        (s side).ctl.state = .established ∧ (s side).ctl.socket = true) →
      (s side).Welcomes p src) :
    ((s side).process env p.encode src).2 = true ∨ (s side).core.Excused := by
  by_cases hclosed : (s side).ctl.state = .closed
  · exact .inl (process_closed env _ _ hclosed)
  by_cases hu : p.header.control = .unreliableData ∨ p.header.control = .semireliableData
  · rcases safe.1 hu with hc | he | hs
    · exact absurd hc hclosed
    · exact .inr ⟨he,called hu⟩
    · exact .inl (Flow.process_taken env (welcomes hclosed fun _ => hs))
  · exact .inl (Flow.process_taken env (welcomes hclosed fun hc => absurd hc hu))

variable {ev : Event}

section
variable (h : Peaceful addr sid isn s)
include h

theorem connector_admits (taken : ∀ sbuf src, ev = .received sbuf src →
      ((s .connector).process env sbuf src).2 = true ∨ (s .connector).core.Excused) :
    (s .connector).Admits False True env ev :=
  ⟨nofun,nofun,fun _ _ _ _ => .inl (.inl h.acquainted.sides.1),fun _ => taken⟩

theorem acceptor_admits (heard : ∀ x∈ev.arrival,
      Heard (s .connector).core.log (addr .acceptor) (addr .connector) x)
    (reached : ∀ x∈ev.arrival, x.header.control = .data → (s .acceptor).ctl.state = .synRcvd →
      modLessEqual ((s .acceptor).snd.sndUna + 4) (s .acceptor).snd.sndNxt = true)
    (taken : ∀ sbuf src, ev = .received sbuf src →
      ((s .acceptor).process env sbuf src).2 = true ∨ (s .acceptor).core.Excused) :
    (s .acceptor).Admits False True env ev := by
  refine ⟨nofun,nofun,fun _ x hx hdata => ?_,fun _ => taken⟩
  have hord : x.header.control.ordinary=true := by rw [hdata]; rfl
  by_cases hwait : (s .acceptor).ctl.state = .synRcvd
  · -- whatever data comes first carries the acknowledgement of the answer
    obtain ⟨hmem,-,-⟩ := (heard x hx).reliable h.acquainted.wellSent.1
      (Acquainted.ordinary_reliable hord)
    have huna : (s .acceptor).snd.sndUna = isn := (h.acquainted.greeted hwait).sndUna
    have hack := h.acquainted.acks (.inr hwait) _ _ _ hmem hord
    refine .inr ⟨hwait,?_,?_⟩
    · rw [hack,Flow.core_snd,huna,modLess_iff,show isn + 4 - isn = 4 by ring]
      decide
    · rw [hack,← huna]
      exact reached x hx hdata hwait
  · refine .inl (.inr (.inl ?_))
    have hlisten : (s .acceptor).core.state ≠ .listen := fun hl =>
      h.acquainted.handshake.not_ordinary_listening hl heard ⟨x,hx,hord⟩
    have hacc := h.acquainted.handshake.accepting
    revert hwait hlisten hacc
    simp only [Flow.core_state]
    cases (s .acceptor).ctl.state <;> simp <;> decide

/-- A step of one flow, given what it keeps with its peer. -/
theorem moved {side : Side} (ha : (s side).Admits False True env ev)
    {Q : Core → Prop} (well : ∀ c, Q c → c.WellSent)
    (micro : ∀ c d, c.Local → Micro False True ev.arrival c d → Q c → Q d)
    (delivery : ∀ c d buf, c.Delivery buf d → Q c → Q d) (hq : Q (s side).core)
    (hnext : Q ((s side).step env ev).core →
      Acquainted (addr .connector) (addr .acceptor) sid isn (s.next side env ev .connector).core
        (s.next side env ev .acceptor).core) : Peaceful addr sid isn (s.next side env ev) := by
  obtain ⟨hl,hacq,hexc⟩ := (Flow.step_moves env ha).keeps (fun c => Q c ∧ Flow.ResetsExcused c.log)
    (fun c d hl hm hc => ⟨micro c d hl hm hc.1,
      hm.resetsExcused trivial (hm.wellSent hl (well c hc.1)) hc.2⟩)
    (fun c d buf _ hd hc => ⟨delivery c d buf hd hc.1,hd.resetsExcused hc.2⟩)
    (h.locals side) ⟨hq,h.excused side⟩
  exact ⟨next_forall h.locals hl,hnext hacq,
    next_forall (P := fun c => Flow.ResetsExcused c.log) h.excused hexc⟩

theorem connector_step (heard : ∀ x∈ev.arrival,
      Heard (s .acceptor).core.log (addr .connector) (addr .acceptor) x)
    (ha : (s .connector).Admits False True env ev) :
    Peaceful addr sid isn (s.next .connector env ev) :=
  h.moved ha
    (Q := fun c => Acquainted (addr .connector) (addr .acceptor) sid isn c (s .acceptor).core)
    (fun _ hc => hc.wellSent.1) (fun _ _ hl hm hc => hc.connector_step heard hm hl)
    (fun _ _ _ hd hc => hc.connector_delivery hd) h.acquainted id

theorem acceptor_step (heard : ∀ x∈ev.arrival,
      Heard (s .connector).core.log (addr .acceptor) (addr .connector) x)
    (ha : (s .acceptor).Admits False True env ev) :
    Peaceful addr sid isn (s.next .acceptor env ev) :=
  h.moved ha
    (Q := fun c => Acquainted (addr .connector) (addr .acceptor) sid isn (s .connector).core c)
    (fun _ hc => hc.wellSent.2) (fun _ _ hl hm hc => hc.acceptor_step hm heard trivial hl)
    (fun _ _ _ hd hc => hc.acceptor_delivery hd) h.acquainted id

theorem step {e : SystemEvent} (safe : s.ResetSafe e) :
    Peaceful addr sid isn (s.step addr e) := by
  rcases s.step_cases e with he | ⟨side,env,ev,he,heard,hev⟩
  · rwa [he]
  rw [he]
  cases side with
  | connector =>
    refine h.connector_step heard (h.connector_admits fun sbuf src hrec => ?_)
    rcases hev with ⟨hn,-⟩ | ⟨p,rfl,hp,rfl⟩
    · simp [hrec,Event.arrival] at hn
    · cases hrec
      exact taken _ safe (fun _ => .inl h.acquainted.sides.1)
        fun _ hu => h.connector_welcomes hp hu
  | acceptor =>
    refine h.acceptor_step heard (h.acceptor_admits heard (fun x hx hdata hwait => ?_)
      fun sbuf src hrec => ?_)
    · rcases hev with ⟨hn,-⟩ | ⟨p,rfl,hp,rfl⟩
      · simp [hn] at hx
      · cases hx
        exact safe.2 ((p.arrival_control _).symm.trans hdata) hwait
    · rcases hev with ⟨hn,-⟩ | ⟨p,rfl,hp,rfl⟩
      · simp [hrec,Event.arrival] at hn
      · cases hrec
        refine taken _ safe (fun hu => .inr fun hl => ?_)
          fun live hu => h.acceptor_welcomes hp live hu
        -- nothing unreliable is under way to a flow that still listens
        have hcontrol := p.arrival_control (addr .connector)
        rcases h.acquainted.handshake.heard_listening hl (heard _ rfl) with hc | hc <;>
          rcases hu with hu | hu <;> cases hu.symm.trans (hcontrol.symm.trans hc)

end

end Peaceful

theorem Start.peaceful {addr : Side → Endpoint} {s : System} (h : Start s) :
    Peaceful addr (s .connector).ctl.sessionId (s .acceptor).snd.sndUna s where
  locals side := (h.created side).local
  acquainted := Acquainted.start h
  excused side := by
    have hlog : (s side).log = [] := by
      rcases h.created side with ⟨p,now,hf⟩ | ⟨p,remoteEdp,now,hf⟩ <;> rw [hf] <;> rfl
    intro pre dst hdr data hpre
    rw [hlog,prefix_nil] at hpre
    simp at hpre

/-- In every state that a run of safe events reaches, whoever has sent a reset had been closed
or had run into a time-out before. -/
theorem resets_excused_of_safe_run (addr : Side → Endpoint) {s : System} (start : s.Start)
    (es : List SystemEvent) (safe : AlongRun (System.step addr) ResetSafe s es) (side : Side) :
    Flow.ResetsExcused (s.run addr es side).log :=
  (invariant_of_run (Peaceful addr (s .connector).ctl.sessionId (s .acceptor).snd.sndUna)
    (fun _ _ safe h => h.step safe) safe start.peaceful).excused side

/-- An unreliable message that the connector sends as soon as it is connected. -/
def earlyMessage : Packet :=
  .unreliable (sessionHeader .unreliableData 9 2 0 0).toHeader 1 3 [7]

def sendEarly : SystemEvent := .act .connector Flow.stillEnv (.op (.send [7] 3 .unreliable))

/-- If the message overtakes the acknowledgement of the handshake, the acceptor resets. -/
theorem overtaking_message_resets :
    let s := twoFlows.run twoHosts
      (greetings ++ [sendEarly,.deliver .acceptor Flow.stillEnv earlyMessage])
    ¬Flow.ResetsExcused (s .acceptor).log := by
  intro s h
  have hexc : Excused ((s .acceptor).log.take 2) :=
    h _ ⟨1,1⟩ (sessionHeader .rst 7 1 44 11) [] (by decide +kernel) rfl
  revert hexc
  unfold Excused
  decide +kernel

/-- Behind the acknowledgement it does no harm. -/
theorem late_message_is_taken :
    let s := twoFlows.run twoHosts (greetings ++ [.deliver .acceptor Flow.stillEnv greetingAck,
      sendEarly,.deliver .acceptor Flow.stillEnv earlyMessage])
    (s .acceptor).callbacks = [.acceptFlow,.onReceived [0,3,7]] ∧
      Flow.ResetsExcused (s .acceptor).log := by
  refine ⟨by decide +kernel,resets_excused_of_safe_run _ twoFlows_start _ ?_ .acceptor⟩
  have other {side : Side} {p : Packet} {s : System}
      (hp : p.header.control = .connect ∨ p.header.control = .connectAck ∨ p.header.control = .ack) :
      s.ResetSafe (.deliver side Flow.stillEnv p) := by
    rcases hp with hp | hp | hp <;> exact ⟨by simp [hp],by simp [hp]⟩
  refine ⟨trivial,other (by decide),other (by decide),other (by decide),trivial,
    ⟨fun _ => .inr (.inr (by decide +kernel)),fun h => absurd h (by decide)⟩,trivial⟩

end System
end P2Streaming.Urdp
