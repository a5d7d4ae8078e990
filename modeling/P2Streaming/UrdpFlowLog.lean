import P2Streaming.UrdpFlowCore

/-!
# What a small step writes into the log

Invariants about what a flow has sent need to know, for each new entry of the log,
which step wrote it and what that step was allowed to do.
-/
namespace P2Streaming.Urdp
open BigEndianBytes List

/-- Where a datagram goes and what its header takes from the flow that sends it. -/
structure Route (c d : Core) (dst : Endpoint) (h : Header) : Prop where
  dst : dst=d.remoteEndpoint
  sessionId : h.sessionId=d.sessionId
  live : c.state ≠ .closed

/-- What a step from `c` to `d` may write. -/
inductive Emits (trusted : Prop) (rx : Option Arrival) (c d : Core) : Output → Prop
  | note {o : Output} (plain : o.plain=true) : Emits trusted rx c d o
  | attempted {pre post : Window} (h : Attempt pre post) :
      Emits trusted rx c d (.attempted pre post)
  | sent {msgType : BitVec 16} {buf : List Byte} (established : c.state = .established) :
      Emits trusted rx c d (.sent msgType buf)
  | ack {dst : Endpoint} {h : ReliableHeader} (route : Route c d dst h.toHeader)
      (ackno : h.ackno=d.rcvNxt) (opened : d.state ≠ .closed) (control : h.control = .ack)
      (due : .established ≤ c.state ∨ c.ackDue=true ∨ c.Answers rx) :
      Emits trusted rx c d (.datagram dst (.reliable h []))
  | finAck {dst : Endpoint} {h : ReliableHeader} (route : Route c d dst h.toHeader)
      (control : h.control = .finAck) (asked : ∃ a∈rx, a.header.control = .fin) :
      Emits trusted rx c d (.datagram dst (.reliable h []))
  | rst {dst : Endpoint} {h : ReliableHeader} (route : Route c d dst h.toHeader)
      (control : h.control = .rst) (excused : trusted → c.Excused) :
      Emits trusted rx c d (.datagram dst (.reliable h []))
  | fin {dst : Endpoint} {h : ReliableHeader} (route : Route c d dst h.toHeader)
      (control : h.control = .fin) (waiting : c.state = .closing)
      (after : d.state = .watingFinAck) :
      Emits trusted rx c d (.datagram dst (.reliable h []))
  | segment {dst : Endpoint} {h : ReliableHeader} {data : List Byte}
      (route : Route c d dst h.toHeader) (ackno : h.ackno=d.rcvNxt) (opened : d.state ≠ .closed)
      (mem : ∃ seg∈d.snd.retransSlist,
        h.control = seg.ctrlType ∧ h.seqno=seg.seq ∧ data=seg.buf) :
      Emits trusted rx c d (.datagram dst (.reliable h data))
  | unreliable {dst : Endpoint} {h : Header} {pktID msgType : BitVec 16} {data : List Byte}
      (route : Route c d dst h)
      (control : h.control = .unreliableData ∨ h.control = .semireliableData)
      (due : c.state = .established ∨ c.unreliableDue=true) :
      Emits trusted rx c d (.datagram dst (.unreliable h pktID msgType data))

variable {strict trusted : Prop} {rx : Option Arrival} {c d : Core}

theorem Core.Headers.mem_zipWith {segs : List SSegment} {hs : List ReliableHeader} {dst : Endpoint}
    {o : Output} (hh : d.Headers segs hs)
    (ho : o ∈ List.zipWith (fun seg h => .datagram dst (.reliable h seg.buf)) segs hs) :
    ∃ seg∈segs, ∃ h, d.Fits h seg.ctrlType seg.seq ∧ o = .datagram dst (.reliable h seg.buf) := by
  induction hh with
  | nil => cases ho
  | cons hfits _ ih =>
    rcases mem_cons.mp ho with rfl | ho
    · exact ⟨_,mem_cons_self,_,hfits,rfl⟩
    · obtain ⟨seg,hm,h,hf,he⟩ := ih ho
      exact ⟨seg,mem_cons_of_mem _ hm,h,hf,he⟩

theorem Core.sentOut_emits {e : Core} {snd : Outgoing} {hs : List ReliableHeader}
    (live : c.state ≠ .closed) (hh : e.Headers snd.slist hs) {o : Output}
    (ho : o ∈ List.zipWith (fun seg h => .datagram e.remoteEndpoint (.reliable h seg.buf))
      snd.slist hs) : Emits trusted rx c (e.sentOut snd hs) o := by
  obtain ⟨seg,hm,h,hf,rfl⟩ := hh.mem_zipWith ho
  exact .segment ⟨rfl,hf.sessionId,live⟩ hf.ackno hf.live
    ⟨{ seg with xmit := seg.xmit + 1 },mem_append_right _ (mem_map.mpr ⟨seg,hm,rfl⟩),
      hf.control,hf.seqno,rfl⟩

theorem Micro.emits (h : Micro strict trusted rx c d) :
    ∃ new, d.log = c.log ++ new ∧ ∀ o∈new, Emits trusted rx c d o := by
  have single {o : Output} (hlog : d.log = c.log ++ [o]) (ho : Emits trusted rx c d o) :
      ∃ new, d.log = c.log ++ new ∧ ∀ o∈new, Emits trusted rx c d o :=
    ⟨[o],hlog,fun o' h => mem_singleton.mp h ▸ ho⟩
  have pair {o o' : Output} (hlog : d.log = c.log ++ [o] ++ [o']) (ho : Emits trusted rx c d o)
      (ho' : Emits trusted rx c d o') :
      ∃ new, d.log = c.log ++ new ∧ ∀ o∈new, Emits trusted rx c d o := by
    refine ⟨[o,o'],by simpa using hlog,fun x hx => ?_⟩
    rcases mem_pair.mp hx with rfl | rfl
    · exact ho
    · exact ho'
  have same (hlog : d.log=c.log) :
      ∃ new, d.log = c.log ++ new ∧ ∀ o∈new, Emits trusted rx c d o :=
    ⟨[],by simpa using hlog,fun _ h => absurd h not_mem_nil⟩
  cases h with
  | note o noted => exact single rfl (.note noted.plain)
  | unregister => exact single rfl (.note rfl)
  | closed => exact single rfl (.note rfl)
  | report => exact pair rfl (.note rfl) (.note rfl)
  | attempted ha => exact single rfl (.attempted ha)
  | ack fits due =>
    exact single rfl (.ack ⟨rfl,fits.sessionId,fits.live⟩ fits.ackno fits.live fits.control due)
  | finAck fits asked =>
    exact single rfl (.finAck ⟨rfl,fits.sessionId,fits.live⟩ fits.control asked)
  | rst fits excused =>
    exact single rfl (.rst ⟨rfl,fits.sessionId,fits.live⟩ fits.control excused)
  | abort fits excused =>
    exact pair rfl (.rst ⟨rfl,fits.sessionId,fits.live⟩ fits.control excused) (.note rfl)
  | fin waiting fits _ =>
    exact single rfl (.fin ⟨rfl,fits.sessionId,fits.live⟩ fits.control waiting rfl)
  | unreliable control sessionId due live =>
    exact single rfl (.unreliable ⟨rfl,sessionId,live⟩ control due)
  | retransmit oldest _ fits =>
    exact single rfl (.segment ⟨rfl,fits.sessionId,fits.live⟩ fits.ackno fits.live
      ⟨_,mem_cons_self,fits.control,fits.seqno,rfl⟩)
  | send established _ _ headers =>
    refine ⟨_,append_assoc _ _ _,fun o ho => ?_⟩
    rcases mem_cons.mp ho with rfl | ho
    · exact .sent established
    · exact Core.sentOut_emits (by rw [established]; decide)
        (headers.imp fun _ _ h => ⟨h.1,h.2,h.3,h.4,h.5⟩) ho
  | ping established _ headers =>
    exact ⟨_,rfl,fun o ho => Core.sentOut_emits (by rw [established]; decide) headers ho⟩
  | connect fresh _ asked headers =>
    refine ⟨_,congrArg (· ++ _) (asked ▸ rfl),fun o ho => ?_⟩
    exact Core.sentOut_emits (by rw [fresh]; decide) headers ho
  | listened _ _ listening called headers =>
    refine ⟨_,congrArg (· ++ _) (called ▸ rfl),fun o ho => ?_⟩
    exact Core.sentOut_emits (by rw [listening]; decide) headers ho
  | ackDue | unreliableDue | detectWritable | post | unpost | accept | acceptFirst | dupAcks
  | established | synced | syncedEarly | insert | skip | closing | cancel | accepted
  | punch | faultSending | faultReading => exact same rfl

theorem Micro.mem_log (h : Micro strict trusted rx c d) {o : Output} (ho : o∈d.log) :
    o∈c.log ∨ Emits trusted rx c d o := by
  obtain ⟨new,hlog,hnew⟩ := h.emits
  rw [hlog,mem_append] at ho
  exact ho.imp_right (hnew o)

end P2Streaming.Urdp
