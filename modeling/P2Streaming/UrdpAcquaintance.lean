import P2Streaming.UrdpHandshake

/-!
# Two flows of one connection know each other

As long as no flow sends a reset without an excuse, the session, the endpoints and the
first sequence number of the acceptor are what the other side takes them for, from
the first datagram on.
-/
namespace P2Streaming.Urdp
open BigEndianBytes List

variable {strict trusted : Prop} {rx : Option Arrival} {c d : Core}

/-! ### Members that rarely change -/

section
variable (h : Micro strict trusted rx c d)
include h

theorem Micro.active_eq (hc : c.state ≠ .init) : d.active=c.active := by
  cases h with
  | connect fresh => exact absurd fresh hc
  | listened _ _ _ called =>
    subst called
    rfl
  | _ => rfl

theorem Micro.sessionId_eq (hc : c.state ≠ .listen) :
    d.sessionId=c.sessionId := by
  cases h with
  | connect _ _ asked =>
    subst asked
    rfl
  | listened _ _ listening => exact absurd listening hc
  | _ => rfl

theorem Micro.remoteEndpoint_eq (hi : c.state ≠ .init)
    (hc : c.state ≠ .listen) (punch : ∀ x∈rx, x.header.control ≠ .punch) :
    d.remoteEndpoint=c.remoteEndpoint := by
  cases h with
  | connect fresh => exact absurd fresh hi
  | listened _ _ listening => exact absurd listening hc
  | punch arrival control => exact absurd control (punch _ arrival)
  | _ => rfl

end

theorem Emits.route {dst : Endpoint} {p : Packet} (h : Emits trusted rx c d (.datagram dst p)) :
    Route c d dst p.header := by
  cases h with
  | note plain => cases plain
  | ack route | finAck route | rst route | fin route | segment route | unreliable route =>
    exact route

theorem Heard.not_punch {dst src : Endpoint} {x : Arrival} (h : Heard c.log dst src x)
    (hw : c.WellSent) : x.header.control ≠ .punch := by
  intro hp
  have hs := (h.reliable hw (by simp [hp])).2.2
  rw [hp] at hs
  cases hs

theorem Outgoing.queue_short {o : Outgoing} {data : List Byte} {ctrlType : Ctrl}
    (hs : o.slist=[]) (hne : data≠[]) (hlen : data.length ≤ mss) :
    o.queue data ctrlType = { o with
      slist := [⟨data,o.sndUna+o.slen,0,ctrlType⟩]
      slen := o.slen + BitVec.ofNat 32 data.length } := by
  have htake : data.take mss = data := take_of_length_le hlen
  have hdrop : data.drop mss = [] := drop_eq_nil_iff.mpr hlen
  obtain ⟨b,bs,rfl⟩ := exists_cons_of_ne_nil hne
  cases bs <;> simp [queue,hs,pushSegments,htake,hdrop]

theorem add_four_ne (x : BitVec 32) : x+4≠x := by bv_omega

/-! ### The invariant -/

/-- A flow in `SYN_RCVD` waits for the acknowledgement of its four-byte answer. -/
structure Core.Greeted (isn : BitVec 32) (c : Core) : Prop where
  sndUna : c.snd.sndUna=isn
  dupAcks : c.dupAcks=0
  queue : ∃ seg, c.snd.retransSlist = [seg] ∧ seg.ctrlType = .connectAck ∧ seg.seq=isn ∧
    seg.buf.length=4

def Core.Waits (c : Core) : Prop := c.state = .listen ∨ c.state = .synRcvd

/-- The connector `a` at `ea`, whose session is `sid`, and the acceptor `b` at `eb`, whose
sequence numbers start at `isn`. -/
structure Acquainted (ea eb : Endpoint) (sid : BitVec 16) (isn : BitVec 32) (a b : Core) :
    Prop where
  handshake : Handshake eb a b
  wellSent : a.WellSent ∧ b.WellSent
  sides : a.active=true ∧ b.active=false
  session : a.sessionId=sid ∧ (b.state ≠ .listen → b.state ≠ .closed → b.sessionId=sid)
  sessionSent : (∀ dst p, .datagram dst p ∈ a.log → p.header.sessionId=sid) ∧
    ∀ dst p, .datagram dst p ∈ b.log → p.header.sessionId=sid
  dialled : ∀ dst, a.Called dst → a.remoteEndpoint=dst
  called : ∀ dst p, .datagram dst p ∈ b.log → a.Called eb
  remote : b.state ≠ .listen → b.state ≠ .closed → b.remoteEndpoint=ea
  idle : b.state = .listen → b.snd.sndUna=isn ∧ b.snd.slen=0
  greeted : b.state = .synRcvd → b.Greeted isn
  greeting : ∀ seg∈b.snd.retransSlist, seg.ctrlType = .connectAck →
    seg.seq=isn ∧ seg.buf.length=4
  greetingSent : ∀ dst h data, .datagram dst (.reliable h data) ∈ b.log →
    h.control = .connectAck → h.seqno=isn ∧ data.length=4
  /-- Until then the acceptor has sent no data but its answer, -/
  silent : b.Waits → ∀ dst h data, .datagram dst (.reliable h data) ∈ b.log → data≠[] →
    h.control = .connectAck
  /-- and the connector acknowledges exactly that. -/
  acks : b.Waits → ∀ dst h data, .datagram dst (.reliable h data) ∈ a.log →
    h.control.ordinary=true → h.ackno=isn+4
  heard : b.Waits → a.Live → a.rcvNxt=isn+4

namespace Acquainted

variable {ea eb : Endpoint} {sid : BitVec 16} {isn : BitVec 32} {a b : Core}

/-! ### Steps of the connector -/

theorem ordinary_reliable {x : Arrival} (ho : x.header.control.ordinary=true) :
    x.header.control ≠ .unreliableData ∧ x.header.control ≠ .semireliableData := by
  constructor <;> intro hc <;> simp [hc,Ctrl.ordinary] at ho

section
variable (h : Acquainted ea eb sid isn a b) (heard : ∀ x∈rx, Heard b.log ea eb x)
  (hm : Micro strict trusted rx a d)
include h

theorem not_here (hb : b.Waits) {x : Arrival}
    (hx : Heard b.log ea eb x) (hrel : x.header.control.ordinary=true)
    (hnxt : a.rcvNxt=isn+4) {seqno : BitVec 32} {data : List Byte}
    (hrem : a.Remains x seqno data) : x.header.control ≠ .data ∧ seqno≠a.rcvNxt := by
  obtain ⟨hmem,-,-⟩ := hx.reliable h.wellSent.2 (ordinary_reliable hrel)
  have hdata : x.data≠[] := by
    intro hnil
    have ht := hrem.trim
    rw [hnil] at ht
    simp only [trimSegment,length_nil,Nat.not_lt_zero,if_false] at ht
    split at ht <;> exact hrem.nonempty (Prod.mk.inj ht).2.symm
  have hc := h.silent hb _ _ _ hmem hdata
  obtain ⟨hseq,hlen⟩ := h.greetingSent _ _ _ hmem hc
  refine ⟨by rw [hc]; decide,?_⟩
  have ht := hrem.trim
  rw [hseq,hnxt] at ht
  rw [hnxt]
  unfold trimSegment at ht
  split at ht
  · -- an answer that arrives once more is trimmed away
    have hcut : ¬(isn + 4 - isn).toNat < x.data.length := by
      rw [hlen,show isn + 4 - isn = 4 by ring]
      decide
    rw [if_neg hcut] at ht
    exact absurd (Prod.mk.inj ht).2.symm hrem.nonempty
  · rw [← (Prod.mk.inj ht).1]
    exact (add_four_ne isn).symm

include heard hm

theorem dialled_step (dst : Endpoint)
    (hd : d.Called dst) : d.remoteEndpoint=dst := by
  obtain ⟨p,hp,hr⟩ := hd
  rcases hm.mem_log hp with ho | ho
  · have hcalled : a.Called dst := ⟨p,ho,hr⟩
    have hi : a.state ≠ .init := fun hi => (h.handshake.fresh hi).2 dst hcalled
    rw [hm.remoteEndpoint_eq hi h.handshake.connecting.1
      fun x hx => (heard x hx).not_punch h.wellSent.2]
    exact h.dialled dst hcalled
  · exact ho.route.dst.symm

theorem heard_step (hb : b.Waits)
    (hd : d.Live) :
    d.rcvNxt=isn+4 := by
  have hold := h.heard hb
  have hsyn := h.handshake.connecting.2
  -- an answer that ends the handshake is the acceptor's first segment
  have answer {x : Arrival} (hx : x∈rx) (hc : x.header.control = .connectAck) :
      x.header.seqno + BitVec.ofNat 32 x.data.length = isn+4 ∧ x.src=a.remoteEndpoint := by
    obtain ⟨hmem,hsrc,-⟩ := (heard x hx).reliable h.wellSent.2 (by simp [hc])
    obtain ⟨hseq,hlen⟩ := h.greetingSent _ _ _ hmem hc
    exact ⟨by rw [hseq,hlen]; rfl,hsrc.trans (h.dialled _ (h.called _ _ hmem)).symm⟩
  cases hm with
  | connect _ _ asked =>
    subst asked
    exact absurd hd.1 (show ¬TcpState.established ≤ .synSent by decide)
  | listened _ _ listening => exact absurd listening h.handshake.connecting.1
  | acceptFirst _ _ _ _ _ waiting | established waiting => exact absurd waiting hsyn
  | synced arrival control => exact (answer arrival control).1
  | syncedEarly arrival control waiting odd =>
    have hs : ¬a.Synced := by rw [Core.Synced,waiting]; decide
    obtain ⟨-,hblank⟩ := h.handshake.silent hs
    rcases odd with hdup | hr | hsrc
    · simp [hblank.dupAcks] at hdup
    · exact absurd hblank.rlist hr
    · exact absurd (answer arrival control).2.symm hsrc
  | insert arrival control _ remains =>
    exact absurd control
      (h.not_here hb (heard _ arrival) (by rw [control]; rfl) (hold hd) remains).1
  | skip arrival ordinary _ remains here =>
    exact absurd here (h.not_here hb (heard _ arrival) ordinary (hold hd) remains).2
  | closing connected live => exact hold ⟨connected,live⟩
  | fin waiting => exact hold ⟨waiting ▸ (by decide),by rw [waiting]; decide⟩
  | abort | closed | report => exact absurd rfl hd.2
  | _ => exact hold hd

theorem acks_step (hb : b.Waits) (hl : a.Local)
    (dst : Endpoint)
    (h' : ReliableHeader) (data : List Byte) (hd : .datagram dst (.reliable h' data) ∈ d.log)
    (ho : h'.control.ordinary=true) : h'.ackno=isn+4 := by
  rcases hm.mem_log hd with hold | hnew
  · exact h.acks hb dst h' data hold ho
  -- whoever acknowledges has synchronised
  have hs : a.Synced := not_not.mp fun hs => h.handshake.silent_step heard hm hs hl
    ⟨dst,_,hd,fun hc => by simp [show h'.control = _ from hc,Ctrl.ordinary] at ho,
      fun hc => by simp [show h'.control = _ from hc,Ctrl.ordinary] at ho⟩
  have hlive (opened : d.state ≠ .closed) : d.Live :=
    (h.handshake.connector_step heard hm hl).live_of_synced (hm.synced_mono hs) opened
  cases hnew with
  | note plain => cases plain
  | ack _ ackno opened => exact ackno.trans (h.heard_step heard hm hb (hlive opened))
  | segment _ ackno opened => exact ackno.trans (h.heard_step heard hm hb (hlive opened))
  | finAck _ control | rst _ control | fin _ control => simp [control,Ctrl.ordinary] at ho

theorem connector_step (hl : a.Local) : Acquainted ea eb sid isn d b where
  handshake := h.handshake.connector_step heard hm hl
  wellSent := ⟨hm.wellSent hl h.wellSent.1,h.wellSent.2⟩
  sides := ⟨hm.grows.active h.sides.1,h.sides.2⟩
  session := ⟨(hm.sessionId_eq h.handshake.connecting.1).trans h.session.1,h.session.2⟩
  sessionSent := by
    refine ⟨fun dst p hp => ?_,h.sessionSent.2⟩
    rcases hm.mem_log hp with ho | ho
    · exact h.sessionSent.1 dst p ho
    · rw [ho.route.sessionId,hm.sessionId_eq h.handshake.connecting.1,h.session.1]
  dialled := h.dialled_step heard hm
  called dst p hp := hm.grows.hasCalled (h.called dst p hp)
  remote := h.remote
  idle := h.idle
  greeted := h.greeted
  greeting := h.greeting
  greetingSent := h.greetingSent
  silent := h.silent
  acks hb := h.acks_step heard hm hb hl
  heard hb := h.heard_step heard hm hb

end

/-! ### Steps of the acceptor -/

section
variable (h : Acquainted ea eb sid isn a b) (hm : Micro strict trusted rx b d)
include h

theorem not_excused (hb : b.state = .listen) : ¬b.Excused := by
  rintro ⟨-,ha | hn⟩
  · simp [h.sides.2] at ha
  · exact hn hb

include hm

theorem waits_of_step (hd : d.Waits) : b.Waits := by
  obtain ⟨hi,hs⟩ := h.handshake.accepting
  cases hm with
  | connect fresh => exact absurd fresh hi
  | listened _ _ listening => exact .inl listening
  | acceptFirst | established | synced | syncedEarly | closing | fin | abort | closed | report =>
    rcases hd with hd | hd <;> cases hd
  | _ => exact hd

variable (heard : ∀ x∈rx, Heard a.log eb ea x)
include heard

/-- A listening flow says nothing before a connect request has arrived. -/
theorem quiet_step (ht : trusted) (hb : b.state = .listen)
    (hl : b.Local) :
    d.state = .synRcvd ∨ d.snd.retransSlist=[] ∧
      ∀ dst p, .datagram dst p ∈ d.log → .datagram dst p ∈ b.log := by
  obtain ⟨hnil,-,hblank⟩ := h.handshake.listening hb
  have hord := h.handshake.not_ordinary_listening hb heard
  have hest : ¬.established ≤ b.state := by rw [hb]; decide
  have hexc := h.not_excused hb
  have same {e : Core} {log : List Output} (hlog : e.log = b.log ++ log)
      (hplain : ∀ o∈log, ∀ dst p, o ≠ .datagram dst p) :
      ∀ dst p, .datagram dst p ∈ e.log → .datagram dst p ∈ b.log := by
    intro dst p hp
    rw [hlog] at hp
    exact (mem_append.mp hp).resolve_right fun hn => hplain _ hn dst p rfl
  have plain {e : Core} {log : List Output} (hlog : e.log = b.log ++ log)
      (hplain : ∀ o∈log, o.plain=true) :
      ∀ dst p, .datagram dst p ∈ e.log → .datagram dst p ∈ b.log := by
    refine same hlog fun o ho dst p he => ?_
    subst he
    cases hplain _ ho
  cases hm with
  | note o noted => exact .inr ⟨hnil,plain rfl (by simpa using noted.plain)⟩
  | unregister => exact .inr ⟨hnil,plain rfl (by simp [Output.plain])⟩
  | closed => exact .inr ⟨rfl,plain rfl (by simp [Output.plain])⟩
  | report => exact .inr ⟨rfl,plain (append_assoc _ _ _) (by simp [Output.plain])⟩
  | attempted =>
    refine .inr ⟨hnil,same rfl fun o' ho dst p he => ?_⟩
    rw [mem_singleton.mp ho] at he
    cases he
  | ack _ due =>
    rcases due with he | hd | ⟨x,hx,ho,-⟩
    · exact absurd he hest
    · simp [hblank.ackDue] at hd
    · exact absurd ⟨x,hx,ho⟩ hord
  | finAck _ asked =>
    obtain ⟨x,hx,hc⟩ := asked
    rcases h.handshake.heard_listening hb (heard x hx) with hc' | hc' <;> simp [hc] at hc'
  | rst _ excused | abort _ excused => exact absurd (excused ht) hexc
  | unreliable _ _ due =>
    rcases due with he | hd
    · exact absurd he.ge hest
    · exact absurd (hl.unreliableDue hd) hest
  | send established | ping established => exact absurd established.ge hest
  | connect fresh => exact absurd fresh h.handshake.accepting.1
  | listened _ _ _ called =>
    subst called
    exact .inl rfl
  | retransmit oldest => simp [hnil] at oldest
  | fin waiting => exact absurd (waiting ▸ (by decide)) hest
  | accept _ _ | acceptFirst =>
    exact .inr ⟨by simp [Outgoing.acked,hnil,popAcked],fun _ _ hp => hp⟩
  | punch arrival control =>
    exact absurd control ((heard _ arrival).not_punch h.wellSent.1)
  | _ => exact .inr ⟨hnil,fun _ _ hp => hp⟩

theorem identity_step (hn : d.state ≠ .listen) (hc : d.state ≠ .closed) :
    d.sessionId=sid ∧ d.remoteEndpoint=ea := by
  by_cases hb : b.state = .listen
  · cases hm with
    | connect fresh => exact absurd fresh h.handshake.accepting.1
    | listened arrival control _ called =>
      subst called
      obtain ⟨hmem,hsrc,-⟩ := (heard _ arrival).reliable h.wellSent.1 (by simp [control])
      exact ⟨h.sessionSent.1 _ _ hmem,hsrc⟩
    | acceptFirst _ _ _ _ _ waiting | established waiting | synced _ _ waiting
    | syncedEarly _ _ waiting | fin waiting => cases hb.symm.trans waiting
    | closing connected => exact absurd (hb ▸ connected) (by decide)
    | abort | closed | report => exact absurd rfl hc
    | _ => exact absurd hb hn
  · have hlive : b.state ≠ .closed := by
      intro hclosed
      cases hm with
      | connect fresh => exact h.handshake.accepting.1 fresh
      | listened _ _ listening => exact hb listening
      | acceptFirst _ _ _ _ _ waiting | established waiting | synced _ _ waiting
      | syncedEarly _ _ waiting | fin waiting => cases hclosed.symm.trans waiting
      | closing _ live => exact live hclosed
      | abort | closed | report => exact hc rfl
      | _ => exact hc hclosed
    rw [hm.sessionId_eq hb,hm.remoteEndpoint_eq h.handshake.accepting.1 hb
      fun x hx => (heard x hx).not_punch h.wellSent.1]
    exact ⟨h.session.2 hb hlive,h.remote hb hlive⟩

theorem idle_step (hd : d.state = .listen) : d.snd.sndUna=isn ∧ d.snd.slen=0 := by
  have hb : b.state = .listen := not_not.mp fun hb => hm.grows.called hb hd
  have hord := h.handshake.not_ordinary_listening hb heard
  have hest : ¬.established ≤ b.state := by rw [hb]; decide
  have hidle := h.idle hb
  cases hm with
  | send established | ping established => exact absurd established.ge hest
  | connect fresh => exact absurd fresh h.handshake.accepting.1
  | listened _ _ _ called =>
    subst called
    cases hd
  | accept arrival ordinary => exact absurd ⟨_,arrival,ordinary⟩ hord
  | acceptFirst | established | synced | syncedEarly | closing | fin | abort | closed | report => cases hd
  | _ => exact hidle

theorem greeted_step (hl : b.Local)
    (hd : d.state = .synRcvd) : d.Greeted isn := by
  have hold := h.greeted
  cases hm with
  | connect fresh => exact absurd fresh h.handshake.accepting.1
  | @listened _ _ flowId _ _ _ listening called =>
    subst called
    obtain ⟨hnil,-,hblank⟩ := h.handshake.listening listening
    obtain ⟨huna,hslen⟩ := h.idle listening
    have hlen : (beBytes 4 flowId.toNat).length = 4 := length_beBytes _ _
    have hq : b.snd.queue (beBytes 4 flowId.toNat) .connectAck = _ :=
      Outgoing.queue_short hl.drained (ne_nil_of_length_pos (by rw [hlen]; decide))
        (by rw [hlen]; decide)
    refine ⟨?_,hblank.dupAcks,⟨beBytes 4 flowId.toNat,b.snd.sndUna+b.snd.slen,1,.connectAck⟩,
      ?_,rfl,?_,hlen⟩
    · rw [hq]
      exact huna
    · show (Outgoing.drained (b.snd.queue _ _)).retransSlist = _
      rw [hq]
      simp [Outgoing.drained,hnil]
    · simp [huna,hslen]
  | send established | ping established => cases hd.symm.trans established
  | retransmit oldest =>
    obtain ⟨huna,hdup,seg,hq,htype,hseq,hlen⟩ := hold hd
    obtain ⟨rfl,rfl⟩ := List.cons.inj (oldest.symm.trans hq)
    exact ⟨huna,hdup,_,rfl,htype,hseq,hlen⟩
  | accept _ _ _ _ _ waiting =>
    have hdup := waiting hd
    rw [(hold hd).dupAcks] at hdup
    exact absurd hdup (by decide)
  | dupAcks n _ _ _ duplicate =>
    obtain ⟨huna,hdup,hq⟩ := hold hd
    refine ⟨huna,?_,hq⟩
    by_contra hn
    -- a duplicate would have to repeat the first sequence number
    obtain ⟨⟨x,hx,ho,-⟩,y,hy,hack⟩ := duplicate hn
    obtain rfl : x=y := Option.mem_unique hx hy
    obtain ⟨hmem,-,-⟩ := (heard x hx).reliable h.wellSent.1 (ordinary_reliable ho)
    have hack' := h.acks (.inr hd) _ _ _ hmem ho
    rw [hack,huna] at hack'
    exact add_four_ne isn hack'.symm
  | acceptFirst | established | synced | syncedEarly | closing | fin | abort | closed | report => cases hd
  | punch arrival control => exact absurd control ((heard _ arrival).not_punch h.wellSent.1)
  | _ =>
    obtain ⟨huna,hdup,hq⟩ := hold hd
    exact ⟨huna,hdup,hq⟩

theorem greeting_step (ht : trusted) (hl : b.Local) :
    ∀ seg∈d.snd.retransSlist, seg.ctrlType = .connectAck →
      seg.seq = isn ∧ seg.buf.length=4 := by
  intro seg hseg htype
  by_cases hb : b.state = .listen
  · rcases h.quiet_step hm heard ht hb hl with hd | ⟨hnil,-⟩
    · obtain ⟨-,-,seg',hq,-,hseq,hlen⟩ := h.greeted_step hm heard hl hd
      rw [hq,mem_singleton] at hseg
      exact hseg ▸ ⟨hseq,hlen⟩
    · simp [hnil] at hseg
  · cases hm.origin hl hseg with
    | old mem piece seq =>
      have hold := h.greeting _ mem ((congrArg Piece.ctrlType piece).symm.trans htype)
      rw [seq,show seg.buf = _ from congrArg Piece.buf piece]
      exact hold
    | message _ type => rcases type with ht | ht <;> cases htype.symm.trans ht
    | connect fresh => exact absurd fresh h.handshake.accepting.1
    | connectAck listening => exact absurd listening hb

theorem acceptor_step (ht : trusted) (hl : b.Local) : Acquainted ea eb sid isn a d where
  handshake := h.handshake.acceptor_step hl heard hm
  wellSent := ⟨h.wellSent.1,hm.wellSent hl h.wellSent.2⟩
  sides := ⟨h.sides.1,(hm.active_eq h.handshake.accepting.1).trans h.sides.2⟩
  session := ⟨h.session.1,fun hn hc => (h.identity_step hm heard hn hc).1⟩
  sessionSent := by
    refine ⟨h.sessionSent.1,fun dst p hp => ?_⟩
    rcases hm.mem_log hp with ho | ho
    · exact h.sessionSent.2 dst p ho
    rw [ho.route.sessionId]
    by_cases hb : b.state = .listen
    · rcases h.quiet_step hm heard ht hb hl with hd | ⟨-,hlog⟩
      · exact (h.identity_step hm heard (by rw [hd]; decide) (by rw [hd]; decide)).1
      · exact ho.route.sessionId.symm.trans (h.sessionSent.2 dst p (hlog dst p hp))
    · rw [hm.sessionId_eq hb]
      exact h.session.2 hb ho.route.live
  dialled := h.dialled
  called dst p hp := by
    rcases hm.mem_log hp with ho | ho
    · exact h.called dst p ho
    by_cases hb : b.state = .listen
    · rcases h.quiet_step hm heard ht hb hl with hd | ⟨-,hlog⟩
      · refine (h.handshake.acceptor_step hl heard hm).called (.inr (.inr ?_))
        rw [hd]
        decide
      · exact h.called dst p (hlog dst p hp)
    · exact h.handshake.called (.inr (.inr ⟨hb,ho.route.live⟩))
  remote hn hc := (h.identity_step hm heard hn hc).2
  idle := h.idle_step hm heard
  greeted := h.greeted_step hm heard hl
  greeting := h.greeting_step hm heard ht hl
  greetingSent dst h' data hp hc := by
    rcases hm.mem_log hp with ho | ho
    · exact h.greetingSent dst h' data ho hc
    cases ho with
    | note plain => cases plain
    | ack _ _ _ control | finAck _ control | rst _ control | fin _ control =>
      cases hc.symm.trans control
    | segment _ _ _ mem =>
      obtain ⟨seg,hseg,hcontrol,hseq,rfl⟩ := mem
      rw [hseq]
      exact h.greeting_step hm heard ht hl seg hseg (hcontrol.symm.trans hc)
  silent hd dst h' data hp hne := by
    rcases hm.mem_log hp with ho | ho
    · exact h.silent (h.waits_of_step hm hd) dst h' data ho hne
    cases ho with
    | note plain => cases plain
    | ack | finAck | rst | fin => exact absurd rfl hne
    | segment _ _ _ mem =>
      obtain ⟨seg,hseg,hcontrol,-⟩ := mem
      rcases hd with hd | hd
      · simp [(h.handshake.listening_step heard hm hd).1] at hseg
      · obtain ⟨-,-,seg',hq,htype,-⟩ := h.greeted_step hm heard hl hd
        rw [hq,mem_singleton] at hseg
        exact hcontrol.trans (hseg ▸ htype)
  acks hd := h.acks (h.waits_of_step hm hd)
  heard hd := h.heard (h.waits_of_step hm hd)

end

/-! ### Messages that leave a flow, and the beginning -/

theorem connector_delivery (h : Acquainted ea eb sid isn a b) {buf : List Byte}
    (hd : a.Delivery buf d) : Acquainted ea eb sid isn d b := by
  have hlog : ∀ dst p, .datagram dst p ∈ d.log ↔ .datagram dst p ∈ a.log :=
    fun _ _ => hd.mem_log
  have hcalled : ∀ dst, d.Called dst ↔ a.Called dst := by simp only [Core.Called,hlog,implies_true]
  have hh := h.handshake.connector_delivery hd
  have hw := hd.wellSent h.wellSent.1
  obtain ⟨-,-,_,_,_,-,-,-,-,rfl⟩ := hd
  exact
    { h with
      handshake := hh
      wellSent := ⟨hw,h.wellSent.2⟩
      sessionSent := ⟨fun dst p hp => h.sessionSent.1 dst p ((hlog dst p).mp hp),h.sessionSent.2⟩
      dialled := fun dst hd => h.dialled dst ((hcalled dst).mp hd)
      called := fun dst p hp => (hcalled eb).mpr (h.called dst p hp)
      acks := fun hb dst h' data hp => h.acks hb dst h' data ((hlog _ _).mp hp) }

theorem acceptor_delivery (h : Acquainted ea eb sid isn a b) {buf : List Byte}
    (hd : b.Delivery buf d) : Acquainted ea eb sid isn a d := by
  have hlog : ∀ dst p, .datagram dst p ∈ d.log → .datagram dst p ∈ b.log :=
    fun _ _ => hd.mem_log.mp
  have hh := h.handshake.acceptor_delivery hd
  have hw := hd.wellSent h.wellSent.2
  have hst := hd.established
  obtain ⟨-,-,_,_,_,-,-,-,-,rfl⟩ := hd
  have hgreeted : b.state ≠ .synRcvd := by rw [hst]; decide
  exact
    { h with
      handshake := hh
      wellSent := ⟨h.wellSent.1,hw⟩
      sessionSent := ⟨h.sessionSent.1,fun dst p hp => h.sessionSent.2 dst p (hlog dst p hp)⟩
      called := fun dst p hp => h.called dst p (hlog dst p hp)
      greeted := fun hd => absurd hd hgreeted
      greetingSent := fun dst h' data hp => h.greetingSent dst h' data (hlog _ _ hp)
      silent := fun hb dst h' data hp => h.silent hb dst h' data (hlog _ _ hp) }

theorem start {s : System} (h : s.Start) :
    Acquainted ea eb (s .connector).ctl.sessionId (s .acceptor).snd.sndUna
      (s .connector).core (s .acceptor).core := by
  have hh := (Handshake.start h : Handshake eb _ _)
  have hw := (h.created .connector).wellSent
  have hw' := (h.created .acceptor).wellSent
  obtain ⟨⟨p,now,hc⟩,q,remoteEdp,now',hb⟩ := h
  rw [hc,hb] at hh
  rw [hc] at hw
  rw [hb] at hw'
  rw [hc,hb]
  exact
    { handshake := hh
      wellSent := ⟨hw,hw'⟩
      sides := ⟨rfl,rfl⟩
      session := ⟨rfl,fun hn => absurd rfl hn⟩
      sessionSent := ⟨fun _ _ hp => (nomatch hp),fun _ _ hp => (nomatch hp)⟩
      dialled := fun dst hd => absurd hd ((hh.fresh rfl).2 dst)
      called := fun _ _ hp => (nomatch hp)
      remote := fun hn => absurd rfl hn
      idle := fun _ => ⟨rfl,rfl⟩
      greeted := fun hd => (nomatch hd)
      greeting := fun _ hseg => (nomatch hseg)
      greetingSent := fun _ _ _ hp => (nomatch hp)
      silent := fun _ _ _ _ hp => (nomatch hp)
      acks := fun _ _ _ _ hp => (nomatch hp)
      heard := fun _ hl => absurd hl.1 (show ¬TcpState.established ≤ .init by decide) }

end Acquainted

end P2Streaming.Urdp
