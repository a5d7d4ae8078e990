import P2Streaming.UrdpSystem
import P2Streaming.UrdpWire

/-!
# Who has heard of whom

Before its handshake has ended a flow says nothing but its greeting, `CTRL_CONNECT` or
`CTRL_CONNECT_ACK`, and resets. So whatever else arrives tells how far the other side
has come. These facts need no assumption on the queues or on resets.
-/
namespace P2Streaming.Urdp
open BigEndianBytes TcpState

namespace Core

/-- The flow has sent something other than its greeting and resets. -/
def Spoke (greeting : Ctrl) (c : Core) : Prop :=
  ∃ dst p, .datagram dst p ∈ c.log ∧ p.header.control≠greeting ∧ p.header.control ≠ .rst

/-- The flow has sent something other than a reset to the endpoint. -/
def Called (dst : Endpoint) (c : Core) : Prop :=
  ∃ p, .datagram dst p ∈ c.log ∧ p.header.control ≠ .rst

def Answered (c : Core) : Prop :=
  ∃ dst p, .datagram dst p ∈ c.log ∧ p.header.control = .connectAck

def Live (c : Core) : Prop := .established ≤ c.state ∧ c.state ≠ .closed

structure Blank (c : Core) : Prop where
  dupAcks : c.dupAcks=0
  rlist : c.rlist=[]
  rlen : c.rlen=0
  ackDue : c.ackDue=false

end Core

/-- What the two flows know of each other; `dst` is the endpoint of the acceptor. -/
structure Handshake (dst : Endpoint) (a b : Core) : Prop where
  connecting : a.state ≠ .listen ∧ a.state ≠ .synRcvd
  accepting : b.state ≠ .init ∧ b.state ≠ .synSent
  fresh : a.state = .init → a.snd.retransSlist=[] ∧ ∀ dst, ¬a.Called dst
  silent : ¬a.Synced → ¬a.Spoke .connect ∧ a.Blank
  greeting : ¬a.Synced → ∀ seg∈a.snd.retransSlist, seg.ctrlType = .connect
  answered : a.Spoke .connect ∨ a.Live → b.Answered
  listening : b.state = .listen → b.snd.retransSlist=[] ∧ ¬b.Answered ∧ b.Blank
  spoken : b.Spoke .connectAck ∨ b.Live ∨ b.ackDue=true → a.Spoke .connect
  answering : ¬a.Spoke .connect → ∀ seg∈b.snd.retransSlist, seg.ctrlType = .connectAck
  called : b.Answered ∨ b.snd.retransSlist≠[] ∨ (b.state ≠ .listen ∧ b.state ≠ .closed) →
    a.Called dst

variable {strict trusted : Prop} {rx : Option Arrival} {c d : Core}

section
variable {greeting : Ctrl} {dst src : Endpoint}

theorem Core.Grows.spoke (h : c.Grows d) (hs : c.Spoke greeting) : d.Spoke greeting := by
  obtain ⟨dst,p,hm,hp⟩ := hs
  exact ⟨dst,p,h.log.subset hm,hp⟩

theorem Core.Grows.hasCalled (h : c.Grows d) (hs : c.Called dst) : d.Called dst := by
  obtain ⟨p,hm,hp⟩ := hs
  exact ⟨p,h.log.subset hm,hp⟩

theorem Core.Grows.answered (h : c.Grows d) (hs : c.Answered) : d.Answered := by
  obtain ⟨dst,p,hm,hp⟩ := hs
  exact ⟨dst,p,h.log.subset hm,hp⟩

theorem Heard.spoke {x : Arrival} (h : Heard c.log dst src x)
    (hg : x.header.control≠greeting) (hr : x.header.control ≠ .rst) : c.Spoke greeting := by
  obtain ⟨p,hm,rfl⟩ := h
  rw [Packet.arrival_control] at hg hr
  exact ⟨_,p,hm,hg,hr⟩

theorem Heard.control {x : Arrival} (h : Heard c.log dst src x) (hs : ¬c.Spoke greeting) :
    x.header.control=greeting ∨ x.header.control = .rst := by
  by_contra hc
  rw [not_or] at hc
  exact hs (h.spoke hc.1 hc.2)

theorem Heard.reliable {x : Arrival} (h : Heard c.log dst src x) (hw : c.WellSent)
    (hx : x.header.control ≠ .unreliableData ∧ x.header.control ≠ .semireliableData) :
    .datagram dst (.reliable x.header x.data) ∈ c.log ∧ x.src=src ∧
      x.header.control.sendable = true := by
  obtain ⟨p,hm,rfl⟩ := h
  cases p with
  | reliable h data =>
    rw [Packet.arrival_reliable]
    exact ⟨hm,rfl,hw.reliable _ _ _ hm⟩
  | unreliable h pktID msgType data =>
    rw [Packet.arrival_control] at hx
    rcases hw.unreliable _ _ _ _ _ hm with hc | hc
    · exact absurd hc hx.1
    · exact absurd hc hx.2

end

theorem Micro.synced_mono (h : Micro strict trusted rx c d) (hc : c.Synced) : d.Synced := by
  cases h with
  | connect fresh =>
    rw [Core.Synced,fresh] at hc
    exact absurd hc (by decide)
  | listened _ _ listening =>
    rw [Core.Synced,listening] at hc
    exact absurd hc (by decide)
  | acceptFirst | established | synced | syncedEarly =>
    exact show synRcvd ≤ .established by decide
  | closing => exact show synRcvd ≤ .closing by decide
  | fin => exact show synRcvd ≤ .watingFinAck by decide
  | abort | closed | report => exact show synRcvd ≤ .closed by decide
  | _ => exact hc

namespace Handshake

variable {dst src self : Endpoint} {a b : Core}

/-! ### Steps of the connector -/

theorem heard_early (h : Handshake dst a b) (hs : ¬a.Synced) {x : Arrival} (hx : Heard b.log self src x) :
    x.header.control = .connectAck ∧ a.state = .synSent ∨ x.header.control = .rst := by
  have hb : ¬b.Spoke .connectAck := fun hb => (h.silent hs).1 (h.spoken (.inl hb))
  refine (hx.control hb).imp_left fun hc => ⟨hc,?_⟩
  -- a connector that has not called has no answer to hear
  have hi : a.state ≠ .init := fun hi => (h.fresh hi).2 _ (h.called (.inl (by
    obtain ⟨p,hm,rfl⟩ := hx
    exact ⟨_,p,hm,by rwa [Packet.arrival_control] at hc⟩)))
  have hconn := h.connecting
  revert hs
  unfold Core.Synced
  cases hst : a.state <;> simp_all <;> decide

theorem not_established (hs : ¬a.Synced) : ¬.established ≤ a.state :=
  fun he => hs (le_trans (by decide) he)

section
variable (h : Handshake dst a b) (heard : ∀ x∈rx, Heard b.log self src x)
  (hm : Micro strict trusted rx a d)
include h

theorem live_of_synced (hs : a.Synced) (live : a.state ≠ .closed) : a.Live := by
  refine ⟨?_,live⟩
  have hc := h.connecting.2
  revert hs
  unfold Core.Synced
  cases hst : a.state <;> simp_all <;> decide

theorem greeting_step (hs : ¬a.Synced) (hl : a.Local)
    (hm : Micro strict trusted rx a d) : ∀ seg∈d.snd.retransSlist, seg.ctrlType = .connect := by
  intro seg hseg
  cases hm.origin hl hseg with
  | old mem piece => exact (congrArg Piece.ctrlType piece).trans (h.greeting hs _ mem)
  | message established => exact absurd established.ge (not_established hs)
  | connect _ type => exact type
  | connectAck listening => exact absurd listening h.connecting.1

theorem connecting_step (hm : Micro strict trusted rx a d) : d.state ≠ .listen ∧ d.state ≠ .synRcvd := by
  refine ⟨hm.grows.called h.connecting.1,?_⟩
  have hsyn := h.connecting.2
  cases hm with
  | connect _ _ asked => exact asked ▸ nofun
  | listened _ _ listening => exact absurd listening h.connecting.1
  | acceptFirst | established | synced | syncedEarly | closing | fin | abort | closed | report =>
    exact nofun
  | _ => exact hsyn

include heard

theorem not_answers (hs : ¬a.Synced) : ¬a.Answers rx := by
  rintro ⟨x,hx,ho,hc⟩
  rcases h.heard_early hs (heard x hx) with ⟨hg,hst⟩ | hr
  · exact hc hst hg
  · rw [hr] at ho
    cases ho

include hm

theorem silent_step (hs : ¬a.Synced) (hl : a.Local) : ¬d.Spoke .connect := by
  rintro ⟨dst',p,hp,hg,hr⟩
  have hest := not_established hs
  rcases hm.mem_log hp with ho | ho
  · exact (h.silent hs).1 ⟨dst',p,ho,hg,hr⟩
  cases ho with
  | note plain => cases plain
  | ack _ _ _ _ due =>
    rcases due with he | hd | ha
    · exact hest he
    · simp [(h.silent hs).2.ackDue] at hd
    · exact h.not_answers heard hs ha
  | finAck _ _ asked =>
    obtain ⟨x,hx,hc⟩ := asked
    rcases h.heard_early hs (heard x hx) with ⟨hg,-⟩ | hr <;> simp_all
  | rst _ control => exact hr control
  | fin _ _ waiting => exact hest (waiting ▸ (by decide))
  | segment _ _ _ mem =>
    obtain ⟨seg,hseg,hc,-⟩ := mem
    exact hg (hc.trans (h.greeting_step hs hl hm seg hseg))
  | unreliable _ _ due =>
    rcases due with he | hd
    · exact hest he.ge
    · exact hest (hl.unreliableDue hd)

theorem blank_step (hs : ¬d.Synced) : d.Blank := by
  have ha : ¬a.Synced := fun ha => hs (hm.synced_mono ha)
  have hb := (h.silent ha).2
  have hest := not_established ha
  obtain ⟨h1,h2,h3,h4⟩ := hb
  cases hm with
  | ack | finAck | rst | retransmit => exact ⟨h1,h2,h3,rfl⟩
  | send established | ping established => exact absurd established.ge hest
  | connect _ _ asked =>
    subst asked
    exact ⟨h1,h2,h3,by simp [Core.sentOut,h4]⟩
  | listened _ _ listening => exact absurd listening h.connecting.1
  | ackDue due =>
    rcases due with he | ha'
    · exact absurd he hest
    · exact absurd ha' (h.not_answers heard ha)
  | dupAcks n _ _ _ duplicate =>
    refine ⟨?_,h2,h3,h4⟩
    by_contra hn
    exact h.not_answers heard ha (duplicate hn).1
  | insert arrival control =>
    rcases h.heard_early ha (heard _ arrival) with ⟨hc,-⟩ | hc <;> simp_all
  | acceptFirst _ _ _ _ _ waiting | established waiting => exact absurd waiting h.connecting.2
  | synced | syncedEarly => exact absurd (show synRcvd ≤ .established by decide) hs
  | closing connected => exact absurd connected hest
  | fin waiting => exact absurd (waiting ▸ (by decide)) hest
  | abort | closed | report => exact absurd (show synRcvd ≤ .closed by decide) hs
  | _ => exact ⟨h1,h2,h3,h4⟩

theorem init_step (hi : d.state = .init) : a.state = .init ∧ d.snd.retransSlist=[] := by
  have hnil := fun ha : a.state = .init => (h.fresh ha).1
  cases hm with
  | connect _ _ asked =>
    subst asked
    cases hi
  | listened _ _ _ called =>
    subst called
    cases hi
  | acceptFirst | established | synced | syncedEarly | closing | fin | abort | closed | report => cases hi
  | send established | ping established =>
    have hne : a.state ≠ .init := by rw [established]; decide
    exact absurd hi hne
  | retransmit oldest => simp [hnil hi] at oldest
  | accept =>
    refine ⟨hi,?_⟩
    simp [Outgoing.acked,hnil hi,popAcked]
  | punch arrival control =>
    have hs : ¬a.Synced := by rw [Core.Synced,show a.state = .init from hi]; decide
    rcases h.heard_early hs (heard _ arrival) with ⟨hc,-⟩ | hc <;> simp_all
  | _ => exact ⟨hi,hnil hi⟩

theorem fresh_step (hi : d.state = .init) (hl : a.Local) :
    d.snd.retransSlist=[] ∧ ∀ dst, ¬d.Called dst := by
  obtain ⟨ha,hnil⟩ := h.init_step heard hm hi
  have hs : ¬a.Synced := by rw [Core.Synced,ha]; decide
  refine ⟨hnil,?_⟩
  rintro dst' ⟨p,hp,hr⟩
  have hg : p.header.control = .connect := by
    by_contra hg
    exact h.silent_step heard hm hs hl ⟨dst',p,hp,hg,hr⟩
  rcases hm.mem_log hp with ho | ho
  · exact (h.fresh ha).2 dst' ⟨p,ho,hr⟩
  cases ho with
  | note plain => cases plain
  | segment _ _ _ mem =>
    obtain ⟨seg,hseg,-⟩ := mem
    simp [hnil] at hseg
  | ack _ _ _ control | finAck _ control | rst _ control | fin _ control =>
    cases hg.symm.trans control
  | unreliable _ control =>
    rcases control with hc | hc <;> cases hg.symm.trans hc

theorem live_step (hd : d.Live) : b.Answered := by
  have answer {x : Arrival} (hx : x∈rx) (hc : x.header.control = .connectAck) : b.Answered := by
    obtain ⟨p,hp,rfl⟩ := heard x hx
    exact ⟨_,p,hp,by rwa [Packet.arrival_control] at hc⟩
  have hlive := fun ha : a.Live => h.answered (.inr ha)
  cases hm with
  | connect _ _ asked =>
    subst asked
    exact absurd hd.1 (show ¬established ≤ .synSent by decide)
  | listened _ _ listening => exact absurd listening h.connecting.1
  | synced arrival control | syncedEarly arrival control => exact answer arrival control
  | acceptFirst _ _ _ _ _ waiting | established waiting => exact absurd waiting h.connecting.2
  | closing connected live => exact hlive ⟨connected,live⟩
  | fin waiting => exact hlive ⟨waiting ▸ (by decide),by rw [waiting]; decide⟩
  | abort | closed | report => exact absurd rfl hd.2
  | _ => exact hlive hd

theorem connector_step (hl : a.Local) : Handshake dst d b where
  connecting := h.connecting_step hm
  accepting := h.accepting
  fresh hi := h.fresh_step heard hm hi hl
  silent hs :=
    ⟨h.silent_step heard hm (fun ha => hs (hm.synced_mono ha)) hl,h.blank_step heard hm hs⟩
  greeting hs := h.greeting_step (fun ha => hs (hm.synced_mono ha)) hl hm
  answered hd := by
    rcases hd with hd | hd
    · by_cases hs : a.Synced
      · obtain ⟨dst',p,hp,hg,hr⟩ := hd
        rcases hm.mem_log hp with ho | ho
        · exact h.answered (.inl ⟨dst',p,ho,hg,hr⟩)
        -- a connector that sends is not closed, so it has been answered before
        · cases ho with
          | note plain => cases plain
          | ack route | finAck route | rst route | fin route | segment route | unreliable route =>
            exact h.answered (.inr (h.live_of_synced hs route.live))
      · exact absurd hd (h.silent_step heard hm hs hl)
    · exact h.live_step heard hm hd
  listening := h.listening
  spoken hb := hm.grows.spoke (h.spoken hb)
  answering hs := h.answering fun ha => hs (hm.grows.spoke ha)
  called hb := hm.grows.hasCalled (h.called hb)

end

/-! ### Steps of the acceptor -/

theorem accepting_step (h : Handshake dst a b) (hm : Micro strict trusted rx b d) :
    d.state ≠ .init ∧ d.state ≠ .synSent := by
  obtain ⟨hi,hs⟩ := h.accepting
  cases hm with
  | connect fresh => exact absurd fresh hi
  | listened _ _ _ called => exact called ▸ ⟨nofun,nofun⟩
  | acceptFirst | established | synced | syncedEarly | closing | fin | abort | closed | report =>
    exact ⟨nofun,nofun⟩
  | _ => exact ⟨hi,hs⟩

theorem heard_listening (h : Handshake dst a b) (hb : b.state = .listen) {x : Arrival}
    (hx : Heard a.log self src x) : x.header.control = .connect ∨ x.header.control = .rst :=
  hx.control fun ha => (h.listening hb).2.1 (h.answered (.inl ha))

theorem not_ordinary_listening (h : Handshake dst a b) (hb : b.state = .listen)
    (heard : ∀ x∈rx, Heard a.log self src x) : ¬OrdinaryArrival rx := by
  rintro ⟨x,hx,ho⟩
  rcases h.heard_listening hb (heard x hx) with hc | hc <;> simp [hc,Ctrl.ordinary] at ho

theorem ordinary_spoke (heard : ∀ x∈rx, Heard a.log self src x) (ho : OrdinaryArrival rx) :
    a.Spoke .connect := by
  obtain ⟨x,hx,ho⟩ := ho
  exact (heard x hx).spoke (fun hc => by simp [hc,Ctrl.ordinary] at ho)
    fun hc => by simp [hc,Ctrl.ordinary] at ho

theorem answers_spoke (heard : ∀ x∈rx, Heard a.log self src x) (ha : b.Answers rx) :
    a.Spoke .connect := by
  obtain ⟨x,hx,ho,-⟩ := ha
  exact ordinary_spoke heard ⟨x,hx,ho⟩

theorem answering_step (h : Handshake dst a b) (ha : ¬a.Spoke .connect) (hl : b.Local)
    (hm : Micro strict trusted rx b d) : ∀ seg∈d.snd.retransSlist, seg.ctrlType = .connectAck := by
  intro seg hseg
  cases hm.origin hl hseg with
  | old mem piece => exact (congrArg Piece.ctrlType piece).trans (h.answering ha _ mem)
  | message established =>
    exact absurd (h.spoken (.inr (.inl ⟨established.ge,by rw [established]; decide⟩))) ha
  | connect fresh => exact absurd fresh h.accepting.1
  | connectAck _ type => exact type

section
variable (h : Handshake dst a b) (heard : ∀ x∈rx, Heard a.log self src x)
  (hm : Micro strict trusted rx b d)
include h heard hm

theorem live_acceptor_step (hd : d.Live) : a.Spoke .connect := by
  have hlive := fun hb : b.Live => h.spoken (.inr (.inl hb))
  cases hm with
  | connect fresh => exact absurd fresh h.accepting.1
  | listened _ _ _ called =>
    subst called
    exact absurd hd.1 (show ¬established ≤ .synRcvd by decide)
  | synced _ _ waiting | syncedEarly _ _ waiting => exact absurd waiting h.accepting.2
  | acceptFirst arrival ordinary => exact ordinary_spoke heard ⟨_,arrival,ordinary⟩
  | established _ late =>
    obtain ⟨x,hx,ho,-⟩ := late
    exact ordinary_spoke heard ⟨x,hx,ho⟩
  | closing connected live => exact hlive ⟨connected,live⟩
  | fin waiting => exact hlive ⟨waiting ▸ (by decide),by rw [waiting]; decide⟩
  | abort | closed | report => exact absurd rfl hd.2
  | _ => exact hlive hd

theorem ackDue_acceptor_step (hd : d.ackDue=true) : a.Spoke .connect := by
  have hdue := fun hb : b.ackDue = true => h.spoken (.inr (.inr hb))
  cases hm with
  | ack | finAck | rst | retransmit | fin | abort => cases hd
  | send | ping =>
    simp only [Core.sentOut,Bool.and_eq_true] at hd
    exact hdue hd.1
  | connect fresh => exact absurd fresh h.accepting.1
  | listened _ _ _ called =>
    subst called
    simp only [Core.sentOut,Bool.and_eq_true] at hd
    exact hdue hd.1
  | ackDue due live =>
    rcases due with he | ha
    · exact h.spoken (.inr (.inl ⟨he,live⟩))
    · exact answers_spoke heard ha
  | _ => exact hdue hd

theorem spoken_step (hl : b.Local)
    (hd : d.Spoke .connectAck) : a.Spoke .connect := by
  by_contra ha
  have hlive : ¬b.Live := fun hb => ha (h.spoken (.inr (.inl hb)))
  obtain ⟨dst',p,hp,hg,hr⟩ := hd
  rcases hm.mem_log hp with ho | ho
  · exact ha (h.spoken (.inl ⟨dst',p,ho,hg,hr⟩))
  cases ho with
  | note plain => cases plain
  | ack route _ _ _ due =>
    rcases due with he | hd | hans
    · exact hlive ⟨he,route.live⟩
    · exact ha (h.spoken (.inr (.inr hd)))
    · exact ha (answers_spoke heard hans)
  | finAck _ _ asked =>
    obtain ⟨x,hx,hc⟩ := asked
    exact ha ((heard x hx).spoke (by simp [hc]) (by simp [hc]))
  | rst _ control => exact hr control
  | fin route _ waiting => exact hlive ⟨waiting ▸ (by decide),route.live⟩
  | segment _ _ _ mem =>
    obtain ⟨seg,hseg,hc,-⟩ := mem
    exact hg (hc.trans (h.answering_step ha hl hm seg hseg))
  | unreliable route _ due =>
    rcases due with he | hd
    · exact hlive ⟨he.ge,route.live⟩
    · exact hlive ⟨hl.unreliableDue hd,route.live⟩

theorem blank_listening_step (hd : d.state = .listen) : d.snd.retransSlist=[] ∧ d.Blank := by
  have hb : b.state = .listen := not_not.mp fun hb => hm.grows.called hb hd
  have hord := h.not_ordinary_listening hb heard
  have hest : ¬.established ≤ b.state := by rw [hb]; decide
  obtain ⟨hnil,-,h1,h2,h3,h4⟩ := h.listening hb
  cases hm with
  | ack | finAck | rst => exact ⟨hnil,h1,h2,h3,rfl⟩
  | retransmit oldest => simp [hnil] at oldest
  | send established | ping established => exact absurd established.ge hest
  | connect fresh => exact absurd fresh h.accepting.1
  | listened _ _ _ called =>
    subst called
    cases hd
  | ackDue due =>
    rcases due with he | ⟨x,hx,ho,-⟩
    · exact absurd he hest
    · exact absurd ⟨x,hx,ho⟩ hord
  | dupAcks _ _ ordinary => exact absurd ordinary hord
  | accept arrival ordinary | skip arrival ordinary => exact absurd ⟨_,arrival,ordinary⟩ hord
  | insert arrival control => exact absurd ⟨_,arrival,by rw [control]; rfl⟩ hord
  | punch arrival control =>
    rcases h.heard_listening hb (heard _ arrival) with hc | hc <;> simp_all
  | acceptFirst | established | synced | syncedEarly | closing | fin | abort | closed | report => cases hd
  | _ => exact ⟨hnil,h1,h2,h3,h4⟩

theorem listening_step (hd : d.state = .listen) : d.snd.retransSlist=[] ∧ ¬d.Answered ∧ d.Blank := by
  have hb : b.state = .listen := not_not.mp fun hb => hm.grows.called hb hd
  obtain ⟨hnil,hblank⟩ := h.blank_listening_step heard hm hd
  refine ⟨hnil,?_,hblank⟩
  rintro ⟨dst',p,hp,hg⟩
  rcases hm.mem_log hp with ho | ho
  · exact (h.listening hb).2.1 ⟨dst',p,ho,hg⟩
  · obtain ⟨seg,hseg⟩ := ho.segment_of_connectAck hg
    simp [hnil] at hseg

end

theorem called_step (h : Handshake dst a b) (hl : b.Local)
    (heard : ∀ x∈rx, Heard a.log dst src x) (hm : Micro strict trusted rx b d)
    (hd : d.Answered ∨ d.snd.retransSlist≠[] ∨ (d.state ≠ .listen ∧ d.state ≠ .closed)) :
      a.Called dst := by
  have request {x : Arrival} (hx : x∈rx) (hc : x.header.control = .connect) : a.Called dst := by
    obtain ⟨p,hp,rfl⟩ := heard x hx
    rw [Packet.arrival_control] at hc
    exact ⟨p,hp,by simp [hc]⟩
  have hold := fun hb => h.called (.inr (.inr hb))
  have hqueue (hne : d.snd.retransSlist≠[]) : a.Called dst := by
    obtain ⟨seg,hseg⟩ := List.exists_mem_of_ne_nil _ hne
    cases hm.origin hl hseg with
    | old mem => exact h.called (.inr (.inl (List.ne_nil_of_mem mem)))
    | message established => exact hold (by rw [established]; decide)
    | connect fresh => exact absurd fresh h.accepting.1
    | connectAck _ _ asked =>
      obtain ⟨x,hx,hc⟩ := asked
      exact request hx hc
  rcases hd with ⟨dst',p,hp,hg⟩ | hne | hd
  · rcases hm.mem_log hp with ho | ho
    · exact h.called (.inl ⟨dst',p,ho,hg⟩)
    · obtain ⟨seg,hseg⟩ := ho.segment_of_connectAck hg
      exact hqueue (List.ne_nil_of_mem hseg)
  · exact hqueue hne
  · cases hm with
    | connect fresh => exact absurd fresh h.accepting.1
    | listened arrival control => exact request arrival control
    | synced _ _ waiting | syncedEarly _ _ waiting => exact absurd waiting h.accepting.2
    | acceptFirst _ _ _ _ _ waiting | established waiting | fin waiting =>
      exact hold (by rw [waiting]; decide)
    | closing connected live => exact hold ⟨fun hb => absurd (hb ▸ connected) (by decide),live⟩
    | abort | closed | report => exact absurd rfl hd.2
    | _ => exact hold hd

theorem acceptor_step (h : Handshake dst a b) (hl : b.Local)
    (heard : ∀ x∈rx, Heard a.log dst src x) (hm : Micro strict trusted rx b d) : Handshake dst a d where
  connecting := h.connecting
  accepting := h.accepting_step hm
  fresh := h.fresh
  silent := h.silent
  greeting := h.greeting
  answered ha := hm.grows.answered (h.answered ha)
  listening hd := h.listening_step heard hm hd
  spoken hd := by
    rcases hd with hd | hd | hd
    · exact h.spoken_step heard hm hl hd
    · exact h.live_acceptor_step heard hm hd
    · exact h.ackDue_acceptor_step heard hm hd
  answering ha := h.answering_step ha hl hm
  called hd := h.called_step hl heard hm hd

/-! ### Messages that leave a flow, and the beginning -/

theorem connector_delivery (h : Handshake dst a b) {buf : List Byte} (hd : a.Delivery buf d) :
    Handshake dst d b := by
  have hlog : ∀ dst' p, .datagram dst' p ∈ d.log ↔ .datagram dst' p ∈ a.log :=
    fun _ _ => hd.mem_log
  have hspoke : d.Spoke .connect ↔ a.Spoke .connect := by simp only [Core.Spoke,hlog]
  have hcalled : ∀ dst', d.Called dst' ↔ a.Called dst' := by simp only [Core.Called,hlog,implies_true]
  have hst : a.state = .established := hd.established
  have hsynced : a.Synced := by rw [Core.Synced,hst]; decide
  obtain ⟨-,-,_,_,_,-,-,-,-,rfl⟩ := hd
  refine ⟨h.connecting,h.accepting,fun hi => ?_,(absurd hsynced ·),(absurd hsynced ·),?_,
    h.listening,fun hb => hspoke.mpr (h.spoken hb),fun hs => h.answering (hspoke.not.mp hs),
    fun hb => (hcalled _).mpr (h.called hb)⟩
  · cases hi.symm.trans hst
  · rw [hspoke]
    exact h.answered

theorem acceptor_delivery (h : Handshake dst a b) {buf : List Byte} (hd : b.Delivery buf d) :
    Handshake dst a d := by
  have hlog : ∀ dst' p, .datagram dst' p ∈ d.log ↔ .datagram dst' p ∈ b.log :=
    fun _ _ => hd.mem_log
  have hspoke : d.Spoke .connectAck ↔ b.Spoke .connectAck := by simp only [Core.Spoke,hlog]
  have hanswered : d.Answered ↔ b.Answered := by simp only [Core.Answered,hlog]
  have hst : b.state = .established := hd.established
  obtain ⟨-,-,_,_,_,-,-,-,-,rfl⟩ := hd
  refine ⟨h.connecting,h.accepting,h.fresh,h.silent,h.greeting,
    fun ha => hanswered.mpr (h.answered ha),fun hl => ?_,?_,h.answering,?_⟩
  · cases hl.symm.trans hst
  · rw [hspoke]
    exact h.spoken
  · rw [hanswered]
    exact h.called

theorem start {s : System} (h : s.Start) : Handshake dst (s .connector).core (s .acceptor).core := by
  obtain ⟨⟨p,now,hc⟩,q,remoteEdp,now',hb⟩ := h
  rw [hc,hb]
  refine ⟨⟨nofun,nofun⟩,⟨nofun,nofun⟩,fun _ => ⟨rfl,?_⟩,fun _ => ⟨?_,rfl,rfl,rfl,rfl⟩,?_,?_,
    fun _ => ⟨rfl,?_,rfl,rfl,rfl,rfl⟩,?_,?_,?_⟩
  · rintro _ ⟨_,hm,-⟩
    cases hm
  · rintro ⟨_,_,hm,-⟩
    cases hm
  · exact fun _ _ hm => nomatch hm
  · rintro (⟨_,_,hm,-⟩ | hl)
    · cases hm
    · exact absurd hl.1 (show ¬established ≤ .init by decide)
  · rintro ⟨_,_,hm,-⟩
    cases hm
  · rintro (⟨_,_,hm,-⟩ | hl | hd)
    · cases hm
    · exact absurd hl.1 (show ¬established ≤ .listen by decide)
    · cases hd
  · exact fun _ _ hm => nomatch hm
  · rintro (⟨_,_,hm,-⟩ | hne | hs)
    · cases hm
    · exact absurd rfl hne
    · exact absurd rfl hs.1

end Handshake

end P2Streaming.Urdp
