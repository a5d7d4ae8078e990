import P2Streaming.UrdpSenderHistory

/-!
# What a flow puts on the wire

Each kind of datagram has few sources: segments of the retransmission queue, which
`__send`, `ping`, `async_connect` and an accepted connect request fill, and the bare
answers of the protocol. Nobody sends a punch or a network error.
-/
namespace P2Streaming.Urdp
open BigEndianBytes

variable {strict trusted : Prop} {rx : Option Arrival} {c d : Core}

/-- Where a segment of the retransmission queue after a step comes from. -/
inductive Origin (rx : Option Arrival) (c : Core) (seg : SSegment) : Prop
  | old {seg' : SSegment} (mem : seg'∈c.snd.retransSlist) (piece : seg.piece=seg'.piece)
      (seq : seg.seq=seg'.seq)
  | message (established : c.state = .established) (type : seg.ctrlType = .data ∨ seg.ctrlType = .ack)
  | connect (fresh : c.state = .init) (type : seg.ctrlType = .connect)
  | connectAck (listening : c.state = .listen) (type : seg.ctrlType = .connectAck)
      (asked : ∃ x∈rx, x.header.control = .connect)

theorem Outgoing.Queued.ctrlType_of_mem {o o' : Outgoing} {ctrlType : Ctrl} {data : List Byte}
    (h : o.Queued o' ctrlType data) {seg : SSegment} (hm : seg∈o'.drained.retransSlist) :
    seg∈o.retransSlist ∨ seg.ctrlType=ctrlType := by
  rcases List.mem_append.mp hm with hm | hm
  · exact .inl (h.retransSlist ▸ hm)
  · obtain ⟨seg',hm',rfl⟩ := List.mem_map.mp hm
    exact .inr (h.each seg' hm').1

theorem Micro.origin (h : Micro strict trusted rx c d) (hl : c.Local) {seg : SSegment}
    (hm : seg∈d.snd.retransSlist) : Origin rx c seg := by
  cases h with
  | send established _ queued =>
    subst queued
    rcases (((Outgoing.Queued.refl hl.drained).queue _).queue _).ctrlType_of_mem hm with hm | hm
    · exact .old hm rfl rfl
    · exact .message established (.inl hm)
  | ping established =>
    rcases ((Outgoing.Queued.refl hl.drained).queue _).ctrlType_of_mem hm with hm | hm
    · exact .old hm rfl rfl
    · exact .message established (.inr hm)
  | connect fresh _ asked =>
    subst asked
    rcases ((Outgoing.Queued.refl hl.drained).queue _).ctrlType_of_mem hm with hm | hm
    · exact .old hm rfl rfl
    · exact .connect fresh hm
  | listened arrival control listening called =>
    subst called
    rcases ((Outgoing.Queued.refl hl.drained).queue _).ctrlType_of_mem hm with hm | hm
    · exact .old hm rfl rfl
    · exact .connectAck listening hm ⟨_,arrival,control⟩
  | @retransmit _ front rest oldest =>
    have hfront : front∈c.snd.retransSlist := by simp [oldest]
    rcases List.mem_cons.mp hm with rfl | hm
    · exact .old hfront rfl rfl
    · exact .old (oldest ▸ List.mem_cons_of_mem _ hm) rfl rfl
  | accept | acceptFirst => exact .old (mem_of_mem_popAcked hm) rfl rfl
  | abort | closed | report => cases hm
  | punch _ _ same =>
    rcases same with rfl | ⟨front,hs,rfl⟩
    · exact .old hm rfl rfl
    · have hfront : front∈c.snd.retransSlist := by simp [hs]
      rw [List.mem_singleton.mp hm]
      exact .old hfront rfl rfl
  | _ => exact .old hm rfl rfl

theorem Emits.segment_of_connectAck {dst : Endpoint} {p : Packet}
    (h : Emits trusted rx c d (.datagram dst p)) (hp : p.header.control = .connectAck) :
    ∃ seg, seg∈d.snd.retransSlist := by
  cases h with
  | note plain => cases plain
  | segment _ _ _ mem =>
    obtain ⟨seg,hseg,-⟩ := mem
    exact ⟨seg,hseg⟩
  | ack _ _ _ control | finAck _ control | rst _ control | fin _ control =>
    cases hp.symm.trans control
  | unreliable _ control =>
    rcases control with hc | hc <;> cases hp.symm.trans hc

theorem Core.Delivery.mem_log {buf : List Byte} (h : c.Delivery buf d) {dst : Endpoint}
    {p : Packet} : .datagram dst p ∈ d.log ↔ .datagram dst p ∈ c.log := by
  obtain ⟨-,-,_,_,_,-,-,-,-,rfl⟩ := h
  simp

def Ctrl.segment : Ctrl → Bool
  | .connect | .connectAck | .data | .ack => true
  | _ => false

def Ctrl.sendable (control : Ctrl) : Bool :=
  control.segment || control == .fin || control == .finAck || control == .rst

structure Core.WellSent (c : Core) : Prop where
  segments : ∀ seg∈c.snd.retransSlist, seg.ctrlType.segment=true
  reliable : ∀ dst h data, .datagram dst (.reliable h data) ∈ c.log → h.control.sendable=true
  unreliable : ∀ dst h pktID msgType data, .datagram dst (.unreliable h pktID msgType data) ∈ c.log →
    h.control = .unreliableData ∨ h.control = .semireliableData

theorem Micro.wellSent (h : Micro strict trusted rx c d) (hl : c.Local) (hc : c.WellSent) :
    d.WellSent := by
  have hsegs : ∀ seg∈d.snd.retransSlist, seg.ctrlType.segment=true := by
    intro seg hseg
    cases h.origin hl hseg with
    | old mem piece =>
      rw [show seg.ctrlType = _ from congrArg Piece.ctrlType piece]
      exact hc.segments _ mem
    | message _ type => rcases type with ht | ht <;> rw [ht] <;> rfl
    | connect _ type | connectAck _ type => rw [type]; rfl
  refine ⟨hsegs,fun dst h' data hm => ?_,fun dst h' pktID msgType data hm => ?_⟩
  · rcases h.mem_log hm with ho | ho
    · exact hc.reliable dst h' data ho
    cases ho with
    | note plain => cases plain
    | ack _ _ _ control | finAck _ control | rst _ control | fin _ control => rw [control]; rfl
    | segment _ _ _ mem =>
      obtain ⟨seg,hseg,hcontrol,-⟩ := mem
      simp [Ctrl.sendable,hcontrol,hsegs seg hseg]
  · rcases h.mem_log hm with ho | ho
    · exact hc.unreliable dst h' pktID msgType data ho
    cases ho with
    | note plain => cases plain
    | unreliable _ control => exact control

theorem Core.Delivery.wellSent {buf : List Byte} (h : c.Delivery buf d) (hc : c.WellSent) :
    d.WellSent := by
  have hlog : ∀ dst p, .datagram dst p ∈ d.log → .datagram dst p ∈ c.log := fun _ _ => h.mem_log.mp
  obtain ⟨-,-,_,_,_,-,-,-,-,rfl⟩ := h
  exact ⟨hc.segments,fun _ _ _ hm => hc.reliable _ _ _ (hlog _ _ hm),
    fun _ _ _ _ _ hm => hc.unreliable _ _ _ _ _ (hlog _ _ hm)⟩

theorem Flow.Created.wellSent {f : Flow} (h : f.Created) : f.core.WellSent := by
  rcases h with ⟨p,now,rfl⟩ | ⟨p,remoteEdp,now,rfl⟩ <;>
    exact ⟨fun _ h => (nomatch h),fun _ _ _ h => (nomatch h),fun _ _ _ _ _ h => (nomatch h)⟩

end P2Streaming.Urdp
