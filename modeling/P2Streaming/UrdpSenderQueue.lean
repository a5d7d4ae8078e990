import P2Streaming.UrdpSenderHistory
import P2Streaming.UrdpForeignDatagrams

/-!
# The queues of a sender under an arbitrary peer

An acknowledgement that ends inside a segment drops the whole segment, so the
invariant of the queues needs a peer that acknowledges whole segments. Two more
things break it: a retransmission count that has come back to zero, and a plain
comparison with `m_recover` after the sequence numbers have wrapped.
-/
namespace P2Streaming.Urdp
open BigEndianBytes SerialNumbers ContiguousSegments TransitionRuns

namespace Flow

/-- The queues are what the source takes them for; `m_slen` and the sequence numbers count
modulo the size of a word. -/
structure QueuesHold (isn : BitVec 32) (f : Flow) : Prop where
  contiguous : Contiguous SSegment.seq SSegment.size f.snd.sndUna
    (f.snd.retransSlist++f.snd.slist)
  slen : f.snd.slen.toNat = total SSegment.size (f.snd.retransSlist++f.snd.slist) % 2^32
  inFlight : (f.snd.sndNxt - f.snd.sndUna).toNat = total SSegment.size f.snd.retransSlist % 2^32
  /-- Every byte sent is acknowledged or still queued, in the order it was sent. -/
  kept : ∃ acked : List Piece, f.snd.sndUna = place isn (total Piece.size acked) ∧
    streamOf (acked ++ (f.snd.retransSlist++f.snd.slist).map SSegment.piece) =
      framesOf (sentMessages f.log)

structure QueueSafe (f : Flow) (ev : Event) : Prop where
  /-- An acknowledgement of new data ends where a segment ends. -/
  boundary : ∀ a∈ev.arrival, a.header.control.ordinary=true →
    modLess f.snd.sndUna a.header.ackno = true →
    modLessEqual a.header.ackno f.snd.sndNxt = true → f.snd.Boundary a.header.ackno
  /-- Sequence numbers have not wrapped since recovery began, when everything is acknowledged. -/
  recovered : ∀ a∈ev.arrival, a.header.control.ordinary=true →
    a.header.ackno=f.snd.sndNxt → 3≤f.cc.dupAcks.toNat → f.cc.recover≤f.snd.sndNxt
  /-- No segment has been transmitted 256 times. -/
  counted : ev = .clock ∨ ev.arrival.isSome=true → ∀ seg∈f.snd.retransSlist, seg.xmit≠0

variable {f : Flow} {isn : BitVec 32} {pieces : List Piece}

theorem admits_of_sender {ev : Event} (hs : Sender isn pieces f.core) (env : Env)
    (boundary : f.ctl.state ≠ .closed → ∀ a∈ev.arrival, a.header.control.ordinary=true →
      modLess f.snd.sndUna a.header.ackno = true →
      modLessEqual a.header.ackno f.snd.sndNxt = true → f.snd.Boundary a.header.ackno)
    (recovered : ∀ a∈ev.arrival, a.header.control.ordinary=true →
      a.header.ackno = f.snd.sndNxt → 3≤f.cc.dupAcks.toNat → f.cc.recover≤f.snd.sndNxt)
    (counted : ev = .clock ∨ ev.arrival.isSome=true → ∀ seg∈f.snd.retransSlist, seg.xmit≠0) :
    f.Admits True False env ev := by
  refine ⟨fun _ live a ha ho => ?_,fun _ hc => counted (.inl hc),nofun,nofun⟩
  obtain ⟨acked,hu⟩ := hs.queue live
  have hsegs : ∀ seg∈f.snd.retransSlist, seg.buf≠[] := fun seg hseg =>
    (hs.sizes seg.piece (hu.split ▸ List.mem_append_right _ (List.mem_map_of_mem hseg))).1
  have hnxt : f.snd.sndNxt = place f.snd.sndUna (total SSegment.size f.snd.retransSlist) := by
    have hn := hu.sndNxt
    rwa [hu.total_pieces,place_add,← hu.sndUna] at hn
  refine ⟨boundary live a ha ho,fun above upTo hdup hrec hnil => ?_,fun _ hne hnil => hne ?_,
    counted (.inr (by rw [ha]; rfl))⟩
  · -- nothing left in the queue means that everything in flight was acknowledged
    obtain ⟨k,hk,hack⟩ := boundary live a ha ho above upTo
    have hpop := popAcked_boundary hu.contiguous hsegs hk hack ((modLess_iff _ _).mp above).2
    have hall : f.snd.retransSlist.take k = f.snd.retransSlist :=
      List.take_of_length_le (List.drop_eq_nil_iff.mp (hpop.symm.trans hnil))
    have hackno : a.header.ackno=f.snd.sndNxt := by
      rw [hnxt,place,← hall,show total SSegment.size (f.snd.retransSlist.take k) = _ from
        hack.symm,BitVec.ofNat_toNat,BitVec.setWidth_eq]
      ring
    exact absurd hrec (BitVec.not_lt.mpr (hackno ▸ recovered a ha ho hackno hdup))
  · rw [core_snd] at hnil ⊢
    rw [hnxt,hnil,total_nil,place_zero]

theorem QueueSafe.admits {ev : Event}
    (h : f.QueueSafe ev) (hs : Sender isn pieces f.core) (env : Env) : f.Admits True False env ev :=
  admits_of_sender hs env (fun _ => h.boundary) h.recovered h.counted

theorem Created.sender (h : f.Created) : Sender f.snd.sndUna [] f.core := by
  rcases h with ⟨p,now,rfl⟩ | ⟨p,remoteEdp,now,rfl⟩ <;>
    exact ⟨⟨nofun,rfl,fun _ _ _ h => (nomatch h),nofun,nofun⟩,fun _ => ⟨[],rfl,trivial,
      (place_zero _).symm,(place_zero _).symm,rfl⟩,nofun⟩

theorem Created.unsent (h : f.Created) : f.core.Unsent := by
  rcases h with ⟨p,now,rfl⟩ | ⟨p,remoteEdp,now,rfl⟩ <;> exact fun _ _ _ h => nomatch h

theorem QueueSafe.step {ev : Event} (h : f.QueueSafe ev) (env : Env)
    (hf : f.core.Local ∧ f.core.Unsent ∧ ∃ pieces, Sender isn pieces f.core) :
    (f.step env ev).core.Local ∧ (f.step env ev).core.Unsent ∧
      ∃ pieces, Sender isn pieces (f.step env ev).core := by
  obtain ⟨hl,hun,pieces,hs⟩ := hf
  refine (step_moves env (h.admits hs env)).keeps
    (fun c => c.Unsent ∧ ∃ pieces, Sender isn pieces c)
    (fun c d hl hm hc => ?_) (fun c d buf _ hd hc => ?_) hl ⟨hun,pieces,hs⟩
  · obtain ⟨hun,pieces,hc⟩ := hc
    obtain ⟨more,hd,-⟩ := hm.sender hl hun hc
    exact ⟨hm.unsent hun,_,hd⟩
  · obtain ⟨-,pieces,hc⟩ := hc
    exact ⟨hd.unsent,pieces,hd.sender hc⟩

theorem queuesHold_of_sender
    (hl : f.core.Local) (hs : Sender isn pieces f.core) (live : f.ctl.state ≠ .closed) :
    f.QueuesHold isn := by
  obtain ⟨acked,hu⟩ := hs.queue live
  have hnil : f.snd.slist=[] := hl.drained
  refine ⟨?_,?_,?_,acked,hu.sndUna,?_⟩
  · rw [hnil,List.append_nil]
    exact hu.contiguous
  · rw [hnil,List.append_nil,← BitVec.toNat_ofNat]
    exact congrArg BitVec.toNat hu.slen
  · have hn := hu.sndNxt
    rw [hu.total_pieces,place_add,← hu.sndUna,core_snd] at hn
    rw [← BitVec.toNat_ofNat,hn]
    congr 1
    ring
  · have hstream := hs.stream
    rw [hu.split] at hstream
    rw [hnil,List.append_nil]
    exact hstream

/-- In every state that a run of safe events reaches, nothing was ever retransmitted from an
empty queue, and the queues of a flow that is not closed hold. -/
theorem queues_hold_of_safe_run {f : Flow} (created : f.Created) (evs : List (Env × Event))
    (safe : AlongRun (fun f e => f.step e.1 e.2) (fun (f : Flow) e => f.QueueSafe e.2) f evs) :
    (f.run evs).fault ≠ some .retransSlist ∧
      ((f.run evs).ctl.state ≠ .closed → (f.run evs).QueuesHold f.snd.sndUna) := by
  obtain ⟨hl,-,pieces,hs⟩ : (f.run evs).core.Local ∧ (f.run evs).core.Unsent ∧
      ∃ pieces, Sender f.snd.sndUna pieces (f.run evs).core := invariant_of_run
    (fun g : Flow => g.core.Local ∧ g.core.Unsent ∧ ∃ pieces, Sender f.snd.sndUna pieces g.core)
    (fun g e he hg => he.step e.1 hg) safe
    ⟨created.local,created.unsent,[],created.sender⟩
  exact ⟨hs.fault,queuesHold_of_sender hl hs⟩

/-- An acknowledgement for the session of `connectedFlow`. -/
def ackPacket (ackno : BitVec 32) : Packet :=
  .reliable
    { control := .ack, peerId := 7, lostrateRecving := 0, idForLostDetect := 0,
      sessionId := 5, window := 1000, timeSending := 1, timeEcho := 1, seqno := 44, ackno := ackno }
    []

def freshFlow : Flow := createForActiveConnect ⟨10,0,5,7,0,0,0⟩ 0

/-- The events of a flow that connects, sends five bytes and gets an acknowledgement. -/
def acknowledgedAt (ackno : BitVec 32) : List (Env × Event) :=
  [(stillEnv, .connect ⟨2,2⟩ [1] 0),(stillEnv, .received connectAckPacket.encode ⟨2,2⟩),
    (stillEnv, .op (.send [7] 3 .reliable)),(stillEnv, .received (ackPacket ackno).encode ⟨2,2⟩)]

/-- Acknowledging the first of five bytes throws all five away. -/
theorem partial_ack_discards_bytes :
    let f := freshFlow.run (acknowledgedAt 12)
    f.ctl.state = .established ∧ ¬f.QueuesHold 10 := by
  refine ⟨by decide +kernel,fun h => ?_⟩
  have hslen := h.slen
  revert hslen
  decide +kernel

/-- Acknowledging all five keeps the queues in order. -/
theorem full_ack_keeps_queues :
    let f := freshFlow.run (acknowledgedAt 16)
    f.ctl.state = .established ∧ f.QueuesHold 10 := by
  have created : freshFlow.Created := .inl ⟨_,_,rfl⟩
  have hstate : (freshFlow.run (acknowledgedAt 16)).ctl.state = .established := by decide +kernel
  refine ⟨hstate,(queues_hold_of_safe_run created (acknowledgedAt 16) ?_).2
    (by rw [hstate]; decide)⟩
  refine ⟨⟨nofun,nofun,nofun⟩,⟨?_,?_,?_⟩,⟨nofun,nofun,nofun⟩,⟨?_,?_,?_⟩,trivial⟩
  · rintro a ⟨⟩ - - -
    exact ⟨1,by decide +kernel,by decide +kernel⟩
  · rintro a ⟨⟩ - - h
    exact absurd h (by decide +kernel)
  · intro _
    decide +kernel
  · rintro a ⟨⟩ - - -
    exact ⟨1,by decide +kernel,by decide +kernel⟩
  · rintro a ⟨⟩ - - h
    exact absurd h (by decide +kernel)
  · intro _
    decide +kernel

end Flow
end P2Streaming.Urdp
