import P2Streaming.UrdpWire

/-!
# What a flow has written, whatever its peer acknowledges

An acknowledgement may drop segments that have not arrived, but it neither changes the
segments that stay nor the place where the next one goes. So every datagram carries a
piece of the history at its place, under any peer.
-/
namespace P2Streaming.Urdp
open BigEndianBytes SerialNumbers ContiguousSegments List

/-- The pieces are what a flow has transmitted, and the next one goes behind them. -/
structure Transcript (isn : BitVec 32) (pieces : List Piece) (c : Core) : Prop where
  told : Told isn pieces c.log
  greeted : ∀ dst h data, .datagram dst (.reliable h data) ∈ c.log →
    h.control = .connect ∨ h.control = .connectAck → data≠[]
  each : ∀ seg∈c.snd.retransSlist, ∃ i, pieces[i]? = some seg.piece ∧ seg.seq = startOf isn pieces i
  behind : c.state ≠ .closed → c.snd.sndUna+c.snd.slen = place isn (total Piece.size pieces)

variable {isn : BitVec 32} {pieces more : List Piece} {strict trusted : Prop} {rx : Option Arrival}
  {c d : Core}

theorem Transcript.greeted_append (h : Transcript isn pieces c) {new : List Output}
    (hnew : ∀ dst hd data, .datagram dst (.reliable hd data) ∈ new →
      hd.control = .connect ∨ hd.control = .connectAck → data≠[]) :
    ∀ dst hd data, .datagram dst (.reliable hd data) ∈ c.log ++ new →
      hd.control = .connect ∨ hd.control = .connectAck → data≠[] :=
  fun dst hd data hm hg => (mem_append.mp hm).elim (fun hm => h.greeted dst hd data hm hg)
    fun hm => hnew dst hd data hm hg

theorem not_greeting_of_bare {new : List Output} (hbare : ∀ o∈new, o.Bare) (dst : Endpoint)
    (hd : ReliableHeader) (data : List Byte) (hm : .datagram dst (.reliable hd data) ∈ new)
    (hg : hd.control = .connect ∨ hd.control = .connectAck) : data≠[] :=
  absurd hg (not_or.mpr (hbare _ hm).2)

theorem Core.Wrote.transcript (w : c.Wrote strict d more) (hun : c.Unsent) (h : Transcript isn pieces c) :
    Transcript isn (pieces++more) d := by
  have htold := w.told hun h.told (fun _ => h.each) h.behind
  cases w with
  | rest log bare snd live =>
    rw [append_nil] at *
    exact ⟨htold,log ▸ h.greeted_append (not_greeting_of_bare bare),snd ▸ h.each,
      fun hd => snd ▸ h.behind (live hd)⟩
  | shut log bare closed nothing =>
    exact ⟨htold,log ▸ h.greeted_append (not_greeting_of_bare bare),nothing ▸ by simp,absurd closed⟩
  | acked log snd _ _ live =>
    rw [append_nil] at *
    refine ⟨htold,log ▸ h.greeted,fun seg hseg => h.each seg ?_,fun hd => ?_⟩
    · rw [snd] at hseg
      exact mem_of_mem_popAcked hseg
    · rw [← h.behind (live hd),snd,Outgoing.acked]
      ring
  | resent log old same snd _ state =>
    rw [append_nil] at *
    refine ⟨htold,log ▸ h.greeted_append fun dst hd data hm _ => ?_,fun seg hseg => ?_,
      fun hd => snd ▸ h.behind (state ▸ hd)⟩
    · obtain ⟨-,seg,hseg,_,_,he,-⟩ := old _ hm
      obtain ⟨i,hi,-⟩ := h.each seg hseg
      cases he
      exact (h.told.sizes _ (mem_of_getElem? hi)).1
    · rw [snd] at hseg
      have hmem : seg.fixed ∈ c.snd.retransSlist.map SSegment.fixed :=
        same ▸ mem_map_of_mem hseg
      obtain ⟨seg',hseg',heq⟩ := mem_map.mp hmem
      obtain ⟨hpiece,hseq⟩ := Prod.mk.inj heq
      exact hpiece ▸ hseq ▸ h.each seg' hseg'
  | @flushed e snd ctrlType _ _ early hq hh old _ _ out =>
    subst out
    have hbehind := h.behind (Core.live_of_early early)
    have hplace : Contiguous SSegment.seq SSegment.size (place isn (total Piece.size pieces)) snd.slist :=
      hbehind ▸ hq.contiguous
    refine ⟨htold,fun dst hd data hm hg => ?_,fun seg hseg => ?_,fun _ => ?_⟩
    · rcases mem_append.mp hm with hm | hm
      · exact h.greeted dst hd data ((old _ _).mp hm) hg
      · obtain ⟨seg,hseg,_,_,he⟩ := hh.mem_zipWith hm
        cases he
        exact (hq.each seg hseg).2.1
    · rcases mem_append.mp hseg with hseg | hseg
      · obtain ⟨i,hi,hseq⟩ := h.each seg (hq.retransSlist ▸ hseg)
        have hlt : i<pieces.length := (List.getElem?_eq_some_iff.mp hi).1
        exact ⟨i,by rw [List.getElem?_append_left hlt,hi],hseq.trans (startOf_append isn hlt.le _).symm⟩
      · obtain ⟨seg',hseg',rfl⟩ := mem_map.mp hseg
        obtain ⟨l,l',hl⟩ := append_of_mem hseg'
        rw [hl] at hplace ⊢
        exact ⟨_,getElem?_behind pieces l l' seg',(startOf_behind hplace).symm⟩
    · show snd.sndUna + snd.slen = _
      rw [hq.sndUna,hq.slen,← add_assoc,hbehind,total_append,total_piece,hq.total_slist,place_add]

theorem Micro.transcript (h : Micro strict trusted rx c d) (hl : c.Local) (hun : c.Unsent)
    (ht : Transcript isn pieces c) : ∃ more, Transcript isn (pieces++more) d := by
  obtain ⟨more,w⟩ := h.wrote hl
  exact ⟨more,w.transcript hun ht⟩

theorem Core.Delivery.transcript {buf : List Byte} (h : c.Delivery buf d)
    (ht : Transcript isn pieces c) : Transcript isn pieces d := by
  obtain ⟨-,-,_,_,_,-,-,-,-,rfl⟩ := h
  exact ⟨ht.told.entry (by simp) (by simp),ht.greeted_append (by simp),ht.each,ht.behind⟩

theorem Flow.Created.transcript {f : Flow} (h : f.Created) : Transcript f.snd.sndUna [] f.core := by
  rcases h with ⟨p,now,rfl⟩ | ⟨p,remoteEdp,now,rfl⟩
  all_goals
    refine ⟨⟨?_,rfl,?_,?_,?_⟩,?_,?_,fun _ => ?_⟩
    all_goals first | exact (add_zero _).trans (place_zero _).symm | simp [Flow.core,
      Flow.createForActiveConnect,Flow.createForPassiveConnect,Flow.init]

end P2Streaming.Urdp
