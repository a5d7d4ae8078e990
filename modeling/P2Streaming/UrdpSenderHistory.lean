import P2Streaming.ContiguousSegments
import P2Streaming.UrdpFlowRuns
import P2Streaming.UrdpFlowLog

/-!
# What a flow has transmitted

The history of a sender is the list of all pieces of its sequence space, in order:
those of messages, and those of the handshake and of pings, which carry no data.
The retransmission queue is always the end of that list that is not acknowledged,
as long as acknowledgements end where pieces end.
-/
namespace P2Streaming.Urdp
open BigEndianBytes SerialNumbers ContiguousSegments SSegment List

structure Piece where
  ctrlType : Ctrl
  buf : List Byte
  deriving DecidableEq, Repr

def Piece.size (p : Piece) : ℕ := p.buf.length

def SSegment.size (seg : SSegment) : ℕ := seg.buf.length

def SSegment.piece (seg : SSegment) : Piece := ⟨seg.ctrlType,seg.buf⟩

def streamOf (pieces : List Piece) : List Byte :=
  pieces.flatMap fun p => if p.ctrlType = .data then p.buf else []

@[simp] theorem streamOf_append (l l' : List Piece) :
    streamOf (l++l') = streamOf l ++ streamOf l' := by simp [streamOf]

/-- A message as `__send` writes it into the stream. -/
def frame (msgType : BitVec 16) (buf : List Byte) : List Byte :=
  beBytes 2 (buf.length % 2^16) ++ beBytes 2 msgType.toNat ++ buf.take (buf.length % 2^16)

def sentMessages (log : List Output) : List (BitVec 16 × List Byte) :=
  log.filterMap fun
    | .sent msgType buf => some (msgType, buf)
    | _ => none

def framesOf (messages : List (BitVec 16 × List Byte)) : List Byte :=
  messages.flatMap fun m => frame m.1 m.2

/-! ### Queueing -/

/-- Of an outgoing side that had nothing queued: now exactly the given bytes are. -/
structure Outgoing.Queued (o o' : Outgoing) (ctrlType : Ctrl) (data : List Byte) : Prop where
  retransSlist : o'.retransSlist=o.retransSlist
  sndUna : o'.sndUna=o.sndUna
  sndNxt : o'.sndNxt=o.sndNxt
  slen : o'.slen = o.slen + BitVec.ofNat 32 data.length
  contiguous : Contiguous seq size (o.sndUna+o.slen) o'.slist
  bytes : o'.slist.flatMap buf = data
  each : ∀ seg∈o'.slist, seg.ctrlType=ctrlType ∧ seg.buf≠[] ∧ seg.buf.length ≤ mss

namespace Outgoing.Queued

variable {o o' : Outgoing} {ctrlType : Ctrl} {data₀ : List Byte}

theorem refl (h : o.slist=[]) : o.Queued o ctrlType [] :=
  ⟨rfl,rfl,rfl,by simp,by simp [h,Contiguous],by simp [h],by simp [h]⟩

section
variable (h : o.Queued o' ctrlType data₀)
include h

theorem total_slist : total size o'.slist = data₀.length := by
  rw [← h.bytes,length_flatMap]
  rfl

theorem grown {data : List Byte} {slist : List SSegment}
    (hc : Contiguous seq size (o.sndUna+o.slen) slist) (hb : slist.flatMap buf = data₀++data)
    (he : ∀ seg∈slist, seg.ctrlType=ctrlType ∧ seg.buf≠[] ∧ seg.buf.length ≤ mss) : o.Queued { o' with
      slist, slen := o'.slen + BitVec.ofNat 32 data.length } ctrlType (data₀++data) :=
  ⟨h.retransSlist,h.sndUna,h.sndNxt,by
    simp only [h.slen,length_append,BitVec.ofNat_add]
    ring,hc,hb,he⟩

theorem snoc (data : List Byte) (hne : data≠[]) (hle : data.length ≤ mss) : o.Queued { o' with
      slist := o'.slist ++ [⟨data,o'.sndUna+o'.slen,0,ctrlType⟩]
      slen := o'.slen + BitVec.ofNat 32 data.length } ctrlType (data₀++data) := by
  refine h.grown (contiguous_append.mpr ⟨h.contiguous,?_,trivial⟩) (by simp [h.bytes]) fun seg hseg => ?_
  · simp only [h.sndUna,h.slen,h.total_slist,place]
    ring
  · rcases mem_append.mp hseg with hs | hs
    · exact h.each seg hs
    · rw [mem_singleton.mp hs]
      exact ⟨rfl,hne,hle⟩

theorem pushSegments (n : ℕ) (data : List Byte)
    (hn : data.length≤n) : o.Queued (o'.pushSegments ctrlType n data) ctrlType (data₀++data) := by
  induction n generalizing o' data₀ data with
  | zero =>
    rw [eq_nil_of_length_eq_zero (Nat.le_zero.mp hn),append_nil]
    exact h
  | succ n ih =>
    cases data with
    | nil => simpa [Outgoing.pushSegments] using h
    | cons b bs =>
      have hfirst := h.snoc ((b::bs).take mss) (by simp [mss,mtuSize])
        (length_take_le _ _)
      have hdrop : ((b::bs).drop mss).length ≤ n := by
        simp only [length_drop,length_cons,mss,mtuSize] at hn ⊢
        omega
      have hrest := ih hfirst ((b::bs).drop mss) hdrop
      rwa [append_assoc,take_append_drop] at hrest

theorem fill {init : List SSegment} {back : SSegment}
    (hs : o'.slist = init ++ [back]) (data : List Byte)
    (hle : (back.buf++data).length ≤ mss) : o.Queued { o' with
      slist := init ++ [{ back with buf := back.buf ++ data }]
      slen := o'.slen + BitVec.ofNat 32 data.length } ctrlType (data₀++data) := by
  have hc := h.contiguous
  have hb := h.bytes
  rw [hs] at hb
  rw [hs,contiguous_append] at hc
  refine h.grown (contiguous_append.mpr ⟨hc.1,hc.2.1,trivial⟩) ?_ fun seg hseg => ?_
  · simp only [flatMap_append,flatMap_cons,flatMap_nil,append_nil] at hb ⊢
    rw [← hb,append_assoc]
  · rcases mem_append.mp hseg with hm | hm
    · exact h.each seg (by simp [hs,hm])
    · have hback := h.each back (by simp [hs])
      rw [mem_singleton.mp hm]
      exact ⟨hback.1,by simp [hback.2.1],hle⟩

theorem queue (data : List Byte) :
    o.Queued (o'.queue data ctrlType) ctrlType (data₀++data) := by
  unfold Outgoing.queue
  split
  · exact h.pushSegments _ _ le_rfl
  · rename_i back hback
    split
    · obtain ⟨init,hs⟩ := List.getLast?_eq_some_iff.mp hback
      have hfill := h.fill hs (data.take (min (mss - back.buf.length) data.length)) (by
        simp only [length_append,length_take]
        omega)
      have hrest := hfill.pushSegments data.length
        (data.drop (min (mss - back.buf.length) data.length)) (by simp)
      simpa [hs] using hrest
    · exact h.pushSegments _ _ le_rfl

end

end Outgoing.Queued

/-! ### The history -/

/-- Where the pieces behind the first `i` begin. -/
def startOf (isn : BitVec 32) (pieces : List Piece) (i : ℕ) : BitVec 32 :=
  place isn (total Piece.size (pieces.take i))

def Carried (isn : BitVec 32) (pieces : List Piece) (h : ReliableHeader) (data : List Byte) :
    Prop := ∃ i, pieces[i]? = some ⟨h.control,data⟩ ∧ h.seqno = startOf isn pieces i

/-- The queues of a sender that has transmitted the pieces, some of them acknowledged. -/
structure Unacked (isn : BitVec 32) (pieces acked : List Piece) (o : Outgoing) : Prop where
  split : pieces = acked ++ o.retransSlist.map piece
  contiguous : Contiguous seq size o.sndUna o.retransSlist
  sndUna : o.sndUna = place isn (total Piece.size acked)
  sndNxt : o.sndNxt = place isn (total Piece.size pieces)
  slen : o.slen = BitVec.ofNat 32 (total size o.retransSlist)

/-- The log tells of the pieces, and the messages in them are those the application has sent. -/
structure Told (isn : BitVec 32) (pieces : List Piece) (log : List Output) : Prop where
  sizes : ∀ p∈pieces, p.buf≠[] ∧ p.buf.length ≤ mss
  stream : streamOf pieces = framesOf (sentMessages log)
  carried : ∀ dst h data, .datagram dst (.reliable h data) ∈ log → data≠[] →
    Carried isn pieces h data
  sent : ∀ i p, pieces[i]? = some p → ∃ dst h, .datagram dst (.reliable h p.buf) ∈ log ∧
    h.seqno = startOf isn pieces i
  /-- Greetings come before the first message. -/
  greetings : ∀ i p, pieces[i]? = some p → p.ctrlType = .connect ∨ p.ctrlType = .connectAck →
    streamOf (pieces.take (i+1)) = []

/-- What a flow has transmitted are the pieces, and its queue holds the end of them. -/
structure Sender (isn : BitVec 32) (pieces : List Piece) (c : Core) : Prop
    extends told : Told isn pieces c.log where
  queue : c.state ≠ .closed → ∃ acked, Unacked isn pieces acked c.snd
  fault : c.fault ≠ some .retransSlist

def Core.Unsent (c : Core) : Prop :=
  c.state = .init ∨ c.state = .listen → ∀ msgType buf, .sent msgType buf ∉ c.log

variable {isn : BitVec 32} {pieces acked : List Piece} {o : Outgoing}

theorem startOf_append (isn : BitVec 32) {pieces : List Piece} {i : ℕ} (hi : i≤pieces.length)
    (more : List Piece) : startOf isn (pieces++more) i = startOf isn pieces i := by
  rw [startOf,startOf,take_append_of_le_length hi]

variable {data : List Byte}

theorem Carried.append {h : ReliableHeader} (hc : Carried isn pieces h data)
    (more : List Piece) : Carried isn (pieces++more) h data := by
  obtain ⟨i,hi,hs⟩ := hc
  have hlt : i<pieces.length := (List.getElem?_eq_some_iff.mp hi).1
  refine ⟨i,?_,hs.trans (startOf_append isn hlt.le more).symm⟩
  rw [List.getElem?_append_left hlt,hi]

theorem total_piece (l : List SSegment) : total Piece.size (l.map piece) = total size l := total_map _ _

variable {seg : SSegment}

theorem Unacked.piece_of_mem (h : Unacked isn pieces acked o) (hm : seg∈o.retransSlist) :
    ∃ i, pieces[i]? = some seg.piece ∧ seg.seq = startOf isn pieces i := by
  obtain ⟨l,l',hl⟩ := append_of_mem hm
  have hcut : pieces = (acked ++ l.map piece) ++ seg.piece :: l'.map piece := by
    simp [h.split,hl]
  have hpos := h.contiguous
  rw [hl] at hpos
  refine ⟨(acked ++ l.map piece).length,?_,?_⟩
  · rw [hcut,List.getElem?_append_right le_rfl,Nat.sub_self]
    rfl
  · rw [hpos.pos_eq,h.sndUna,startOf,hcut,take_left' rfl,total_append,total_piece,
      place_add]
    rfl

theorem Unacked.total_pieces (h : Unacked isn pieces acked o) :
    total Piece.size pieces = total Piece.size acked + total size o.retransSlist := by
  rw [h.split,total_append,total_piece]

/-! ### A flush -/

theorem sentMessages_append (l l' : List Output) :
    sentMessages (l++l') = sentMessages l ++ sentMessages l' := filterMap_append

theorem sentMessages_eq_nil {l : List Output} (h : ∀ msgType buf, .sent msgType buf ∉ l) :
    sentMessages l = [] := by
  refine filterMap_eq_nil_iff.mpr fun o ho => ?_
  cases o with
  | sent msgType buf => exact absurd ho (h msgType buf)
  | _ => rfl

variable {ctrlType : Ctrl}

theorem streamOf_piece {l : List SSegment} (h : ∀ seg∈l, seg.ctrlType=ctrlType) : streamOf (l.map piece) =
      if ctrlType = .data then l.flatMap buf else [] := by
  induction l with
  | nil => simp [streamOf]
  | cons seg l ih =>
    have hl := ih fun s hs => h s (mem_cons_of_mem _ hs)
    have hseg := h seg mem_cons_self
    rw [map_cons,← singleton_append,streamOf_append,hl]
    by_cases hd : ctrlType = .data <;> simp [streamOf,piece,hseg,hd]

variable {hs : List ReliableHeader}

theorem Core.Headers.exists_header {c : Core} {segs : List SSegment}
    (hh : c.Headers segs hs) (dst : Endpoint) (hm : seg∈segs) :
    ∃ h, c.Fits h seg.ctrlType seg.seq ∧ Output.datagram dst (.reliable h seg.buf) ∈
      List.zipWith (fun seg h => .datagram dst (.reliable h seg.buf)) segs hs := by
  induction hh with
  | nil => cases hm
  | cons hfits _ ih =>
    rcases mem_cons.mp hm with rfl | hm
    · exact ⟨_,hfits,mem_cons_self⟩
    · obtain ⟨h,hf,ho⟩ := ih hm
      exact ⟨h,hf,mem_cons_of_mem _ ho⟩

variable {snd : Outgoing}

theorem Unacked.behind (h : Unacked isn pieces acked o) :
    o.sndUna + o.slen = place isn (total Piece.size pieces) := by
  rw [h.total_pieces,place_add,h.slen,h.sndUna]

theorem Unacked.drained (h : Unacked isn pieces acked o) (hq : o.Queued snd ctrlType data) :
    Unacked isn (pieces ++ snd.slist.map piece) acked snd.drained where
  split := by
    simp only [Outgoing.drained,hq.retransSlist,map_append,map_map,h.split,
      append_assoc]
    rfl
  contiguous := by
    refine contiguous_append.mpr ⟨?_,contiguous_map.mpr ?_⟩
    · rw [hq.retransSlist]
      simpa [Outgoing.drained,hq.sndUna] using h.contiguous
    · have hplace : place snd.drained.sndUna (total size snd.retransSlist) =
          place isn (total Piece.size pieces) := by
        rw [h.total_pieces,place_add,hq.retransSlist,← h.sndUna,← hq.sndUna]
        rfl
      rw [hplace,← h.behind]
      exact hq.contiguous
  sndUna := hq.sndUna.trans h.sndUna
  sndNxt := by
    rw [total_append,total_piece,place_add,← h.sndNxt,← hq.sndNxt]
    rfl
  slen := by
    simp only [Outgoing.drained,hq.retransSlist,total_append,total_map]
    rw [hq.slen,h.slen,BitVec.ofNat_add,← hq.total_slist]
    rfl

theorem startOf_behind {l l' : List SSegment}
    (hc : Contiguous seq size (place isn (total Piece.size pieces)) (l ++ seg :: l')) :
    startOf isn (pieces ++ (l ++ seg :: l').map piece) (pieces ++ l.map piece).length = seg.seq := by
  rw [hc.pos_eq,startOf,map_append,← append_assoc,take_left' rfl,total_append,
    total_piece,place_add]
  rfl

theorem getElem?_behind (pieces : List Piece) (l l' : List SSegment) (seg : SSegment) :
    (pieces ++ (l ++ seg :: l').map piece)[(pieces ++ l.map piece).length]? = some seg.piece := by
  rw [map_append,← append_assoc,List.getElem?_append_right le_rfl,Nat.sub_self]
  rfl

theorem sentMessages_sentOut {e : Core}
    (hh : e.Headers snd.slist hs) : sentMessages (e.sentOut snd hs).log = sentMessages e.log := by
  have hnew : sentMessages (List.zipWith
      (fun seg h => .datagram e.remoteEndpoint (.reliable h seg.buf)) snd.slist hs) = [] := by
    refine sentMessages_eq_nil fun msgType buf ho => ?_
    obtain ⟨_,_,_,_,he⟩ := hh.mem_zipWith ho
    cases he
  rw [Core.sentOut,sentMessages_append,hnew,append_nil]

/-- Everything queued goes out: the history grows by what was queued. -/
theorem Told.flush {c e : Core} (h : Told isn pieces c.log) (hq : c.snd.Queued snd ctrlType data)
    (hbehind : c.snd.sndUna+c.snd.slen = place isn (total Piece.size pieces))
    (hh : e.Headers snd.slist hs)
    (hold : ∀ dst p, .datagram dst p ∈ e.log ↔ .datagram dst p ∈ c.log)
    (hframes : framesOf (sentMessages e.log) = framesOf (sentMessages c.log) ++
      if ctrlType = .data then data else [])
    (hgreet : ctrlType = .connect ∨ ctrlType = .connectAck → streamOf pieces = []) :
    Told isn (pieces ++ snd.slist.map piece) (e.sentOut snd hs).log := by
  have hplace := hbehind ▸ hq.contiguous
  refine ⟨fun p hp => ?_,?_,fun dst hd d hm hne => ?_,fun i p hp => ?_,fun i p hp hg => ?_⟩
  · rcases mem_append.mp hp with hp | hp
    · exact h.sizes p hp
    · obtain ⟨seg,hseg,rfl⟩ := mem_map.mp hp
      exact (hq.each seg hseg).2
  · rw [streamOf_append,streamOf_piece fun seg hs => (hq.each seg hs).1,hq.bytes,h.stream,
      sentMessages_sentOut hh,hframes]
  · rcases mem_append.mp hm with hm | hm
    · exact (h.carried dst hd d ((hold _ _).mp hm) hne).append _
    · obtain ⟨seg,hseg,h',hf,he⟩ := hh.mem_zipWith hm
      cases he
      obtain ⟨l,l',hl⟩ := append_of_mem hseg
      rw [hl] at hplace ⊢
      exact ⟨_,(getElem?_behind pieces l l' seg).trans (by rw [hf.control]; rfl),
        hf.seqno.trans (startOf_behind hplace).symm⟩
  · by_cases hi : i<pieces.length
    · rw [List.getElem?_append_left hi] at hp
      obtain ⟨dst,hd,hm,hs⟩ := h.sent i p hp
      exact ⟨dst,hd,mem_append_left _ ((hold _ _).mpr hm),
        hs.trans (startOf_append isn hi.le _).symm⟩
    · -- a new piece: cut the queue where its segment stands
      rw [List.getElem?_append_right (Nat.not_lt.mp hi),List.getElem?_map] at hp
      obtain ⟨seg,hseg,rfl⟩ := Option.map_eq_some_iff.mp hp
      obtain ⟨hlt,hget⟩ := List.getElem?_eq_some_iff.mp hseg
      have hl := (take_append_drop (i - pieces.length) snd.slist).symm
      rw [drop_eq_getElem_cons hlt,hget] at hl
      obtain ⟨hd,hf,hm⟩ := hh.exists_header e.remoteEndpoint (hget ▸ getElem_mem hlt)
      refine ⟨e.remoteEndpoint,hd,mem_append_right _ hm,hf.seqno.trans ?_⟩
      have hi' : (pieces ++ (snd.slist.take (i - pieces.length)).map piece).length = i := by
        rw [length_append,length_map,length_take]
        omega
      rw [hl] at hplace
      rw [← startOf_behind hplace,hi',← hl]
  · by_cases hi : i<pieces.length
    · rw [List.getElem?_append_left hi] at hp
      rw [take_append_of_le_length hi]
      exact h.greetings i p hp hg
    · rw [List.getElem?_append_right (Nat.not_lt.mp hi),List.getElem?_map] at hp
      obtain ⟨seg,hseg,rfl⟩ := Option.map_eq_some_iff.mp hp
      have htype : seg.ctrlType=ctrlType := (hq.each seg (mem_of_getElem? hseg)).1
      have hg' : ctrlType = .connect ∨ ctrlType = .connectAck := htype ▸ hg
      have hnot : ctrlType ≠ .data := by rcases hg' with h | h <;> rw [h] <;> decide
      rw [take_append,streamOf_append,take_of_length_le (by omega),hgreet hg',
        ← map_take,streamOf_piece fun seg hs => (hq.each seg (mem_of_mem_take hs)).1,
        if_neg hnot,append_nil]

/-! ### Acknowledgements -/

theorem modLess_iff (a b : BitVec 32) : modLess a b = true ↔ 0 < (b - a).toNat ∧
    (b - a).toNat < 2^31 := by
  rw [modLess,WrappableInteger.wrappableLess_iff]
  have hneg : (a - b).toNat = (2^32 - (b - a).toNat) % 2^32 := by
    rw [← BitVec.toNat_neg]
    congr 1
    ring
  omega

theorem modMinus_pos_iff (a b : BitVec 32) :
    0 < modMinus a b ↔ 0 < (a - b).toNat ∧ (a - b).toNat < 2^31 := by
  rw [modMinus,WrappableInteger.wrappableMinus,BitVec.toInt_eq_toNat_cond]
  split <;> omega

theorem popAcked_boundary {ackno una : BitVec 32} {l : List SSegment} {k : ℕ}
    (hc : Contiguous seq size una l) (hne : ∀ seg∈l, seg.buf≠[])
    (hk : k≤l.length) (hack : (ackno - una).toNat = total size (l.take k))
    (hlt : (ackno - una).toNat < 2^31) : popAcked ackno l = l.drop k := by
  induction l generalizing una k with
  | nil => simp [popAcked]
  | cons seg rest ih =>
    rw [popAcked,hc.1]
    have hpop := modMinus_pos_iff ackno una
    cases k with
    | zero =>
      rw [take_zero,total_nil] at hack
      rw [if_neg (by omega),drop_zero]
    | succ k =>
      have hpos : 0<seg.size := length_pos_iff.mpr (hne seg mem_cons_self)
      rw [take_succ_cons,total_cons] at hack
      rw [if_pos (by omega),drop_succ_cons]
      have hstep : (ackno - (una + BitVec.ofNat 32 seg.size)).toNat =
          total size (rest.take k) := by
        have h1 : ackno - (una + BitVec.ofNat 32 seg.size) =
            ackno - una - BitVec.ofNat 32 seg.size := by ring
        rw [h1,BitVec.toNat_sub,BitVec.toNat_ofNat]
        omega
      refine ih hc.2 (fun s hs => hne s (mem_cons_of_mem _ hs)) ?_ hstep (by omega)
      simpa using hk

theorem Unacked.accept {ackno : BitVec 32} (h : Unacked isn pieces acked o)
    (hne : ∀ p∈pieces, p.buf≠[]) (above : modLess o.sndUna ackno = true)
    (boundary : o.Boundary ackno) : ∃ acked', Unacked isn pieces acked' (o.acked ackno) := by
  obtain ⟨k,hk,hack⟩ := boundary
  have hlt := (modLess_iff _ _).mp above
  have hsegs : ∀ seg∈o.retransSlist, seg.buf≠[] := fun seg hseg =>
    hne seg.piece (h.split ▸ mem_append_right _ (mem_map_of_mem hseg))
  have hpop : popAcked ackno o.retransSlist = o.retransSlist.drop k :=
    popAcked_boundary h.contiguous hsegs hk hack hlt.2
  have hackno : ackno = place o.sndUna (total size (o.retransSlist.take k)) := by
    rw [place,show total size (o.retransSlist.take k) = _ from hack.symm,
      BitVec.ofNat_toNat,BitVec.setWidth_eq]
    ring
  have hcut := h.contiguous
  rw [← take_append_drop k o.retransSlist,contiguous_append,← hackno] at hcut
  refine ⟨acked ++ (o.retransSlist.take k).map piece,?_,?_,?_,h.sndNxt,?_⟩
  · rw [Outgoing.acked,hpop,append_assoc,← map_append,take_append_drop]
    exact h.split
  · rw [Outgoing.acked,hpop]
    exact hcut.2
  · rw [total_append,total_piece,place_add,← h.sndUna]
    exact hackno
  · have hsum : total size (o.retransSlist.take k) +
        total size (o.retransSlist.drop k) = total size o.retransSlist :=
      total_take_add_total_drop _ _
    have hdiff : ackno - o.sndUna = BitVec.ofNat 32 (total size (o.retransSlist.take k)) := by
      rw [hackno,place]
      ring
    rw [Outgoing.acked,hpop,hdiff,h.slen,← hsum,BitVec.ofNat_add]
    ring

/-- What of a segment does not change once it is queued. -/
def SSegment.fixed (seg : SSegment) : Piece × BitVec 32 := (seg.piece, seg.seq)

theorem Unacked.resent (h : Unacked isn pieces acked o) {l : List SSegment}
    (same : l.map fixed = o.retransSlist.map fixed) :
    Unacked isn pieces acked { o with retransSlist := l } := by
  have hpieces := congrArg (List.map Prod.fst) same
  rw [map_map,map_map] at hpieces
  have hcont : Contiguous Prod.snd (fun x => Piece.size x.1) o.sndUna (l.map fixed) :=
    same ▸ contiguous_map.mpr h.contiguous
  refine ⟨h.split.trans (congrArg (acked ++ ·) hpieces.symm),
    (contiguous_map (f := fixed)).mp hcont,h.sndUna,h.sndNxt,?_⟩
  rw [h.slen,← total_piece,← total_piece]
  exact congrArg (fun ps => BitVec.ofNat 32 (total Piece.size ps)) hpieces.symm

/-! ### The small steps -/

section
variable {strict trusted : Prop} {rx : Option Arrival} {c d : Core}

theorem Told.entry {log new : List Output} (h : Told isn pieces log)
    (hsent : ∀ msgType buf, .sent msgType buf ∉ new)
    (hdata : ∀ dst hd data, .datagram dst (.reliable hd data) ∈ new → data≠[] →
      Carried isn pieces hd data) : Told isn pieces (log++new) where
  sizes := h.sizes
  stream := by
    rw [sentMessages_append,sentMessages_eq_nil hsent,append_nil]
    exact h.stream
  carried dst hd data hm hne :=
    (mem_append.mp hm).elim (fun hm => h.carried dst hd data hm hne)
      fun hm => hdata dst hd data hm hne
  sent i p hp := by
    obtain ⟨dst,hd,hm,hs⟩ := h.sent i p hp
    exact ⟨dst,hd,mem_append_left _ hm,hs⟩
  greetings := h.greetings

/-- An output that neither carries data nor greets. -/
def Output.Bare : Output → Prop
  | .sent _ _ => False
  | .datagram _ (.reliable h data) => data = [] ∧ h.control ≠ .connect ∧ h.control ≠ .connectAck
  | _ => True

theorem Output.bare_of_plain {o : Output} (h : o.plain=true) : o.Bare := by
  cases o with
  | datagram | sent => cases h
  | _ => trivial

theorem Core.Fits.bare {h : ReliableHeader} {control : Ctrl} {seq : BitVec 32}
    (fits : c.Fits h control seq)
    (hother : control ≠ .connect ∧ control ≠ .connectAck) (dst : Endpoint) :
    (Output.datagram dst (.reliable h [])).Bare :=
  ⟨rfl,fits.control ▸ hother⟩

/-- What a small step does to the queues and to what has been written, with the pieces that go out
for the first time. -/
inductive Core.Wrote (strict : Prop) (c d : Core) : List Piece → Prop
  | rest {new : List Output} (log : d.log = c.log ++ new) (bare : ∀ o∈new, o.Bare)
      (snd : d.snd=c.snd) (live : d.state ≠ .closed → c.state ≠ .closed) : Wrote strict c d []
  | shut {new : List Output} (log : d.log = c.log ++ new) (bare : ∀ o∈new, o.Bare)
      (closed : d.state = .closed) (nothing : d.snd.retransSlist=[]) : Wrote strict c d []
  | acked {ackno : BitVec 32} (log : d.log=c.log) (snd : d.snd = c.snd.acked ackno)
      (above : modLess c.snd.sndUna ackno = true) (boundary : strict → c.snd.Boundary ackno)
      (live : d.state ≠ .closed → c.state ≠ .closed) : Wrote strict c d []
  | resent {new : List Output} {l : List SSegment} {n : BitVec 32} (log : d.log = c.log ++ new)
      (old : ∀ o∈new, c.state ≠ .closed ∧ ∃ seg∈c.snd.retransSlist, ∃ dst h,
        o = .datagram dst (.reliable h seg.buf) ∧ h.control=seg.ctrlType ∧ h.seqno=seg.seq)
      (same : l.map fixed = c.snd.retransSlist.map fixed)
      (snd : d.snd = { c.snd with retransSlist := l, sndNxt := n }) (sndNxt : strict → n=c.snd.sndNxt)
      (state : d.state=c.state) : Wrote strict c d []
  | flushed {e : Core} {snd : Outgoing} {ctrlType : Ctrl} {data : List Byte} {hs : List ReliableHeader}
      (early : ¬.closing ≤ c.state) (queued : c.snd.Queued snd ctrlType data)
      (headers : e.Headers snd.slist hs)
      (old : ∀ dst p, .datagram dst p ∈ e.log ↔ .datagram dst p ∈ c.log)
      (frames : framesOf (sentMessages e.log) = framesOf (sentMessages c.log) ++
        if ctrlType = .data then data else [])
      (greets : ctrlType = .connect ∨ ctrlType = .connectAck → c.state = .init ∨ c.state = .listen)
      (out : d = e.sentOut snd hs) : Wrote strict c d (snd.slist.map piece)

theorem Micro.wrote (h : Micro strict trusted rx c d) (hl : c.Local) : ∃ more, c.Wrote strict d more := by
  have quiet (hlog : d.log=c.log) (hsnd : d.snd=c.snd) (live : d.state ≠ .closed → c.state ≠ .closed) :
      ∃ more, c.Wrote strict d more :=
    ⟨_,.rest (hlog.trans (append_nil _).symm) (by simp) hsnd live⟩
  have one {o : Output} (ho : o.Bare) : ∀ o' ∈ [o], o'.Bare := by simpa using ho
  have two {o o' : Output} (ho : o.Bare) (ho' : o'.Bare) : ∀ x ∈ [o] ++ [o'], x.Bare := by
    simp [ho,ho']
  have live {s : TcpState} (hc : c.state=s) (hne : s ≠ .closed) : c.state ≠ .closed := hc ▸ hne
  have hnil {ctrlType : Ctrl} : c.snd.Queued c.snd ctrlType [] := .refl hl.drained
  cases h with
  | note o noted => exact ⟨_,.rest rfl (one (Output.bare_of_plain noted.plain)) rfl id⟩
  | unregister | attempted | unreliable => exact ⟨_,.rest rfl (one trivial) rfl id⟩
  | ack fits | finAck fits | rst fits => exact ⟨_,.rest rfl (one (fits.bare (by decide) _)) rfl id⟩
  | fin waiting fits =>
    exact ⟨_,.rest rfl (one (fits.bare (by decide) _)) rfl fun _ => live waiting nofun⟩
  | abort fits =>
    exact ⟨_,.shut (append_assoc ..) (two (fits.bare (by decide) _) trivial) rfl rfl⟩
  | closed => exact ⟨_,.shut rfl (one trivial) rfl rfl⟩
  | report => exact ⟨_,.shut (append_assoc ..) (two trivial trivial) rfl rfl⟩
  | ackDue | unreliableDue | detectWritable | post | unpost | dupAcks | insert | skip | cancel
  | accepted | faultSending | faultReading => exact quiet rfl rfl id
  | established waiting | synced _ _ waiting | syncedEarly _ _ waiting =>
    exact quiet rfl rfl fun _ => live waiting nofun
  | closing _ hne => exact quiet rfl rfl fun _ => hne
  | accept _ _ above _ boundary => exact ⟨_,.acked rfl rfl above boundary id⟩
  | acceptFirst _ _ above _ boundary waiting =>
    exact ⟨_,.acked rfl rfl above boundary fun _ => live waiting nofun⟩
  | punch _ _ same =>
    refine ⟨_,.resent (append_nil _).symm (by simp) ?_ rfl (fun _ => rfl) rfl⟩
    rcases same with rfl | ⟨seg,hseg,rfl⟩
    · rfl
    · rw [hseg]
      rfl
  | @retransmit hd seg rest oldest counted fits =>
    refine ⟨_,.resent rfl (fun o ho => ?_) ?_ rfl (fun hstrict => if_neg (counted hstrict)) rfl⟩
    · exact ⟨fits.live,seg,oldest ▸ mem_cons_self,_,hd,mem_singleton.mp ho,fits.control,
        fits.seqno⟩
    · rw [oldest]
      rfl
  | send established _ queued headers =>
    subst queued
    refine ⟨_,.flushed (established ▸ (by decide)) ((hnil.queue _).queue _)
      (headers.imp fun _ _ h => ⟨h.1,h.2,h.3,h.4,h.5⟩) (fun dst p => ?_) ?_ (by simp) rfl⟩
    · simp [Core.emit]
    · simp [Core.emit,sentMessages,framesOf,frame]
  | ping established _ headers =>
    exact ⟨_,.flushed (established ▸ (by decide)) (hnil.queue _) headers (fun _ _ => Iff.rfl) (by simp)
      (by simp) rfl⟩
  | connect fresh _ asked headers =>
    subst asked
    exact ⟨_,.flushed (fresh ▸ (by decide)) (hnil.queue _) headers (fun _ _ => Iff.rfl) (by simp)
      (fun _ => .inl fresh) rfl⟩
  | listened _ _ listening called headers =>
    subst called
    exact ⟨_,.flushed (listening ▸ (by decide)) (hnil.queue _) headers (fun _ _ => Iff.rfl) (by simp)
      (fun _ => .inr listening) rfl⟩

theorem Core.live_of_early (h : ¬.closing ≤ c.state) : c.state ≠ .closed :=
  fun hc => h (hc ▸ by decide)

variable {more : List Piece}

/-- The log tells of the pieces there were and of those that went out. -/
theorem Core.Wrote.told (w : c.Wrote strict d more) (hun : c.Unsent) (h : Told isn pieces c.log)
    (each : c.state ≠ .closed → ∀ seg∈c.snd.retransSlist,
      ∃ i, pieces[i]? = some seg.piece ∧ seg.seq = startOf isn pieces i)
    (behind : c.state ≠ .closed → c.snd.sndUna+c.snd.slen = place isn (total Piece.size pieces)) :
    Told isn (pieces++more) d.log := by
  have bare {new : List Output} (hbare : ∀ o∈new, o.Bare) : Told isn (pieces++[]) (c.log++new) := by
    rw [append_nil]
    exact h.entry (fun msgType buf hm => hbare _ hm) fun dst hd data hm hne => absurd (hbare _ hm).1 hne
  cases w with
  | rest log hbare | shut log hbare => exact log ▸ bare hbare
  | acked log => exact log ▸ (append_nil pieces).symm ▸ h
  | resent log old =>
    rw [log,append_nil]
    refine h.entry (fun msgType buf hm => ?_) fun dst hd data hm _ => ?_
    · obtain ⟨-,_,-,_,_,he,-⟩ := old _ hm
      cases he
    · obtain ⟨live,seg,hseg,_,_,he,hcontrol,hseqno⟩ := old _ hm
      cases he
      obtain ⟨i,hi,hseq⟩ := each live seg hseg
      exact ⟨i,by rw [hi,hcontrol]; rfl,hseqno.trans hseq⟩
  | flushed early queued headers old frames greets out =>
    refine out ▸ h.flush queued (behind (live_of_early early)) headers old frames fun hg => ?_
    rw [h.stream,sentMessages_eq_nil (hun (greets hg))]
    rfl

theorem Micro.fault (h : Micro True trusted rx c d) (hc : c.fault ≠ some .retransSlist) :
    d.fault ≠ some .retransSlist := by
  cases h with
  | faultSending loose => exact absurd trivial loose
  | faultReading => nofun
  | connect _ _ asked => exact asked ▸ hc
  | listened _ _ _ called => exact called ▸ hc
  | _ => exact hc

/-- One small step: the history may grow until the flow closes, and nothing of it changes. -/
theorem Micro.sender (h : Micro True trusted rx c d) (hl : c.Local) (hun : c.Unsent)
    (hs : Sender isn pieces c) : ∃ more, Sender isn (pieces++more) d ∧
    (.closing ≤ c.state → more=[]) := by
  obtain ⟨more,w⟩ := h.wrote hl
  have htold : Told isn (pieces++more) d.log := by
    refine w.told hun hs.told (fun live seg hseg => ?_) fun live => ?_
    · obtain ⟨acked,hu⟩ := hs.queue live
      exact hu.piece_of_mem hseg
    · obtain ⟨acked,hu⟩ := hs.queue live
      exact hu.behind
  refine ⟨more,⟨htold,fun hd => ?_,h.fault hs.fault⟩,fun hle => ?_⟩
  · cases w with
    | rest _ _ snd live => exact snd ▸ (append_nil pieces).symm ▸ hs.queue (live hd)
    | shut _ _ closed => exact absurd closed hd
    | acked _ snd above boundary live =>
      obtain ⟨acked,hu⟩ := hs.queue (live hd)
      rw [snd,append_nil]
      exact hu.accept (fun p hp => (hs.sizes p hp).1) above (boundary trivial)
    | resent _ _ same snd sndNxt state =>
      obtain ⟨acked,hu⟩ := hs.queue (state ▸ hd)
      rw [snd,sndNxt trivial,append_nil]
      exact ⟨acked,hu.resent same⟩
    | flushed early queued _ _ _ _ out =>
      obtain ⟨acked,hu⟩ := hs.queue (Core.live_of_early early)
      exact ⟨acked,out ▸ hu.drained queued⟩
  · cases w with
    | flushed early => exact absurd hle early
    | _ => rfl

theorem Micro.unsent (h : Micro strict trusted rx c d) (hc : c.Unsent) : d.Unsent := by
  intro hd msgType buf hm
  have hstate : c.state = .init ∨ c.state = .listen := by
    cases h with
    | connect _ _ asked =>
      subst asked
      rcases hd with hd | hd <;> cases hd
    | listened _ _ _ called =>
      subst called
      rcases hd with hd | hd <;> cases hd
    | acceptFirst | established | synced | syncedEarly | closing | fin | abort | closed | report =>
      rcases hd with hd | hd <;> cases hd
    | _ => exact hd
  rcases h.mem_log hm with ho | ho
  · exact hc hstate msgType buf ho
  · cases ho with
    | note plain => cases plain
    | sent established => rcases hstate with hs | hs <;> cases hs.symm.trans established

theorem Core.Delivery.unsent {buf : List Byte} (h : c.Delivery buf d) : d.Unsent := by
  have hst := h.established
  obtain ⟨-,-,_,_,_,-,-,-,-,rfl⟩ := h
  rintro (hd | hd) <;> cases hd.symm.trans hst

theorem Core.Delivery.sender {buf : List Byte} (h : c.Delivery buf d)
    (hs : Sender isn pieces c) : Sender isn pieces d := by
  obtain ⟨-,-,_,_,_,-,-,-,-,rfl⟩ := h
  exact ⟨hs.told.entry (by simp) (by simp),hs.queue,hs.fault⟩

end
end P2Streaming.Urdp
