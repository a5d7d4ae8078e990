import P2Streaming.UrdpTranscript
import P2Streaming.UrdpReassembly
import P2Streaming.UrdpHandshake

/-!
# What a flow has read of its peer's stream

While a flow is open, the messages it has read and the bytes it could read now are the
stream of the peer's pieces up to `m_rcv_nxt`. The pieces that have come early are kept in
their order.
-/
namespace P2Streaming.Urdp
open BigEndianBytes SerialNumbers ContiguousSegments List

/-- The reliable messages `__recv` has returned. -/
def recvdMessages (log : List Output) : List (List Byte) :=
  log.filterMap fun
    | .recvd buf => some buf
    | _ => none

def framed (buf : List Byte) : List Byte := beBytes 2 (buf.length - 2) ++ buf

/-- Two bytes of type and a payload whose length fits its two bytes. -/
def Framable (buf : List Byte) : Prop := 2 ≤ buf.length ∧ buf.length < 2^16 + 2

def bytesRead (log : List Output) : List Byte := (recvdMessages log).flatMap framed

theorem recvdMessages_append (l l' : List Output) :
    recvdMessages (l++l') = recvdMessages l ++ recvdMessages l' := filterMap_append

theorem recvdMessages_eq_nil {l : List Output} (h : ∀ buf, .recvd buf ∉ l) : recvdMessages l = [] := by
  refine filterMap_eq_nil_iff.mpr fun o ho => ?_
  cases o with
  | recvd buf => exact absurd ho (h buf)
  | _ => rfl

def Core.Open (c : Core) : Prop := c.state = .synRcvd ∨ c.state = .established

/-- The first `k` pieces have arrived; of their bytes the unread ones are in the queue, and
behind them are the pieces that have come early. -/
structure Assembled (isn : BitVec 32) (pieces : List Piece) (k : ℕ) (unread parked : List RSegment)
    (c : Core) : Prop where
  le_length : k≤pieces.length
  rcvNxt : c.rcvNxt = startOf isn pieces k
  rlist : c.rlist = unread ++ parked
  filled : Filled unread
  ends : ∀ s∈unread, s.seq.toNat + s.size ≤ (startOf isn pieces k).toNat
  waiting : Parked isn pieces k parked
  spaced : Spaced (unread++parked)
  bytes : bytesRead c.log ++ unread.flatMap RSegment.buf = streamOf (pieces.take k)
  rlen : c.rlen = BitVec.ofNat 32 (unread.flatMap RSegment.buf).length

structure Reads (isn : BitVec 32) (pieces : List Piece) (c : Core) : Prop where
  early : ¬c.Synced → recvdMessages c.log = []
  framable : ∀ buf ∈ recvdMessages c.log, Framable buf
  read : bytesRead c.log <+: streamOf pieces
  assembled : c.Open → ∃ k unread parked, Assembled isn pieces k unread parked c
  fault : c.fault ≠ some .rlist

/-- A segment that passes the tests of `__process` goes to its place in the queue: it lies less than
half the ring away from the first segment there. -/
def Core.Placeable (c : Core) (a : Arrival) : Prop :=
  c.Open → a.header.control = .data → c.rcvNxt≤a.header.seqno →
    modMinus (a.header.seqno + BitVec.ofNat 32 a.data.length) c.rcvNxt < recvBufSize →
    ∀ s ∈ c.rlist.head?, Near a.header.seqno s.seq

/-- The datagram is one of a peer that has transmitted the pieces. -/
structure Faithful (isn : BitVec 32) (pieces : List Piece) (a : Arrival) : Prop where
  carried : a.header.control.ordinary=true → a.data≠[] → Carried isn pieces a.header a.data
  greeted : a.header.control = .connect ∨ a.header.control = .connectAck →
    Carried isn pieces a.header a.data

section

variable {isn : BitVec 32} {pieces : List Piece} {k : ℕ} {unread parked : List RSegment} {c d : Core}
  {a : Arrival} {i : ℕ} {seqno : BitVec 32} {data : List Byte}

/-- The pieces a receiver is told about are not empty and their numbers do not wrap. -/
structure Sound (isn : BitVec 32) (pieces : List Piece) : Prop where
  sizes : ∀ p∈pieces, p.buf≠[] ∧ p.buf.length ≤ mss
  unwrapped : Unwrapped isn pieces
  greetings : ∀ i p, pieces[i]? = some p → p.ctrlType = .connect ∨ p.ctrlType = .connectAck →
    streamOf (pieces.take (i+1)) = []

namespace Sound

section
variable (h : Sound isn pieces)
include h

theorem size_pos {p : Piece} (hi : pieces[i]? = some p) : 0<p.size :=
  length_pos_iff.mpr (h.sizes p (mem_of_getElem? hi)).1

theorem toNat_startOf (i : ℕ) :
    (startOf isn pieces i).toNat = isn.toNat + offset pieces i := h.unwrapped.toNat_startOf i

theorem startOf_mono {j : ℕ} (hij : i≤j) :
    (startOf isn pieces i).toNat ≤ (startOf isn pieces j).toNat := by
  rw [h.toNat_startOf,h.toNat_startOf]
  exact Nat.add_le_add_left (offset_mono hij) _

theorem ends_le {j : ℕ} {p : Piece} (hi : pieces[i]? = some p) (hij : i<j) :
    (startOf isn pieces i).toNat + p.size ≤ (startOf isn pieces j).toNat := by
  rw [h.toNat_startOf,h.toNat_startOf,Nat.add_assoc]
  exact Nat.add_le_add_left (offset_add_le hi hij) _

theorem le_of_startOf_le {p : Piece} (hi : pieces[i]? = some p)
    (hle : (startOf isn pieces k).toNat ≤ (startOf isn pieces i).toNat) : k ≤ i := by
  by_contra hlt
  have hend := h.ends_le hi (Nat.lt_of_not_le hlt)
  have hpos := h.size_pos hi
  omega

end

end Sound

theorem Core.Remains.piece (hr : c.Remains a seqno data) (hs : Sound isn pieces)
    (hnxt : c.rcvNxt = startOf isn pieces k) {p : Piece} (hi : pieces[i]? = some p) (hp : p.buf=a.data)
    (hseq : a.header.seqno = startOf isn pieces i) : k ≤ i ∧ seqno = startOf isn pieces i ∧
      data=a.data := by
  have htrim := hr.trim
  rw [hnxt,hseq,trimSegment] at htrim
  by_cases hold : startOf isn pieces i < startOf isn pieces k
  · -- a piece that starts below `m_rcv_nxt` is old as a whole
    exfalso
    have hlt : (startOf isn pieces i).toNat < (startOf isn pieces k).toNat := hold
    have hik : i<k := by
      by_contra hge
      have := hs.startOf_mono (Nat.le_of_not_lt hge)
      omega
    have hend := hs.ends_le hi hik
    have hcut : ¬(startOf isn pieces k - startOf isn pieces i).toNat < a.data.length := by
      have hlen : p.size=a.data.length := congrArg List.length hp
      rw [BitVec.toNat_sub]
      omega
    rw [if_pos hold] at htrim
    rw [if_neg hcut] at htrim
    exact hr.nonempty (Prod.mk.inj htrim).2.symm
  · rw [if_neg hold] at htrim
    obtain ⟨rfl,rfl⟩ := Prod.mk.inj htrim
    exact ⟨hs.le_of_startOf_le hi (BitVec.not_lt.mp hold),rfl,rfl⟩

theorem Parked.filled (h : Parked isn pieces k parked) (hs : Sound isn pieces) : Filled parked := by
  intro s hmem
  obtain ⟨j,-,hj,-⟩ := h s hmem
  exact hs.size_pos hj

theorem framed_drop {bytes : List Byte} (h : beValue (bytes.take 2) + 4 ≤ bytes.length) :
    framed ((bytes.take (beValue (bytes.take 2) + 4)).drop 2) =
    bytes.take (beValue (bytes.take 2) + 4) := by
  have htwo : (bytes.take 2).length = 2 := by
    rw [length_take]
    omega
  have hlen : ((bytes.take (beValue (bytes.take 2) + 4)).drop 2).length - 2 = beValue (bytes.take 2) := by
    rw [length_drop,length_take]
    omega
  have hfront : (bytes.take (beValue (bytes.take 2) + 4)).take 2 = bytes.take 2 := by
    rw [take_take,Nat.min_eq_left (by omega)]
  have hbytes : beBytes 2 (beValue (bytes.take 2)) = bytes.take 2 := by
    have := beBytes_beValue (bytes.take 2)
    rwa [htwo] at this
  calc framed ((bytes.take (beValue (bytes.take 2) + 4)).drop 2)
      = (bytes.take (beValue (bytes.take 2) + 4)).take 2 ++
        (bytes.take (beValue (bytes.take 2) + 4)).drop 2 := by
        rw [framed,hlen,hbytes,hfront]
    _ = bytes.take (beValue (bytes.take 2) + 4) := take_append_drop 2 _

theorem length_streamOf_le (pieces : List Piece) :
    (streamOf pieces).length ≤ total Piece.size pieces := by
  induction pieces with
  | nil => exact le_rfl
  | cons p pieces ih =>
    rw [← singleton_append,streamOf_append,total_append,length_append]
    refine Nat.add_le_add ?_ ih
    by_cases hp : p.ctrlType = .data <;> simp [streamOf,hp,Piece.size]

namespace Assembled

section
variable (h : Assembled isn pieces k unread parked c)
include h

theorem filled_rlist (hs : Sound isn pieces) :
    Filled (unread++parked) := by
  intro s hmem
  rcases mem_append.mp hmem with hmem | hmem
  · exact h.filled s hmem
  · exact h.waiting.filled hs s hmem

theorem apart (hs : Sound isn pieces)
    (hi : pieces[i]? = some ⟨.data,data⟩) (hk : k ≤ i) :
    Apart ⟨data,startOf isn pieces i⟩ (unread++parked) := by
  intro s hmem
  rcases mem_append.mp hmem with hmem | hmem
  · exact .inr (.inl ((h.ends s hmem).trans (hs.startOf_mono hk)))
  · obtain ⟨j,-,hj,hseq⟩ := h.waiting s hmem
    rw [hseq]
    rcases Nat.lt_trichotomy j i with hji | rfl | hij
    · exact .inr (.inl (hs.ends_le hj hji))
    · exact .inl rfl
    · exact .inr (.inr (hs.ends_le hi hij))

/-- A piece goes among those that have come early. -/
theorem insert (hs : Sound isn pieces)
    (hi : pieces[i]? = some ⟨.data,data⟩) (hk : k ≤ i)
    (hnear : ∀ s ∈ (unread++parked).head?, Near (startOf isn pieces i) s.seq) :
    ∃ parked', (insertRSegment ⟨data,startOf isn pieces i⟩ (unread++parked)).1 = unread ++ parked' ∧
      Parked isn pieces k parked' ∧ Spaced (unread++parked') ∧
      (i=k → ∀ s ∈ parked'.head?, s.seq = startOf isn pieces k) := by
  have hpos : 0 < RSegment.size ⟨data,startOf isn pieces i⟩ := hs.size_pos hi
  obtain ⟨hspaced,l₁,l₂,hsplit,hbefore,hcases⟩ :=
    insertRSegment_spec h.spaced (h.filled_rlist hs) hpos (h.apart hs hi hk) hnear
  have hunread : ∀ s∈unread, s.seq.toNat < (startOf isn pieces i).toNat := by
    intro s hmem
    have hend := h.ends s hmem
    have hsize := h.filled s hmem
    have hmono := hs.startOf_mono hk
    omega
  -- nothing that has come early stands before the piece that is waited for
  have hfirst (hik : i=k) {l : List RSegment} (hl : ∀ s∈l, s∈parked)
      (hlt : ∀ s∈l, s.seq.toNat < (startOf isn pieces i).toNat) : l=[] := by
    rcases l with _ | ⟨s,l⟩
    · rfl
    · obtain ⟨j,hkj,hj,hseq⟩ := h.waiting s (hl s mem_cons_self)
      have hless := hlt s mem_cons_self
      have hmono := hs.startOf_mono (hik ▸ hkj)
      rw [hseq] at hless
      omega
  -- the unread bytes all stand before it
  have hcut : ∃ front, l₁ = unread ++ front ∧ parked = front ++ l₂ := by
    rcases append_eq_append_iff.mp hsplit with hcut | ⟨front,hl₁,hl₂⟩
    · exact hcut
    · rcases front with _ | ⟨s,front⟩
      · exact ⟨[],by rw [hl₁,append_nil,append_nil],hl₂.symm⟩
      · have hlt := hunread s (by simp [hl₁])
        rcases hcases with ⟨-,hafter⟩ | ⟨-,t,l,hl,hseq⟩
        · have hgt : (startOf isn pieces i).toNat < s.seq.toNat := hafter s (by simp [hl₂])
          omega
        · obtain rfl : s=t := (List.cons.inj (hl₂.symm.trans hl)).1
          rw [hseq] at hlt
          exact absurd hlt (lt_irrefl _)
  obtain ⟨front,rfl,rfl⟩ := hcut
  have hnil (hik : i=k) : front=[] := hfirst hik (fun s hmem => mem_append_left _ hmem)
    fun s hmem => hbefore s (mem_append_right _ hmem)
  rcases hcases with ⟨hins,-⟩ | ⟨hins,s,t,rfl,hseq⟩
  · refine ⟨front ++ ⟨data,startOf isn pieces i⟩ :: l₂,by rw [hins,append_assoc],?_,?_,?_⟩
    · intro s hmem
      rcases mem_append.mp hmem with hmem | hmem
      · exact h.waiting s (mem_append_left _ hmem)
      · rcases mem_cons.mp hmem with rfl | hmem
        · exact ⟨i,hk,hi,rfl⟩
        · exact h.waiting s (mem_append_right _ hmem)
    · rwa [hins,append_assoc] at hspaced
    · rintro rfl s hmem
      rw [hnil rfl] at hmem
      rw [← Option.mem_some_iff.mp hmem]
  · refine ⟨front ++ s :: t,hins,h.waiting,h.spaced,?_⟩
    rintro rfl u hmem
    rw [hnil rfl] at hmem
    rw [← Option.mem_some_iff.mp hmem,hseq]

end

theorem startOf_inj (hs : Sound isn pieces) (hk : k ≤ i) {p : Piece} (hi : pieces[i]? = some p)
    (heq : startOf isn pieces i = startOf isn pieces k) : i=k := by
  by_contra hne
  obtain ⟨q,hq⟩ : ∃ q, pieces[k]? = some q :=
    ⟨_,List.getElem?_eq_getElem ((lt_of_le_of_ne hk (Ne.symm hne)).trans
      (List.getElem?_eq_some_iff.mp hi).1)⟩
  have hend := hs.ends_le hq (lt_of_le_of_ne hk (Ne.symm hne))
  have hpos := hs.size_pos hq
  rw [heq] at hend
  omega

section
variable (h : Assembled isn pieces k unread parked c)
include h

/-- A piece that arrives is kept, and what has become contiguous can be read. -/
theorem inserted (hs : Sound isn pieces)
    (hi : pieces[i]? = some ⟨.data,data⟩) (hk : k ≤ i)
    (hnear : ∀ s ∈ (unread++parked).head?, Near (startOf isn pieces i) s.seq) :
      ∃ k' unread' parked', k≤k' ∧
      Assembled isn pieces k' unread' parked' (c.inserted (startOf isn pieces i) data) := by
  obtain ⟨parked',hins,hwaiting,hspaced,hfirst⟩ := h.insert hs hi hk hnear
  by_cases heq : startOf isn pieces i = c.rcvNxt
  · obtain rfl : i=k := startOf_inj hs hk hi (heq.trans h.rcvNxt)
    have hhead : ∀ s ∈ parked'.head?, s.seq.toNat < (startOf isn pieces i).toNat + 2^31 := by
      intro s hmem
      rw [hfirst rfl s hmem]
      omega
    obtain ⟨k',absorbed,rest,rfl,hkk',hle,hrest,hends,hstream,hnxt,hlen⟩ :=
      advanceRcvNxt_parked hs.sizes hs.unwrapped h.le_length hwaiting hspaced.right_of_append hhead
        c.rlen false
    have hpass : ∀ s∈unread, s.seq.toNat + s.size ≤ (startOf isn pieces i).toNat ∧
        (startOf isn pieces i).toNat ≤ s.seq.toNat + 2^31 := by
      intro s hmem
      obtain ⟨u,hu⟩ : ∃ u, u ∈ (unread++parked).head? := by
        cases unread with
        | nil => exact absurd hmem not_mem_nil
        | cons u unread => exact ⟨u,rfl⟩
      have hle := h.spaced.head_le (h.filled_rlist hs) hu s (mem_append_left _ hmem)
      have hnear_u := (hnear u hu).1
      exact ⟨h.ends s hmem,by omega⟩
    have hadvance : advanceRcvNxt (unread ++ (absorbed++rest)) (startOf isn pieces i) c.rlen false =
        advanceRcvNxt (absorbed++rest) (startOf isn pieces i) c.rlen false :=
        advanceRcvNxt_unread hpass c.rlen false
    refine ⟨k',unread++absorbed,rest,hkk',hle,?_,?_,?_,?_,hrest,?_,?_,?_⟩
    · rw [Core.inserted,if_pos heq,h.rlist,hins,h.rcvNxt,hadvance]
      exact hnxt
    · rw [Core.inserted,h.rlist,hins,append_assoc]
    · intro s hmem
      rcases mem_append.mp hmem with hmem | hmem
      · exact h.filled s hmem
      · exact hwaiting.filled hs s (mem_append_left _ hmem)
    · intro s hmem
      rcases mem_append.mp hmem with hmem | hmem
      · exact (h.ends s hmem).trans (hs.startOf_mono hkk')
      · exact hends s hmem
    · rwa [append_assoc]
    · rw [flatMap_append,← append_assoc,hstream]
      exact congrArg (· ++ _) h.bytes
    · rw [Core.inserted,if_pos heq,h.rlist,hins,h.rcvNxt,hadvance,flatMap_append,length_append,
        BitVec.ofNat_add,← h.rlen]
      exact hlen
  · refine ⟨k,unread,parked',le_rfl,h.le_length,?_,?_,h.filled,h.ends,hwaiting,hspaced,h.bytes,?_⟩
    · rw [Core.inserted,if_neg heq]
      exact h.rcvNxt
    · rw [Core.inserted,h.rlist,hins]
    · rw [Core.inserted,if_neg heq]
      exact h.rlen

theorem skipped (hs : Sound isn pieces) {p : Piece}
    (hk : pieces[k]? = some p) (hp : p.ctrlType ≠ .data) (hnxt : d.rcvNxt = startOf isn pieces (k+1))
    (hlog : d.log=c.log) (hlist : d.rlist=c.rlist) (hlen : d.rlen=c.rlen) :
    Assembled isn pieces (k+1) unread parked d where
  le_length := (List.getElem?_eq_some_iff.mp hk).1
  rcvNxt := hnxt
  rlist := hlist.trans h.rlist
  filled := h.filled
  ends s hmem := (h.ends s hmem).trans (hs.startOf_mono (Nat.le_succ k))
  waiting s hmem := by
    obtain ⟨i,hki,hi,hseq⟩ := h.waiting s hmem
    refine ⟨i,Nat.lt_of_le_of_ne hki ?_,hi,hseq⟩
    rintro rfl
    obtain rfl : p = ⟨.data,s.buf⟩ := Option.some.inj (hk.symm.trans hi)
    exact hp rfl
  spaced := h.spaced
  bytes := by
    rw [hlog,h.bytes,streamOf_take_succ hk,if_neg hp,append_nil]
  rlen := hlen.trans h.rlen

theorem keep (hnxt : d.rcvNxt=c.rcvNxt) (hlist : d.rlist=c.rlist)
    (hlen : d.rlen=c.rlen) (hlog : recvdMessages d.log = recvdMessages c.log) :
    Assembled isn pieces k unread parked d :=
  ⟨h.le_length,hnxt.trans h.rcvNxt,hlist.trans h.rlist,h.filled,h.ends,h.waiting,h.spaced,
    by rw [bytesRead,hlog]; exact h.bytes,hlen.trans h.rlen⟩

theorem toNat_rlen (hs : Sound isn pieces) :
    c.rlen.toNat = (unread.flatMap RSegment.buf).length := by
  have hle : (unread.flatMap RSegment.buf).length ≤ total Piece.size (pieces.take k) := by
    have hbytes := congrArg List.length h.bytes
    rw [length_append] at hbytes
    exact (Nat.le_add_left _ _).trans (hbytes.le.trans (length_streamOf_le _))
  have hwrap : isn.toNat + total Piece.size pieces < 2^32 := hs.unwrapped
  have htake : total Piece.size (pieces.take k) ≤ total Piece.size pieces := total_take_le pieces k
  rw [h.rlen,BitVec.toNat_ofNat,Nat.mod_eq_of_lt (by omega)]

theorem not_stuck (hs : Sound isn pieces) : ¬c.Stuck := by
  rintro ⟨hfour,hstuck⟩
  have hlen := h.toNat_rlen hs
  have hbytes := lengthBytes_append parked h.filled (by omega)
  rw [← h.rlist] at hbytes
  obtain ⟨hle,hnone⟩ := hstuck _ hbytes
  obtain ⟨unread',htake,-⟩ := takeBytes_append parked (hlen ▸ hle) h.filled h.spaced h.ends
    (BitVec.isLt _)
  rw [← h.rlist,hnone] at htake
  cases htake

theorem delivery (hs : Sound isn pieces) {buf : List Byte}
    (hd : c.Delivery buf d) : ∃ unread', Assembled isn pieces k unread' parked d ∧ Framable buf ∧
    unread≠[] ∧
      ∀ t∈unread', ∃ s∈unread, s.seq.toNat≤t.seq.toNat := by
  obtain ⟨-,-,bufForLen,bytes,rlist,hlength,hle,htake,rfl,rfl⟩ := hd
  have hlen := h.toNat_rlen hs
  rw [h.rlist,lengthBytes_append parked h.filled (by omega)] at hlength
  obtain rfl := Option.some.inj hlength
  rw [hlen] at hle
  obtain ⟨unread',htake',hrest,hfilled,hspaced,hends,hfrom⟩ :=
    takeBytes_append parked hle h.filled h.spaced h.ends (BitVec.isLt _)
  rw [h.rlist,htake'] at htake
  obtain ⟨rfl,rfl⟩ := Prod.mk.inj (Option.some.inj htake)
  refine ⟨unread',⟨h.le_length,h.rcvNxt,rfl,hfilled,hends,h.waiting,hspaced,?_,?_⟩,?_,?_,hfrom⟩
  · rw [bytesRead,recvdMessages_append,flatMap_append,← bytesRead,hrest]
    show (bytesRead c.log ++ (framed _ ++ [])) ++ _ = _
    rw [append_nil,framed_drop hle,append_assoc,take_append_drop]
    exact h.bytes
  · have hsmall := hle.trans_lt (hlen ▸ c.rlen.isLt)
    rw [hrest,length_drop,← BitVec.ofNat_sub_ofNat_of_le _ _ hsmall hle,← h.rlen]
  · have hvalue : beValue ((unread.flatMap RSegment.buf).take 2) < 256^2 :=
      (beValue_lt _).trans_le (Nat.pow_le_pow_right (by decide) (length_take_le _ _))
    rw [Framable,length_drop,length_take,Nat.min_eq_left hle]
    omega
  · rintro rfl
    simp at hle

theorem append_pieces (more : List Piece) :
    Assembled isn (pieces++more) k unread parked c := by
  have hstart := startOf_append isn h.le_length more
  refine ⟨?_,?_,h.rlist,h.filled,?_,h.waiting.append_pieces more,h.spaced,?_,h.rlen⟩
  · rw [length_append]
    exact h.le_length.trans (Nat.le_add_right _ _)
  · rw [hstart]
    exact h.rcvNxt
  · rw [hstart]
    exact h.ends
  · rw [take_append_of_le_length h.le_length]
    exact h.bytes

end

end Assembled

/-! ### Small steps -/

theorem Micro.recvdMessages_log {strict trusted : Prop} {rx : Option Arrival}
    (h : Micro strict trusted rx c d) : recvdMessages d.log = recvdMessages c.log := by
  obtain ⟨new,hlog,hnew⟩ := h.emits
  have hnil : recvdMessages new = [] := by
    refine recvdMessages_eq_nil fun buf hm => ?_
    cases hnew _ hm with
    | note plain => cases plain
  rw [hlog,recvdMessages_append,hnil,append_nil]

theorem trimSegment_nil (rcvNxt seqno : BitVec 32) : (trimSegment rcvNxt seqno []).2 = [] := by
  rw [trimSegment]
  by_cases hold : seqno < rcvNxt
  · rw [if_pos hold]
    simp
  · rw [if_neg hold]

theorem Core.Remains.carried (hr : c.Remains a seqno data) (hs : Sound isn pieces)
    (hf : Faithful isn pieces a)
    (ho : a.header.control.ordinary=true) (hnxt : c.rcvNxt = startOf isn pieces k) :
    ∃ i, k ≤ i ∧ pieces[i]? = some ⟨a.header.control,data⟩ ∧ seqno = startOf isn pieces i ∧
      a.header.seqno = seqno ∧ a.data=data := by
  have hne : a.data≠[] := by
    intro hnil
    have htrim := hr.trim
    rw [hnil] at htrim
    have hdata := trimSegment_nil c.rcvNxt a.header.seqno
    rw [htrim] at hdata
    exact hr.nonempty hdata
  obtain ⟨i,hi,hseq⟩ := hf.carried ho hne
  obtain ⟨hki,rfl,rfl⟩ := hr.piece hs hnxt hi rfl hseq
  exact ⟨i,hki,hi,rfl,hseq,rfl⟩

theorem Core.Remains.next (hr : c.Remains a seqno data) (hs : Sound isn pieces)
    (hf : Faithful isn pieces a)
    (ho : a.header.control.ordinary=true) (hnxt : c.rcvNxt = startOf isn pieces k)
    (here : seqno=c.rcvNxt) : pieces[k]? = some ⟨a.header.control,data⟩ ∧
      c.rcvNxt + BitVec.ofNat 32 data.length = startOf isn pieces (k+1) := by
  obtain ⟨i,hki,hi,hseq,-,-⟩ := hr.carried hs hf ho hnxt
  obtain rfl : i=k := Assembled.startOf_inj hs hki hi (hseq.symm.trans (here.trans hnxt))
  refine ⟨hi,?_⟩
  rw [startOf_succ isn hi,hnxt]
  rfl

namespace Reads

section
variable (h : Reads isn pieces c)
include h

theorem step (hsynced : c.Synced → d.Synced)
    (hlog : recvdMessages d.log = recvdMessages c.log) (hfault : d.fault ≠ some .rlist)
    (hopen : d.Open → ∃ k unread parked, Assembled isn pieces k unread parked d) :
      Reads isn pieces d where
  early hd := by
    rw [hlog]
    exact h.early fun hc => hd (hsynced hc)
  framable := by
    rw [hlog]
    exact h.framable
  read := by
    rw [bytesRead,hlog]
    exact h.read
  assembled := hopen
  fault := hfault

theorem kept (hsynced : c.Synced → d.Synced)
    (hlog : recvdMessages d.log = recvdMessages c.log) (hfault : d.fault ≠ some .rlist)
    (hopen : d.Open → c.Open)
    (hnxt : d.rcvNxt=c.rcvNxt) (hlist : d.rlist=c.rlist) (hlen : d.rlen=c.rlen) : Reads isn pieces d := by
  refine h.step hsynced hlog hfault fun hd => ?_
  obtain ⟨k,unread,parked,hk⟩ := h.assembled (hopen hd)
  exact ⟨k,unread,parked,hk.keep hnxt hlist hlen hlog⟩

theorem greeted (hearly : ¬c.Synced) (hblank : c.rlist=[] ∧ c.rlen=0)
    (hlog : recvdMessages d.log = recvdMessages c.log) (hk : k≤pieces.length)
    (hstream : streamOf (pieces.take k) = [])
    (hnxt : d.rcvNxt = startOf isn pieces k) (hlist : d.rlist=c.rlist) (hlen : d.rlen=c.rlen) :
    ∃ k unread parked, Assembled isn pieces k unread parked d := by
  refine ⟨k,[],[],hk,hnxt,hlist.trans hblank.1,?_,?_,?_,isChain_nil,?_,hlen.trans hblank.2⟩
  · exact fun s hmem => absurd hmem not_mem_nil
  · exact fun s hmem => absurd hmem not_mem_nil
  · exact fun s hmem => absurd hmem not_mem_nil
  · rw [bytesRead,hlog,h.early hearly,hstream]
    rfl

theorem append_pieces (more : List Piece) : Reads isn (pieces++more) c where
  early := h.early
  framable := h.framable
  read := by
    rw [streamOf_append]
    exact h.read.trans (prefix_append _ _)
  assembled hopen := by
    obtain ⟨k,unread,parked,hk⟩ := h.assembled hopen
    exact ⟨k,unread,parked,hk.append_pieces more⟩
  fault := h.fault

end

end Reads

theorem Core.Placeable.keep (h : c.Placeable a) (hopen : d.Open → c.Open) (hnxt : d.rcvNxt=c.rcvNxt)
    (hlist : d.rlist=c.rlist) : d.Placeable a := by
  intro hd
  rw [hnxt,hlist]
  exact h (hopen hd)

theorem Core.Local.reading (h : c.Local) (hopen : c.Open) : c.shutdown = .none := by
  refine h.shutdown (h.unclosed ?_).2
  rcases hopen with hc | hc <;> rw [hc] <;> decide

theorem Core.Open.synced (h : c.Open) : c.Synced := by
  rw [Core.Synced]
  rcases h with hc | hc
  · rw [hc]
  · rw [hc]
    decide

theorem Core.not_synced_of_state {state : TcpState} (h : c.state=state) (hs : ¬.synRcvd ≤ state) :
    ¬c.Synced := by
  rwa [Core.Synced,h]

section

variable {strict trusted : Prop} {rx : Option Arrival}

theorem Reads.insert (h : Reads isn pieces c) (hs : Sound isn pieces) (hf : Faithful isn pieces a)
    (hp : c.Placeable a) (control : a.header.control = .data) (remains : c.Remains a seqno data) :
    Reads isn pieces (c.inserted seqno data) ∧ (c.inserted seqno data).Placeable a ∧
      (c.Open → c.rcvNxt.toNat ≤ (c.inserted seqno data).rcvNxt.toNat) := by
  have hnear (hopen : c.Open) {k unread parked} (hk : Assembled isn pieces k unread parked c) :
      (∀ s ∈ c.rlist.head?, Near seqno s.seq) ∧ ∃ i, k ≤ i ∧ pieces[i]? = some ⟨.data,data⟩ ∧
        seqno = startOf isn pieces i ∧ a.header.seqno=seqno := by
    obtain ⟨i,hki,hi,hseq,hseqno,hdata⟩ := remains.carried hs hf (by rw [control]; rfl) hk.rcvNxt
    refine ⟨fun s hmem => ?_,i,hki,control ▸ hi,hseq,hseqno⟩
    have hle : c.rcvNxt≤a.header.seqno := by
      rw [hseqno,hseq,hk.rcvNxt]
      exact hs.startOf_mono hki
    have hne : c.rlist≠[] := by
      intro hnil
      rw [hnil] at hmem
      cases hmem
    rw [← hseqno]
    refine hp hopen control hle ?_ s hmem
    rw [hseqno,hdata]
    exact not_le.mp fun hge => remains.fits ⟨hne,hge⟩
  have hgrown (hopen : c.Open) : ∃ k k' unread parked, k≤k' ∧ c.rcvNxt = startOf isn pieces k ∧
      Assembled isn pieces k' unread parked (c.inserted seqno data) := by
    obtain ⟨k,unread,parked,hk⟩ := h.assembled hopen
    obtain ⟨hhead,i,hki,hi,rfl,-⟩ := hnear hopen hk
    rw [hk.rlist] at hhead
    obtain ⟨k',unread',parked',hle,hk'⟩ := hk.inserted hs hi hki hhead
    exact ⟨k,k',unread',parked',hle,hk.rcvNxt,hk'⟩
  refine ⟨h.step id rfl h.fault fun hopen => ?_,?_,fun hopen => ?_⟩
  · obtain ⟨-,k',unread',parked',-,-,hk'⟩ := hgrown hopen
    exact ⟨k',unread',parked',hk'⟩
  · intro hopen _ _ _ s hmem
    obtain ⟨k,unread,parked,hk⟩ := h.assembled hopen
    obtain ⟨hhead,-,-,-,-,hseqno⟩ := hnear hopen hk
    rw [hseqno]
    -- the first segment is the new one or the old first one
    rcases head?_insertRSegment _ _ hmem with rfl | hmem
    · exact ⟨Nat.lt_add_of_pos_right (by decide),Nat.lt_add_of_pos_right (by decide)⟩
    · exact hhead s hmem
  · obtain ⟨k,k',unread',parked',hle,hnxt,hk'⟩ := hgrown hopen
    rw [hnxt,hk'.rcvNxt]
    exact hs.startOf_mono hle

theorem Micro.reads (h : Micro strict trusted rx c d) (hl : c.Local)
    (hblank : ¬c.Synced → c.rlist=[] ∧ c.rlen=0) (hs : Sound isn pieces)
    (hf : ∀ a∈rx, Faithful isn pieces a) (hr : Reads isn pieces c) (hp : ∀ a∈rx, c.Placeable a) :
    Reads isn pieces d ∧ ∀ a∈rx, d.Placeable a := by
  have hsynced := h.synced_mono
  have hlog := h.recvdMessages_log
  have hfault := hr.fault
  -- most steps leave the receiving side alone
  have same (hfault : d.fault ≠ some .rlist) (hopen : d.Open → c.Open) (hnxt : d.rcvNxt=c.rcvNxt)
      (hlist : d.rlist=c.rlist) (hlen : d.rlen=c.rlen) : Reads isn pieces d ∧ ∀ a∈rx, d.Placeable a :=
    ⟨hr.kept hsynced hlog hfault hopen hnxt hlist hlen,fun a ha => (hp a ha).keep hopen hnxt hlist⟩
  have shut (hfault : d.fault ≠ some .rlist) (hopen : ¬d.Open) :
    Reads isn pieces d ∧ ∀ a∈rx, d.Placeable a :=
    ⟨hr.step hsynced hlog hfault fun hd => absurd hd hopen,fun a _ hd => absurd hd hopen⟩
  -- the greeting that is processed is no data
  have start {a : Arrival} {k : ℕ} (ha : a∈rx) (hcontrol : a.header.control ≠ .data) (hearly : ¬c.Synced)
      (hk : k≤pieces.length) (hstream : streamOf (pieces.take k) = []) (hfault : d.fault ≠ some .rlist)
      (hnxt : d.rcvNxt = startOf isn pieces k) (hlist : d.rlist=c.rlist) (hlen : d.rlen=c.rlen) :
      Reads isn pieces d ∧ ∀ a∈rx, d.Placeable a := by
    refine ⟨hr.step hsynced hlog hfault fun _ => ?_,fun a' ha' _ hdata => ?_⟩
    · exact hr.greeted hearly (hblank hearly) hlog hk hstream hnxt hlist hlen
    · exact absurd (Option.mem_unique ha' ha ▸ hdata) hcontrol
  cases h with
  | @insert a seqno data arrival control _ remains =>
    obtain ⟨hreads,hplace,-⟩ := hr.insert hs (hf a arrival) (hp a arrival) control remains
    refine ⟨hreads,fun a' ha' => ?_⟩
    rwa [Option.mem_unique ha' arrival]
  | @skip a seqno data arrival ordinary ignored remains here =>
    have hother (hopen : c.Open) : a.header.control ≠ .data :=
      ignored.resolve_right (not_not.mpr (hl.reading hopen))
    refine ⟨hr.step hsynced hlog hfault fun hopen => ?_,fun a' ha' hopen hdata => ?_⟩
    · obtain ⟨k,unread,parked,hk⟩ := hr.assembled hopen
      obtain ⟨hpiece,hnext⟩ := remains.next hs (hf a arrival) ordinary hk.rcvNxt here
      exact ⟨k+1,unread,parked,hk.skipped hs hpiece (hother hopen) hnext rfl rfl rfl⟩
    · exact absurd (Option.mem_unique ha' arrival ▸ hdata) (hother hopen)
  | @listened _ a flowId hs' arrival control listening called =>
    subst called
    obtain ⟨i,hi,hseq⟩ := (hf a arrival).greeted (.inl control)
    refine start arrival (by rw [control]; decide) (Core.not_synced_of_state listening (by decide))
      (List.getElem?_eq_some_iff.mp hi).1 (hs.greetings i _ hi (.inl control)) hfault ?_ rfl rfl
    rw [startOf_succ isn hi,← hseq]
    rfl
  | @synced a arrival control waiting =>
    obtain ⟨i,hi,hseq⟩ := (hf a arrival).greeted (.inr control)
    refine start arrival (by rw [control]; decide) (Core.not_synced_of_state waiting (by decide))
      (List.getElem?_eq_some_iff.mp hi).1 (hs.greetings i _ hi (.inr control)) hfault ?_ rfl rfl
    rw [startOf_succ isn hi,← hseq]
    rfl
  | @syncedEarly a arrival control waiting =>
    obtain ⟨i,hi,hseq⟩ := (hf a arrival).greeted (.inr control)
    have hstream := hs.greetings i _ hi (.inr control)
    rw [streamOf_take_succ hi,append_eq_nil_iff] at hstream
    exact start arrival (by rw [control]; decide) (Core.not_synced_of_state waiting (by decide))
      (List.getElem?_eq_some_iff.mp hi).1.le hstream.1 hfault hseq rfl rfl
  | faultReading reading stuck =>
    obtain ⟨k,unread,parked,hk⟩ := hr.assembled (.inr reading)
    exact absurd stuck (hk.not_stuck hs)
  | faultSending => exact same (by simp) id rfl rfl rfl
  | acceptFirst _ _ _ _ _ waiting | established waiting =>
    exact same hfault (fun _ => .inl waiting) rfl rfl rfl
  | connect _ _ asked =>
    subst asked
    exact shut hfault (by rintro (hd | hd) <;> cases hd)
  | closing | fin | abort | closed | report => exact shut hfault (by rintro (hd | hd) <;> cases hd)
  | _ => exact same hfault id rfl rfl rfl

theorem Core.Delivery.reads {buf : List Byte} (hd : c.Delivery buf d) (hs : Sound isn pieces)
    (hr : Reads isn pieces c) (hp : ∀ a∈rx, c.Placeable a) :
    Reads isn pieces d ∧ ∀ a∈rx, d.Placeable a := by
  obtain ⟨k,unread,parked,hk⟩ := hr.assembled (.inr hd.established)
  obtain ⟨unread',hk',hframable,hne,hfrom⟩ := hk.delivery hs hd
  obtain ⟨hstate,hnxt,hfault,hlog⟩ : d.state=c.state ∧ d.rcvNxt=c.rcvNxt ∧ d.fault=c.fault ∧
      recvdMessages d.log = recvdMessages c.log ++ [buf] := by
    obtain ⟨-,-,_,_,_,-,-,-,-,rfl⟩ := hd
    exact ⟨rfl,rfl,rfl,recvdMessages_append _ _⟩
  have hopen : d.Open := .inr (hstate.trans hd.established)
  refine ⟨⟨fun hn => absurd hopen.synced hn,?_,?_,fun _ => ⟨k,unread',parked,hk'⟩,hfault ▸ hr.fault⟩,?_⟩
  · intro buf' hmem
    rw [hlog] at hmem
    rcases mem_append.mp hmem with hmem | hmem
    · exact hr.framable buf' hmem
    · rwa [mem_singleton.mp hmem]
  · refine List.IsPrefix.trans ⟨_,hk'.bytes⟩ ?_
    have hsplit := congrArg streamOf (take_append_drop k pieces)
    rw [streamOf_append] at hsplit
    exact ⟨_,hsplit⟩
  · intro a ha _ hdata hle hfits t ht
    rw [hnxt] at hle hfits
    obtain ⟨u,rest,rfl⟩ := exists_cons_of_ne_nil hne
    have hnear := hp a ha (.inr hd.established) hdata hle hfits u (by rw [hk.rlist]; rfl)
    have hleast := hk.spaced.head_le (hk.filled_rlist hs) (s := u) rfl
    have hbehind : (startOf isn pieces k).toNat ≤ a.header.seqno.toNat := hk.rcvNxt ▸ hle
    have habove : u.seq.toNat≤t.seq.toNat ∧ t.seq.toNat < (startOf isn pieces k).toNat + 2^31 := by
      rw [hk'.rlist] at ht
      cases unread' with
      | cons t' unread' =>
        obtain rfl : t'=t := Option.mem_some_iff.mp ht
        obtain ⟨s,hmem,hst⟩ := hfrom t' mem_cons_self
        have hus := hleast s (mem_append_left _ hmem)
        have hend := hk'.ends t' mem_cons_self
        omega
      | nil =>
        -- everything is read, and the first early piece becomes the first one
        have hlast := (isChain_append.mp hk.spaced).2.2
          ((u::rest).getLast hne) (List.getLast?_eq_some_getLast hne) t ht
        have hend := hk.ends _ (getLast_mem hne)
        have hmem : t∈parked := mem_of_mem_head? ht
        refine ⟨hleast t (mem_append_right _ hmem),?_⟩
        have hbound := hlast.2
        omega
    obtain ⟨hlow,hhigh⟩ := hnear
    constructor <;> omega

end

end

end P2Streaming.Urdp
