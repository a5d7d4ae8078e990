import P2Streaming.UrdpReliableDelivery

/-!
# What acknowledgements say

Whatever a flow acknowledges ends where a piece of its peer ends, and as long as the flow
takes in data everything below the number has arrived. A flow that is closing goes on
acknowledging what it throws away.
-/
namespace P2Streaming.Urdp
open BigEndianBytes TransitionRuns SerialNumbers ContiguousSegments

/-- A flow that is closing has let go of its connection and reads nothing more. -/
structure Core.Shut (c : Core) : Prop where
  detached : .closing ≤ c.state → c.socket=false
  refusing : c.state = .closing ∨ c.state = .watingFinAck → c.shutdown ≠ .none ∧ c.closeCalled=true

/-- The flow has sent an answer with this acknowledgement number. -/
def Acknowledged (log : List Output) (ackno : BitVec 32) : Prop :=
  ∃ dst h data, .datagram dst (.reliable h data) ∈ log ∧ h.control.ordinary=true ∧ h.ackno=ackno

structure Placed (isn : BitVec 32) (pieces : List Piece) (c : Core) : Prop where
  tracked : c.Synced → c.state ≠ .closed → ∃ k≤pieces.length, c.rcvNxt = startOf isn pieces k
  acks : ∀ n, Acknowledged c.log n → ∃ k≤pieces.length, n = startOf isn pieces k
  upTo : c.Open → ∀ n, Acknowledged c.log n → n.toNat ≤ c.rcvNxt.toNat

section

variable {isn : BitVec 32} {pieces : List Piece} {strict trusted : Prop} {rx : Option Arrival}
  {c d : Core}

theorem Acknowledged.mono {log log' : List Output} {n : BitVec 32} (h : Acknowledged log n)
    (hl : log <+: log') : Acknowledged log' n := by
  obtain ⟨dst,hd,data,hm,ho,hn⟩ := h
  exact ⟨dst,hd,data,hl.subset hm,ho,hn⟩

theorem Micro.shut (h : Micro strict trusted rx c d) (hc : c.Shut) : d.Shut := by
  obtain ⟨hdetached,hrefusing⟩ := hc
  cases h with
  | connect _ _ asked =>
    subst asked
    exact ⟨fun hle => absurd hle (show ¬TcpState.closing ≤ .synSent by decide),
      fun hd => by rcases hd with hd | hd <;> cases hd⟩
  | listened _ _ _ called =>
    subst called
    exact ⟨fun hle => absurd hle (show ¬TcpState.closing ≤ .synRcvd by decide),
      fun hd => by rcases hd with hd | hd <;> cases hd⟩
  | acceptFirst | established | synced | syncedEarly =>
    exact ⟨fun hle => absurd hle (show ¬TcpState.closing ≤ .established by decide),
      fun hd => by rcases hd with hd | hd <;> cases hd⟩
  | closing => exact ⟨fun _ => rfl,fun _ => ⟨show ShutdownMode.graceful ≠ .none by decide,rfl⟩⟩
  | fin waiting => exact ⟨fun _ => hdetached (waiting ▸ le_refl _),fun _ => hrefusing (.inl waiting)⟩
  | abort | closed | report => exact ⟨fun _ => rfl,fun hd => by rcases hd with hd | hd <;> cases hd⟩
  | accepted connected =>
    refine ⟨fun hle => absurd (connected ▸ hle) (show ¬TcpState.closing ≤ .established by decide),
      hrefusing⟩
  | _ => exact ⟨hdetached,hrefusing⟩

theorem Core.Delivery.shut {buf : List Byte} (h : c.Delivery buf d) (hc : c.Shut) : d.Shut := by
  obtain ⟨-,-,_,_,_,-,-,-,-,rfl⟩ := h
  exact ⟨hc.detached,hc.refusing⟩

section
variable (h : Micro strict trusted rx c d)
include h

theorem Micro.acknowledged {n : BitVec 32} (hn : Acknowledged d.log n) :
    Acknowledged c.log n ∨ n=d.rcvNxt ∧ d.state ≠ .closed := by
  obtain ⟨dst,hd,data,hm,ho,rfl⟩ := hn
  rcases h.mem_log hm with hm | he
  · exact .inl ⟨dst,hd,data,hm,ho,rfl⟩
  · cases he with
    | note plain => cases plain
    | ack _ ackno opened => exact .inr ⟨ackno,opened⟩
    | segment _ ackno opened => exact .inr ⟨ackno,opened⟩
    | finAck _ control | rst _ control | fin _ control =>
      rw [control] at ho
      cases ho

theorem Micro.open_of_open (hc : c.Synced) (hd : d.Open) : c.Open := by
  cases h with
  | connect fresh => exact absurd hc (Core.not_synced_of_state fresh (by decide))
  | listened _ _ listening => exact absurd hc (Core.not_synced_of_state listening (by decide))
  | synced _ _ waiting | syncedEarly _ _ waiting =>
    exact absurd hc (Core.not_synced_of_state waiting (by decide))
  | acceptFirst _ _ _ _ _ waiting | established waiting => exact .inl waiting
  | closing | fin | abort | closed | report => rcases hd with hd | hd <;> cases hd
  | _ => exact hd

theorem Micro.rcvNxt_mono (hs : Sound isn pieces)
    (hf : ∀ a∈rx, Faithful isn pieces a) (hr : Reads isn pieces c) (hp : ∀ a∈rx, c.Placeable a)
    (hc : c.Open) (hd : d.Open) : c.rcvNxt.toNat≤d.rcvNxt.toNat := by
  cases h with
  | @insert a seqno data arrival control _ remains =>
    exact (hr.insert hs (hf a arrival) (hp a arrival) control remains).2.2 hc
  | @skip a seqno data arrival ordinary _ remains here =>
    obtain ⟨k,unread,parked,hk⟩ := hr.assembled hc
    obtain ⟨-,hnext⟩ := remains.next hs (hf a arrival) ordinary hk.rcvNxt here
    rw [hnext,hk.rcvNxt]
    exact hs.startOf_mono (Nat.le_succ k)
  | connect _ _ asked =>
    subst asked
    rcases hd with hd | hd <;> cases hd
  | listened _ _ listening => exact absurd hc.synced (Core.not_synced_of_state listening (by decide))
  | synced _ _ waiting | syncedEarly _ _ waiting =>
    exact absurd hc.synced (Core.not_synced_of_state waiting (by decide))
  | _ => exact le_rfl

theorem Micro.placed (hshut : c.Shut) (hs : Sound isn pieces)
    (hf : ∀ a∈rx, Faithful isn pieces a) (hr : Reads isn pieces c) (hp : ∀ a∈rx, c.Placeable a)
    (hquiet : ¬c.Synced → ∀ n, ¬Acknowledged c.log n) (hquiet' : ¬d.Synced → ∀ n, ¬Acknowledged d.log n)
    (hrd : Reads isn pieces d) (hc : Placed isn pieces c) : Placed isn pieces d := by
  have htracked : d.Synced → d.state ≠ .closed → ∃ k≤pieces.length, d.rcvNxt = startOf isn pieces k := by
    intro hsynced hlive
    by_cases hopen : d.Open
    · obtain ⟨k,unread,parked,hk⟩ := hrd.assembled hopen
      exact ⟨k,hk.le_length,hk.rcvNxt⟩
    have hold := hc.tracked
    cases h with
    | connect _ _ asked =>
      subst asked
      exact absurd hsynced (show ¬TcpState.synRcvd ≤ .synSent by decide)
    | listened _ _ _ called =>
      subst called
      exact absurd (.inl rfl) hopen
    | acceptFirst | established | synced | syncedEarly => exact absurd (.inr rfl) hopen
    | abort | closed | report => exact absurd rfl hlive
    | closing connected live => exact hold (le_trans (by decide) connected) live
    | fin waiting => exact hold (by rw [Core.Synced,waiting]; decide) (by rw [waiting]; decide)
    | insert _ _ reading =>
      have hclosing : c.state = .closing ∨ c.state = .watingFinAck := by
        revert hsynced hlive hopen
        show TcpState.synRcvd ≤ c.state → c.state ≠ .closed →
          ¬(c.state = .synRcvd ∨ c.state = .established) → _
        cases c.state <;> decide
      exact absurd reading (hshut.refusing hclosing).1
    | @skip a seqno data arrival ordinary _ remains here =>
      obtain ⟨k,-,hnxt⟩ := hold hsynced hlive
      obtain ⟨hpiece,hnext⟩ := remains.next hs (hf a arrival) ordinary hnxt here
      exact ⟨k+1,(List.getElem?_eq_some_iff.mp hpiece).1,hnext⟩
    | _ => exact hold hsynced hlive
  refine ⟨htracked,fun n hn => ?_,fun hopen n hn => ?_⟩
  · rcases h.acknowledged hn with hn | ⟨rfl,hlive⟩
    · exact hc.acks n hn
    · exact htracked (not_not.mp fun hns => hquiet' hns _ hn) hlive
  · rcases h.acknowledged hn with hn | ⟨rfl,-⟩
    · have hopen' := h.open_of_open (not_not.mp fun hns => hquiet hns _ hn) hopen
      exact (hc.upTo hopen' n hn).trans (h.rcvNxt_mono hs hf hr hp hopen' hopen)
    · exact le_rfl

end

theorem Core.Delivery.placed {buf : List Byte} (h : c.Delivery buf d) (hc : Placed isn pieces c) :
    Placed isn pieces d := by
  have hlog (n : BitVec 32) : Acknowledged d.log n ↔ Acknowledged c.log n := by
    simp only [Acknowledged,h.mem_log]
  obtain ⟨-,-,_,_,_,-,-,-,-,rfl⟩ := h
  exact ⟨hc.tracked,fun n hn => hc.acks n ((hlog n).mp hn),
    fun hopen n hn => hc.upTo hopen n ((hlog n).mp hn)⟩

theorem Placed.append_pieces (h : Placed isn pieces c) (more : List Piece) :
    Placed isn (pieces++more) c := by
  have hgrow {n : BitVec 32} (hn : ∃ k≤pieces.length, n = startOf isn pieces k) :
      ∃ k ≤ (pieces++more).length, n = startOf isn (pieces++more) k := by
    obtain ⟨k,hk,rfl⟩ := hn
    refine ⟨k,hk.trans ?_,(startOf_append isn hk more).symm⟩
    rw [List.length_append]
    exact Nat.le_add_right _ _
  exact ⟨fun hs hlive => hgrow (h.tracked hs hlive),fun n hn => hgrow (h.acks n hn),h.upTo⟩

theorem System.Met.unspoken {addr : Side → Endpoint} {side : Side} {peer : Core}
    (h : System.Met (addr .acceptor) side c peer) (hs : ¬c.Synced) (n : BitVec 32) :
    ¬Acknowledged c.log n := by
  rintro ⟨dst,hd,data,hm,ho,-⟩
  have hrst : hd.control ≠ .rst := by
    intro hc
    rw [hc] at ho
    cases ho
  cases side with
  | connector =>
    refine (Handshake.silent h hs).1 ⟨dst,_,hm,fun hc => ?_,hrst⟩
    rw [show hd.control = .connect from hc] at ho
    cases ho
  | acceptor =>
    obtain ⟨-,hunanswered,-⟩ := Handshake.listening h (h.listening hs)
    by_cases hc : hd.control = .connectAck
    · exact hunanswered ⟨dst,_,hm,hc⟩
    · exact hunanswered (Handshake.answered h (.inl (Handshake.spoken h (.inl ⟨dst,_,hm,hc,hrst⟩))))

end

/-! ### What the sender learns from them -/

/-- Everything below the number has been acknowledged, if there is anything. -/
def AckedTo (log : List Output) (isn n : BitVec 32) : Prop := n = isn ∨ Acknowledged log n

theorem AckedTo.mono {log log' : List Output} {isn n : BitVec 32} (h : AckedTo log isn n)
    (hl : log <+: log') : AckedTo log' isn n := h.imp_right fun h => h.mono hl

section

variable {isn : BitVec 32} {pieces acked : List Piece} {o : Outgoing}

theorem Unacked.toNat_sndUna (h : Unacked isn pieces acked o) (hs : Sound isn pieces) :
    o.sndUna.toNat = isn.toNat + total Piece.size acked ∧
      o.sndNxt.toNat = isn.toNat + total Piece.size acked + total SSegment.size o.retransSlist ∧
      o.sndNxt.toNat < 2^32 := by
  have htotal := h.total_pieces
  have hwrap : isn.toNat + total Piece.size pieces < 2^32 := hs.unwrapped
  refine ⟨?_,?_,BitVec.isLt _⟩
  · rw [h.sndUna]
    exact toNat_place isn (by omega)
  · rw [h.sndNxt,toNat_place isn hwrap]
    omega

theorem Unacked.boundary (h : Unacked isn pieces acked o) (hs : Sound isn pieces) {k : ℕ}
    (hk : k≤pieces.length) (above : modLess o.sndUna (startOf isn pieces k) = true)
    (upTo : modLessEqual (startOf isn pieces k) o.sndNxt = true) : o.Boundary (startOf isn pieces k) := by
  obtain ⟨huna,hnxt,hlt⟩ := h.toNat_sndUna hs
  have hstart := hs.toNat_startOf k
  have hoffset : offset pieces k =
      total Piece.size (acked.take k) + total SSegment.size (o.retransSlist.take (k - acked.length)) := by
    rw [offset,h.split,List.take_append,total_append,← List.map_take,total_piece]
  rw [modLess_iff,BitVec.toNat_sub] at above
  by_cases hle : acked.length≤k
  · refine ⟨k - acked.length,?_,?_⟩
    · have hlen := congrArg List.length h.split
      rw [List.length_append,List.length_map] at hlen
      omega
    · rw [List.take_of_length_le hle] at hoffset
      show _ = total SSegment.size (o.retransSlist.take (k - acked.length))
      rw [BitVec.toNat_sub]
      omega
  · -- an old acknowledgement half the ring away is not taken for a new one
    exfalso
    have htake : total Piece.size (acked.take k) ≤ total Piece.size acked := total_take_le acked k
    have hless : modLess o.sndNxt (startOf isn pieces k) = false := by
      exact Bool.not_eq_true' _ ▸ upTo
    rw [Nat.sub_eq_zero_of_le (Nat.le_of_not_le hle),List.take_zero,total_nil] at hoffset
    rw [← Bool.not_eq_true,modLess_iff,BitVec.toNat_sub] at hless
    omega

end

end P2Streaming.Urdp
