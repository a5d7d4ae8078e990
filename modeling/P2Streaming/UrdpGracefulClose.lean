import P2Streaming.UrdpAcknowledging

/-!
# A graceful close

A flow that is closed gracefully sends its `CTRL_FIN` once its peer has acknowledged
everything. The peer has then taken in every message, but what it has not handed to its
application yet is thrown away with the connection.
-/
namespace P2Streaming.Urdp
open BigEndianBytes TransitionRuns SerialNumbers ContiguousSegments Urdp.Flow List

structure Parting (log : List Output) (isn : BitVec 32) (pieces : List Piece) (c : Core) : Prop where
  sender : Sender isn pieces c
  una : AckedTo log isn c.snd.sndUna
  recover : 3 ≤ c.dupAcks.toNat → c.recover.toNat ≤ c.snd.sndNxt.toNat
  fin : ∀ dst h data, .datagram dst (.reliable h data) ∈ c.log → h.control = .fin →
    .watingFinAck ≤ c.state ∧ c.snd.retransSlist=[] ∧
    AckedTo log isn (place isn (total Piece.size pieces))

def Core.Settles (c : Core) (a : Arrival) : Prop :=
  a.header.control.ordinary=true → a.header.ackno=c.snd.sndNxt →
    (c.snd.sndNxt - c.snd.sndUna).toNat < 2^31

section

variable {isn : BitVec 32} {pieces : List Piece} {strict trusted : Prop} {rx : Option Arrival}
  {c d : Core}
  {log : List Output}

theorem Micro.sndUna_cases (h : Micro strict trusted rx c d) : d.snd.sndUna=c.snd.sndUna ∨
    ∃ a∈rx, a.header.control.ordinary=true ∧ d.snd.sndUna=a.header.ackno := by
  cases h with
  | accept arrival ordinary | acceptFirst arrival ordinary => exact .inr ⟨_,arrival,ordinary,rfl⟩
  | send _ _ queued =>
    subst queued
    exact .inl (by simp [Core.sentOut,Outgoing.drained])
  | ping => exact .inl (by simp [Core.sentOut,Outgoing.drained])
  | connect _ _ asked =>
    subst asked
    exact .inl (by simp [Core.sentOut,Outgoing.drained])
  | listened _ _ _ called =>
    subst called
    exact .inl (by simp [Core.sentOut,Outgoing.drained])
  | _ => exact .inl rfl

theorem Micro.sndNxt_cases (h : Micro True trusted rx c d) :
    d.snd.sndNxt=c.snd.sndNxt ∨ c.state ≠ .closed ∧ d.state ≠ .closed := by
  cases h with
  | retransmit _ counted => exact .inl (if_neg (counted trivial))
  | send established | ping established =>
    exact .inr ⟨by rw [established]; decide,by show c.state ≠ _; rw [established]; decide⟩
  | connect fresh _ asked =>
    subst asked
    exact .inr ⟨by rw [fresh]; decide,show TcpState.synSent ≠ .closed by decide⟩
  | listened _ _ listening called =>
    subst called
    exact .inr ⟨by rw [listening]; decide,show TcpState.synRcvd ≠ .closed by decide⟩
  | _ => exact .inl rfl

section
variable (h : Micro strict trusted rx c d)
include h

theorem Micro.recover_cases (hd : 3≤d.dupAcks.toNat) :
    3 ≤ c.dupAcks.toNat ∧ d.recover=c.recover ∨ d.recover=c.snd.sndNxt := by
  cases h with
  | dupAcks n recover _ recovering => exact recovering hd
  | connect _ _ asked =>
    subst asked
    exact .inl ⟨hd,rfl⟩
  | listened _ _ _ called =>
    subst called
    exact .inl ⟨hd,rfl⟩
  | acceptFirst => exact absurd hd (show ¬3 ≤ (0 : BitVec 8).toNat by decide)
  | _ => exact .inl ⟨hd,rfl⟩

theorem Micro.fin_cases (hw : d.WellSent) {dst : Endpoint} {hd : ReliableHeader}
    {data : List Byte} (hm : .datagram dst (.reliable hd data) ∈ d.log) (hfin : hd.control = .fin) :
    .datagram dst (.reliable hd data) ∈ c.log ∨ c.state = .closing ∧ d.state = .watingFinAck := by
  refine (h.mem_log hm).imp_right fun he => ?_
  cases he with
  | note plain => cases plain
  | fin _ _ waiting after => exact ⟨waiting,after⟩
  | ack _ _ _ control | finAck _ control | rst _ control => cases hfin.symm.trans control
  | segment _ _ _ mem =>
    obtain ⟨seg,hseg,hcontrol,-⟩ := mem
    have hsegment := hw.segments seg hseg
    rw [← hcontrol,hfin] at hsegment
    cases hsegment

theorem Micro.finished (hshut : c.Shut) (hstate : .watingFinAck ≤ c.state)
    (hnil : c.snd.retransSlist=[]) : .watingFinAck ≤ d.state ∧ d.snd.retransSlist=[] := by
  have hlate {s : TcpState} (hc : c.state=s) (hs : ¬.watingFinAck ≤ s) : False := hs (hc ▸ hstate)
  cases h with
  | connect fresh => exact (hlate fresh (by decide)).elim
  | listened _ _ listening => exact (hlate listening (by decide)).elim
  | send established | ping established => exact (hlate established (by decide)).elim
  | acceptFirst _ _ _ _ _ waiting | established waiting | fin waiting =>
    exact (hlate waiting (by decide)).elim
  | synced _ _ waiting | syncedEarly _ _ waiting => exact (hlate waiting (by decide)).elim
  | closing _ live first =>
    have hwaiting : c.state = .watingFinAck := by
      revert hstate live
      cases c.state <;> decide
    rw [(hshut.refusing (.inr hwaiting)).2] at first
    cases first
  | abort | closed | report => exact ⟨show TcpState.watingFinAck ≤ .closed by decide,rfl⟩
  | retransmit oldest =>
    rw [hnil] at oldest
    cases oldest
  | accept =>
    refine ⟨hstate,?_⟩
    show popAcked _ c.snd.retransSlist = []
    rw [hnil,popAcked]
  | punch _ _ same =>
    rcases same with rfl | ⟨seg,hseg,-⟩
    · exact ⟨hstate,hnil⟩
    · rw [hnil] at hseg
      cases hseg
  | _ => exact ⟨hstate,hnil⟩

end

theorem Sender.toNat_sndNxt (h : Sender isn pieces c) (hs : Sound isn pieces) (live : c.state ≠ .closed) :
    c.snd.sndNxt.toNat = isn.toNat + total Piece.size pieces := by
  obtain ⟨acked,hu⟩ := h.queue live
  rw [hu.sndNxt]
  exact toNat_place isn hs.unwrapped

theorem Unacked.nothing_left {acked : List Piece} {o : Outgoing} (h : Unacked isn pieces acked o)
    (hs : Sound isn pieces) (hsettles : (o.sndNxt - o.sndUna).toNat < 2^31)
    (hall : o.sndUna=o.sndNxt ∨ modLess o.sndUna o.sndNxt = false) : o.retransSlist=[] := by
  obtain ⟨huna,hnxt,hlt⟩ := h.toNat_sndUna hs
  have hzero : total SSegment.size o.retransSlist = 0 := by
    rcases hall with heq | hless
    · rw [heq] at huna
      omega
    · rw [← Bool.not_eq_true,modLess_iff] at hless
      rw [BitVec.toNat_sub] at hsettles hless
      omega
  rcases hl : o.retransSlist with _ | ⟨seg,rest⟩
  · rfl
  · have hpiece : seg.piece∈pieces := by
      rw [h.split,hl]
      simp
    have hpos : 0<seg.size := length_pos_iff.mpr (hs.sizes _ hpiece).1
    rw [hl,total_cons] at hzero
    omega

theorem Micro.parting (h : Micro True trusted rx c d) (hl : c.Local) (hun : c.Unsent) (hshut : c.Shut)
    (hw : d.WellSent) (hfit : SeqnosFit d.log)
    (hacks : ∀ a∈rx, a.header.control.ordinary=true → Acknowledged log a.header.ackno)
    (hplaced : ∀ n, Acknowledged log n → ∃ k≤pieces.length, n = startOf isn pieces k)
    (hsettles : ∀ a∈rx, c.Settles a) (hp : Parting log isn pieces c) :
    ∃ more, Parting log isn (pieces++more) d ∧ ∀ a∈rx, d.Settles a := by
  have hfit_c := hfit.of_prefix h.grows.log
  have hs := hp.sender.told.sound hfit_c
  obtain ⟨more,hsender,hmore⟩ := h.sender hl hun hp.sender
  have hmono : c.snd.sndNxt.toNat≤d.snd.sndNxt.toNat := by
    rcases h.sndNxt_cases with heq | ⟨hc,hd⟩
    · rw [heq]
    · rw [hp.sender.toNat_sndNxt hs hc,hsender.toNat_sndNxt (hsender.told.sound hfit) hd,total_append]
      omega
  refine ⟨more,⟨hsender,?_,fun hdup => ?_,fun dst hd data hm hfin => ?_⟩,fun a ha ho hack => ?_⟩
  · rcases h.sndUna_cases with heq | ⟨a,ha,ho,heq⟩
    · rw [heq]
      exact hp.una
    · rw [heq]
      exact .inr (hacks a ha ho)
  · rcases h.recover_cases hdup with ⟨hdup,heq⟩ | heq
    · rw [heq]
      exact (hp.recover hdup).trans hmono
    · rw [heq]
      exact hmono
  · rcases h.fin_cases hw hm hfin with hm | ⟨hc,hafter⟩
    · obtain ⟨hstate,hnil,hacked⟩ := hp.fin dst hd data hm hfin
      obtain ⟨hstate',hnil'⟩ := h.finished hshut hstate hnil
      refine ⟨hstate',hnil',?_⟩
      rwa [hmore (le_trans (by decide) hstate),append_nil]
    · rw [hmore hc.ge,append_nil]
      have live : c.state ≠ .closed := by rw [hc]; decide
      obtain ⟨acked,hu⟩ := hp.sender.queue live
      cases h with
      | fin _ _ done =>
        have hnil : c.snd.retransSlist=[] := by
          rcases done with hnil | ⟨a,ha,ho,hack,hall⟩
          · exact hnil
          · exact hu.nothing_left hs (hsettles a ha ho hack) hall
        have hsplit := hu.split
        rw [hnil,map_nil,append_nil] at hsplit
        refine ⟨le_refl _,hnil,?_⟩
        rw [hsplit,← hu.sndUna]
        exact hp.una
      | connect _ _ asked =>
        subst asked
        cases hafter
      | listened _ _ _ called =>
        subst called
        cases hafter
      | acceptFirst | established | synced | syncedEarly | closing | abort | closed | report =>
        cases hafter
      | _ => exact absurd (hc.symm.trans hafter) (by decide)
  · -- nothing was sent since the answer, so it is still one to everything in flight
    have hsame : d.snd.sndNxt=c.snd.sndNxt := by
      rcases h.sndNxt_cases with heq | ⟨hc,hd⟩
      · exact heq
      · obtain ⟨k,hk,hplace⟩ := hplaced _ (hacks a ha ho)
        have hle : offset pieces k ≤ total Piece.size pieces := total_take_le pieces k
        have hnum := congrArg BitVec.toNat (hack.symm.trans hplace)
        rw [hs.toNat_startOf] at hnum
        have hnxt := hp.sender.toNat_sndNxt hs hc
        exact BitVec.eq_of_toNat_eq (by omega)
    rcases h.sndUna_cases with heq | ⟨a',ha',-,heq⟩
    · rw [hsame,heq]
      exact hsettles a ha ho (hack.trans hsame)
    · rw [heq,Option.mem_unique ha' ha,hack,sub_self]
      decide

theorem Core.Delivery.parting {buf : List Byte} (h : c.Delivery buf d) (hp : Parting log isn pieces c) :
    Parting log isn pieces d := by
  have hsender := h.sender hp.sender
  have hlog : ∀ dst p, .datagram dst p ∈ d.log → .datagram dst p ∈ c.log := fun _ _ => h.mem_log.mp
  obtain ⟨-,-,_,_,_,-,-,-,-,rfl⟩ := h
  exact ⟨hsender,hp.una,hp.recover,fun dst hd data hm => hp.fin dst hd data (hlog _ _ hm)⟩

theorem Core.Delivery.settles {buf : List Byte} {a : Arrival} (h : c.Delivery buf d) (hs : c.Settles a) :
    d.Settles a := by
  obtain ⟨-,-,_,_,_,-,-,-,-,rfl⟩ := h
  exact hs

theorem Parting.mono {log' : List Output} (hp : Parting log isn pieces c) (hl : log <+: log') :
    Parting log' isn pieces c where
  sender := hp.sender
  una := hp.una.mono hl
  recover := hp.recover
  fin dst h data hm hfin := by
    obtain ⟨hstate,hnil,hacked⟩ := hp.fin dst h data hm hfin
    exact ⟨hstate,hnil,hacked.mono hl⟩

/-! ### Messages that reach the application -/

/-- What `on_received` was called with. -/
def handedMessages (log : List Output) : List (List Byte) :=
  log.filterMap fun
    | .callback (.onReceived buf) => some buf
    | _ => none

/-- Every reliable message that was read has been handed on, in order. -/
def HandsOn (log : List Output) : Prop := (recvdMessages log).Sublist (handedMessages log)

theorem handedMessages_append (l l' : List Output) :
    handedMessages (l++l') = handedMessages l ++ handedMessages l' := filterMap_append

theorem Micro.handsOn_steps (h : Relation.ReflTransGen (Micro strict trusted rx) c d) :
    recvdMessages d.log = recvdMessages c.log ∧
    (handedMessages c.log).Sublist (handedMessages d.log) := by
  induction h with
  | refl => exact ⟨rfl,List.Sublist.refl _⟩
  | tail _ hm ih =>
    obtain ⟨new,hnew⟩ := hm.grows.log
    refine ⟨hm.recvdMessages_log.trans ih.1,ih.2.trans ?_⟩
    rw [← hnew,handedMessages_append]
    exact sublist_append_left _ _

theorem Move.handsOn (h : Move strict trusted rx c d) (hc : HandsOn c.log) : HandsOn d.log := by
  cases h with
  | micro hm =>
    obtain ⟨hread,hhanded⟩ := Micro.handsOn_steps (.single hm)
    rw [HandsOn,hread]
    exact hc.trans hhanded
  | @handover c₁ c₂ buf taken quiet =>
    obtain ⟨hread,hhanded⟩ := Micro.handsOn_steps quiet
    obtain ⟨-,-,_,_,_,-,-,-,-,rfl⟩ := taken
    show (recvdMessages (c₂.log ++ [.callback (.onReceived buf)])).Sublist
      (handedMessages (c₂.log ++ [.callback (.onReceived buf)]))
    rw [recvdMessages_append,hread,handedMessages_append]
    rw [recvdMessages_append,append_assoc]
    rw [handedMessages_append] at hhanded
    refine List.Sublist.append ?_ (List.Sublist.refl [buf])
    exact hc.trans ((sublist_append_left _ _).trans hhanded)

theorem recvdMessages_of_acknowledged {log' : List Output} (hs : Sound isn pieces)
    (hr : Reads isn pieces c) (hplaced : Placed isn pieces c) (hopen : c.Open) (hread : c.rlen=0)
    (hacked : AckedTo c.log isn (place isn (total Piece.size pieces)))
    (hstream : streamOf pieces = framesOf (sentMessages log'))
    (hfit : ∀ m ∈ sentMessages log', m.2.length<2^16) :
    recvdMessages c.log = (sentMessages log').map bodyOf := by
  obtain ⟨k,unread,parked,ha⟩ := hr.assembled hopen
  have hwrap : isn.toNat + total Piece.size pieces < 2^32 := hs.unwrapped
  have hnxt : c.rcvNxt.toNat = isn.toNat + total Piece.size (pieces.take k) := by
    rw [ha.rcvNxt,hs.toNat_startOf]
    rfl
  have hsplit : total Piece.size (pieces.take k) + total Piece.size (pieces.drop k) =
    total Piece.size pieces := by
    rw [← total_append,take_append_drop]
  have hrest : total Piece.size (pieces.drop k) = 0 := by
    rcases hacked with heq | hacked
    · have hzero := congrArg BitVec.toNat heq
      rw [toNat_place isn hwrap] at hzero
      omega
    · have hle := hplaced.upTo hopen _ hacked
      rw [toNat_place isn hwrap] at hle
      omega
  have hall : pieces.take k = pieces := by
    rcases hd : pieces.drop k with _ | ⟨p,rest⟩
    · rw [← take_append_drop k pieces,hd,append_nil,take_take,min_self]
    · have hp : p∈pieces := mem_of_mem_drop (hd ▸ mem_cons_self)
      have hpos : 0<p.size := length_pos_iff.mpr (hs.sizes p hp).1
      rw [hd,total_cons] at hrest
      omega
  have hunread : unread.flatMap RSegment.buf = [] := by
    rw [← length_eq_zero_iff,← ha.toNat_rlen hs,hread]
    rfl
  have hbytes := ha.bytes
  rw [hunread,append_nil,hall,hstream,framesOf_eq hfit] at hbytes
  have hframable : ∀ a ∈ (sentMessages log').map bodyOf, Framable a := by
    intro a ha
    obtain ⟨m,hm,rfl⟩ := mem_map.mp ha
    exact framable_bodyOf (hfit m hm)
  have hle := prefix_of_framed_prefix hr.framable hframable (hbytes ▸ prefix_rfl)
  have hge := prefix_of_framed_prefix hframable hr.framable (hbytes ▸ prefix_rfl)
  exact hle.eq_of_length_le hge.length_le

end

/-! ### Reports of a lost connection -/

/-- What `on_disconnected` was called with. -/
def disconnectReports (log : List Output) : List (Option ErrorCode) :=
  log.filterMap fun
    | .callback (.onDisconnected ec) => some ec
    | _ => none

theorem disconnectReports_append (l l' : List Output) :
    disconnectReports (l++l') = disconnectReports l ++ disconnectReports l' := filterMap_append

namespace Flow

variable {f : Flow} {env : Env}

theorem reports_toClosedState (f : Flow) : disconnectReports f.toClosedState.log =
    disconnectReports f.log := by
  unfold toClosedState
  split
  · rfl
  · simp [disconnectReports]

theorem of_reports_allertDisconnected {ec : ErrorCode}
    (h : disconnectReports (f.allertDisconnected env (some ec)).log ≠ disconnectReports f.log) :
    f.ctl.socket=true ∧ .established ≤ f.ctl.state ∧ f.ctl.state ≠ .closed := by
  have htimed : ∃ more, (if some ec = some .timedOut then f.emit .timedOut else f) =
    { f with log := f.log ++ more } ∧
      disconnectReports more = [] := by
    split
    · exact ⟨[.timedOut],rfl,rfl⟩
    · exact ⟨[],by simp,rfl⟩
  obtain ⟨more,hmore,hnone⟩ := htimed
  unfold allertDisconnected at h
  rw [hmore] at h
  by_cases hheld : !f.ctl.socket ∨ f.ctl.canceled
  · rw [if_pos hheld,reports_toClosedState,disconnectReports_append,hnone,append_nil] at h
    exact absurd rfl h
  rw [if_neg hheld,reports_toClosedState] at h
  have hsocket : f.ctl.socket=true := by
    rw [← Bool.not_eq_false]
    exact fun hs => hheld (.inl (by rw [hs]; rfl))
  by_cases hlive : !f.ctl.disconnLocal ∧ f.ctl.state ≠ .closed
  · by_cases hstate : .established ≤ f.ctl.state
    · exact ⟨hsocket,hstate,hlive.2⟩
    · rw [if_pos hlive,if_neg hstate] at h
      refine absurd ?_ h
      split
      · show disconnectReports (f.log ++ more ++ [.callback (.onConnected (some ec))]) = _
        rw [disconnectReports_append,disconnectReports_append,hnone,append_nil]
        exact append_nil _
      · simp [disconnectReports_append,hnone]
  · rw [if_neg hlive,disconnectReports_append,hnone,append_nil] at h
    exact absurd rfl h

theorem of_reports_fin {h : ReliableHeader} {data : List Byte} {src : Endpoint} (hfin : h.control = .fin)
    (hr : disconnectReports (f.step env (.received (Packet.reliable h data).encode src)).log ≠
      disconnectReports f.log) :
    f.ctl.socket=true ∧ .established ≤ f.ctl.state ∧ f.ctl.state ≠ .closed := by
  have hrel : h.control ≠ .unreliableData := by
    rw [hfin]
    decide
  have hsemi : h.control ≠ .semireliableData := by
    rw [hfin]
    decide
  unfold step onReceived at hr
  by_cases hfault : f.fault.isSome
  · rw [if_pos hfault] at hr
    exact absurd rfl hr
  rw [if_neg hfault] at hr
  dsimp only at hr
  rw [f.process_encode env data src hrel hsemi] at hr
  by_cases hclosed : f.ctl.state = .closed
  · rw [if_pos hclosed] at hr
    exact absurd rfl hr
  by_cases hrejects : f.rejects h.toHeader src
  · rw [if_neg hclosed,if_pos hrejects] at hr
    refine absurd ?_ hr
    dsimp only
    split
    · rfl
    · simp [packetAsReliableAndSendout,disconnectReports]
  rw [if_neg hclosed,if_neg hrejects,processReliable] at hr
  simp only [hfin] at hr
  let g := { f.noteHeader env h.toHeader with ctl.disconnRemote := true }.packetAsReliableAndSendout
    env f.snd.sndNxt .finAck []
  have hlog : disconnectReports g.log = disconnectReports f.log := by
    simp [g,packetAsReliableAndSendout,noteHeader,disconnectReports]
  rw [← hlog] at hr
  exact of_reports_allertDisconnected (f := g) hr

end Flow

/-! ### Two flows -/

namespace System

variable (addr : Side → Endpoint) (side : Side)

/-- What keeps a graceful close of the peer from losing messages. -/
structure CloseSafe (s : System) (e : SystemEvent) : Prop where
  fits : s.SegmentFits addr side e
  /-- A `CTRL_FIN` finds everything read. -/
  read : ∀ env h data, e = .deliver side env (.reliable h data) → h.control = .fin →
    (s side).ctl.state = .established → (s side).ctl.socket = true → (s side).rcv.rlen = 0
  /-- No segment of the peer has been transmitted 256 times. -/
  counted : ∀ env, (e = .act side.peer env .clock ∨ ∃ p, e = .deliver side.peer env p) →
    ∀ seg ∈ (s side.peer).snd.retransSlist, seg.xmit≠0
  /-- An answer to everything in flight finds less than half the ring there. -/
  settles : ∀ env h data, e = .deliver side.peer env (.reliable h data) →
    (s side.peer).core.Settles ⟨h,data,addr side⟩

/-- What the two flows know of each other while one of them may be leaving. -/
structure Leaving (isn : BitVec 32) (s : System) : Prop where
  locals : ∀ side, (s side).core.Local
  wellSent : ∀ side, (s side).core.WellSent
  unsent : ∀ side, (s side).core.Unsent
  shut : ∀ side, (s side).core.Shut
  met : Met (addr .acceptor) side (s side).core (s side.peer).core
  greeted : ∃ pieces, Transcript isn pieces (s side.peer).core
  handsOn : HandsOn (s side).log
  stream : ∃ pieces, Parting (s side).log isn pieces (s side.peer).core ∧ Reads isn pieces (s side).core ∧
    Placed isn pieces (s side).core

namespace Leaving

variable {addr : Side → Endpoint} {side : Side} {isn : BitVec 32} {s : System}

open Conversing (peer_peer)

section
variable (h : Leaving addr side isn s)
include h

theorem acknowledged {x : Arrival}
    (hx : Heard (s side).log (addr side.peer) (addr side) x) (ho : x.header.control.ordinary=true) :
    Acknowledged (s side).log x.header.ackno := by
  obtain ⟨hm,-,-⟩ := Heard.reliable hx (h.wellSent side)
    (by constructor <;> intro hc <;> rw [hc] at ho <;> cases ho)
  exact ⟨_,_,_,hm,ho,rfl⟩

theorem sender_admits (env : Env) {ev : Event}
    (heard : ∀ x∈ev.arrival, Heard (s side).log (addr side.peer) (addr side) x)
    (hcounted : ev = .clock ∨ ev.arrival.isSome=true → ∀ seg ∈ (s side.peer).snd.retransSlist, seg.xmit≠0)
    (hfit : SeqnosFit (s side.peer).log) : (s side.peer).Admits True False env ev := by
  obtain ⟨pieces,hp,-,hplaced⟩ := h.stream
  have hs := hp.sender.told.sound hfit
  refine admits_of_sender hp.sender env (fun live x hx ho above upTo => ?_)
    (fun x hx ho hack hdup => ?_) hcounted
  · obtain ⟨acked,hu⟩ := hp.sender.queue live
    obtain ⟨k,hk,hack⟩ := hplaced.acks _ (h.acknowledged (heard x hx) ho)
    rw [hack] at above upTo ⊢
    exact hu.boundary hs hk above upTo
  · exact hp.recover hdup

theorem sender_step (env : Env) {ev : Event}
    (heard : ∀ x∈ev.arrival, Heard (s side).log (addr side.peer) (addr side) x)
    (hcounted : ev = .clock ∨ ev.arrival.isSome=true → ∀ seg ∈ (s side.peer).snd.retransSlist, seg.xmit≠0)
    (hsettles : ∀ x∈ev.arrival, (s side.peer).core.Settles x)
    (hfit : SeqnosFit ((s side.peer).step env ev).log) :
      Leaving addr side isn (s.next side.peer env ev) := by
  have hgrows := Move.steps_grow (step_moves env ((s side.peer).admits_loose env ev) (h.locals side.peer))
  have hmoves := step_moves env (h.sender_admits env heard hcounted (hfit.of_prefix hgrows.log))
  obtain ⟨pieces,hp,hr,hplaced⟩ := h.stream
  obtain ⟨hl,⟨hmet,hw,hun,hshut,hgreeted⟩,hparting⟩ := hmoves.keeps
    (fun c => (Met (addr .acceptor) side.peer c (s side).core ∧ c.WellSent ∧ c.Unsent ∧ c.Shut ∧
        ∃ pieces, Transcript isn pieces c) ∧
      (SeqnosFit c.log → ∃ more, Parting (s side).log isn (pieces++more) c ∧ ∀ x∈ev.arrival, c.Settles x))
    (fun c d hl hm ⟨⟨hmet,hw,hun,hshut,pieces',ht⟩,hc⟩ => by
      obtain ⟨more',ht'⟩ := hm.transcript hl hun ht
      refine ⟨⟨hmet.step hl heard hm,hm.wellSent hl hw,hm.unsent hun,hm.shut hshut,_,ht'⟩,fun hfit => ?_⟩
      obtain ⟨more,hp,hsettles⟩ := hc (hfit.of_prefix hm.grows.log)
      obtain ⟨more',hp',hsettles'⟩ := hm.parting hl hun hshut (hm.wellSent hl hw) hfit
        (fun x hx ho => h.acknowledged (heard x hx) ho) (hplaced.append_pieces more).acks hsettles hp
      rw [append_assoc] at hp'
      exact ⟨_,hp',hsettles'⟩)
    (fun c d buf _ hd ⟨⟨hmet,hw,_,hshut,pieces',ht⟩,hc⟩ => by
      refine ⟨⟨hmet.delivery hd,hd.wellSent hw,hd.unsent,hd.shut hshut,pieces',hd.transcript ht⟩,
        fun hfit => ?_⟩
      obtain ⟨more,hp,hsettles⟩ := hc fun dst hdr data hm => hfit dst hdr data (hd.mem_log.mpr hm)
      exact ⟨more,hd.parting hp,fun x hx => hd.settles (hsettles x hx)⟩)
    (h.locals side.peer) ⟨⟨h.met.swap,h.wellSent side.peer,h.unsent side.peer,h.shut side.peer,h.greeted⟩,
      fun _ => ⟨[],by rwa [append_nil],hsettles⟩⟩
  obtain ⟨more,hp',-⟩ := hparting hfit
  have hself := s.next_self side.peer env ev
  have hpeer := s.next_peer side.peer env ev
  rw [peer_peer] at hpeer
  refine ⟨next_forall h.locals hl,next_forall h.wellSent hw,next_forall h.unsent hun,
    next_forall h.shut hshut,?_,?_,?_,pieces++more,?_,?_,?_⟩
  · have hswap := hmet.swap
    rw [peer_peer] at hswap
    rwa [hself,hpeer]
  · rwa [hself]
  · rw [hpeer]
    exact h.handsOn
  · rwa [hself,hpeer]
  · rw [hpeer]
    exact hr.append_pieces more
  · rw [hpeer]
    exact hplaced.append_pieces more

theorem receiver_step (env : Env) {ev : Event}
    (heard : ∀ x∈ev.arrival, Heard (s side.peer).log (addr side) (addr side.peer) x)
    (hplace : ∀ x∈ev.arrival, (s side).core.Placeable x) (hfit : SeqnosFit (s side.peer).log) :
    Leaving addr side isn (s.next side env ev) := by
  obtain ⟨pieces,hp,hr,hplaced⟩ := h.stream
  obtain ⟨pieces',ht⟩ := h.greeted
  have hs := hp.sender.told.sound hfit
  have hfaithful : ∀ x∈ev.arrival, Faithful isn pieces x :=
    fun x hx => Heard.faithful (heard x hx) (h.wellSent side.peer) hp.sender.told ht.greeted
  have hmoves := step_moves env ((s side).admits_loose env ev)
  have hgrows := Move.steps_grow (hmoves (h.locals side))
  have hhands : HandsOn ((s side).step env ev).log :=
    invariant_of_steps (fun c => HandsOn c.log) (fun _ _ hm => hm.handsOn)
      (hmoves (h.locals side)) h.handsOn
  obtain ⟨hl,hmet,hw,hun,hshut,hr',hplace',hplaced'⟩ := hmoves.keeps
    (fun c => Met (addr .acceptor) side c (s side.peer).core ∧ c.WellSent ∧ c.Unsent ∧ c.Shut ∧
      Reads isn pieces c ∧ (∀ x∈ev.arrival, c.Placeable x) ∧ Placed isn pieces c)
    (fun c d hl hm ⟨hmet,hw,hun,hshut,hr,hplace,hplaced⟩ => by
      obtain ⟨hr',hplace'⟩ := hm.reads hl hmet.blank hs hfaithful hr hplace
      have hmet' := hmet.step hl heard hm
      exact ⟨hmet',hm.wellSent hl hw,hm.unsent hun,hm.shut hshut,hr',hplace',
        hm.placed hshut hs hfaithful hr hplace hmet.unspoken hmet'.unspoken hr' hplaced⟩)
    (fun c d buf _ hd ⟨hmet,hw,_,hshut,hr,hplace,hplaced⟩ => by
      obtain ⟨hr',hplace'⟩ := hd.reads hs hr hplace
      exact ⟨hmet.delivery hd,hd.wellSent hw,hd.unsent,hd.shut hshut,hr',hplace',hd.placed hplaced⟩)
    (h.locals side) ⟨h.met,h.wellSent side,h.unsent side,h.shut side,hr,hplace,hplaced⟩
  have hself := s.next_self side env ev
  have hpeer := s.next_peer side env ev
  refine ⟨next_forall h.locals hl,next_forall h.wellSent hw,next_forall h.unsent hun,
    next_forall h.shut hshut,?_,?_,?_,pieces,?_,?_,?_⟩
  · rwa [hself,hpeer]
  · rw [hpeer]
    exact ⟨pieces',ht⟩
  · rwa [hself]
  · rw [hself,hpeer]
    exact hp.mono hgrows.log
  · rwa [hself]
  · rwa [hself]

theorem step {e : SystemEvent} (safe : s.CloseSafe addr side e)
    (hfit : SeqnosFit (s.step addr e side.peer).log) : Leaving addr side isn (s.step addr e) := by
  rcases s.step_cases e with he | ⟨side',env,ev,he,heard,hev⟩
  · rwa [he]
  rw [he] at hfit ⊢
  by_cases hside : side'=side
  · subst hside
    rw [next_peer] at hfit
    refine h.receiver_step env heard (fun x hx => ?_) hfit
    rcases hev with ⟨hn,-⟩ | ⟨p,rfl,hp,rfl⟩
    · rw [hn] at hx
      cases hx
    · obtain rfl : p.arrival (addr side'.peer) = x := Option.mem_some_iff.mp hx
      exact safe.fits.placeable (h.wellSent side'.peer) hp
  · obtain rfl := Side.eq_peer_of_ne hside
    rw [next_self] at hfit
    rw [peer_peer] at heard hev
    refine h.sender_step env heard (fun hev' => ?_) (fun x hx => ?_) hfit
    · rcases hev with ⟨hn,rfl⟩ | ⟨p,rfl,-⟩
      · refine safe.counted env (.inl ?_)
        rcases hev' with rfl | hsome
        · rfl
        · rw [hn] at hsome
          cases hsome
      · exact safe.counted env (.inr ⟨p,rfl⟩)
    · rcases hev with ⟨hn,-⟩ | ⟨p,rfl,hp,rfl⟩
      · rw [hn] at hx
        cases hx
      · obtain rfl : p.arrival (addr side) = x := Option.mem_some_iff.mp hx
        cases p with
        | reliable hd data =>
          rw [Packet.arrival_reliable]
          exact safe.settles env hd data rfl
        | unreliable hd pktID msgType data =>
          intro ho
          rw [Packet.arrival_control] at ho
          rcases (h.wellSent side).unreliable _ _ _ _ _ hp with hc | hc <;>
            rw [show (Packet.unreliable hd pktID msgType data).header.control = _ from hc] at ho <;>
              cases ho

end

end Leaving

variable {s : System}

theorem Start.leaving (h : s.Start) (addr : Side → Endpoint) (side : Side) :
    Leaving addr side (s side.peer).snd.sndUna s := by
  have hc := h.conversing addr side
  have hlog (side : Side) : (s side).core.log = [] := (h.created side).log_eq_nil
  have hsynced (side : Side) : ¬(s side).core.Synced := (h.created side).not_synced
  have hunacked (n : BitVec 32) : ¬Acknowledged (s side).core.log n := by
    rintro ⟨_,_,_,hm,-⟩
    rw [hlog] at hm
    exact absurd hm not_mem_nil
  refine ⟨hc.locals,hc.wellSent,hc.unsent,fun side => ?_,hc.met,
    ⟨[],(h.created side.peer).transcript⟩,?_,[],
    ⟨(h.created side.peer).sender,.inl rfl,?_,?_⟩,(h.created side).reads _,?_⟩
  · have hearly : ¬.closing ≤ (s side).core.state := fun hle => hsynced side (le_trans (by decide) hle)
    refine ⟨fun hle => absurd hle hearly,fun hstate => absurd ?_ hearly⟩
    rcases hstate with hstate | hstate
    · exact hstate.ge
    · rw [hstate]
      decide
  · rw [HandsOn,show (s side).log = [] from hlog side]
    exact List.Sublist.refl _
  · have hdup : (s side.peer).core.dupAcks = 0 := by
      rcases h.created side.peer with ⟨p,now,hf⟩ | ⟨p,remoteEdp,now,hf⟩ <;> rw [hf] <;> rfl
    rw [hdup]
    exact fun hthree => absurd hthree (by decide)
  · intro dst hd data hm
    rw [hlog] at hm
    exact absurd hm not_mem_nil
  · exact ⟨fun hs => absurd hs (hsynced side),fun n hn => absurd hn (hunacked n),
      fun hopen => absurd hopen.synced (hsynced side)⟩

theorem next_locals (h : ∀ side, (s side).core.Local) (side : Side) (env : Env) (ev : Event) :
    ∀ side', (s.next side env ev side').core.Local :=
  next_forall h ((step_moves env ((s side).admits_loose env ev)).keeps (fun _ => True)
    (fun _ _ _ _ _ => trivial) (fun _ _ _ _ _ _ => trivial) (h side) trivial).1

theorem step_log (h : ∀ side, (s side).core.Local) (addr : Side → Endpoint) (e : SystemEvent)
    (side : Side) : (∀ side, (s.step addr e side).core.Local) ∧
    (s side).log <+: (s.step addr e side).log := by
  rcases s.step_cases e with he | ⟨side',env,ev,he,-,-⟩
  · rw [he]
    exact ⟨h,prefix_rfl⟩
  · rw [he]
    refine ⟨next_locals h side' env ev,?_⟩
    by_cases hside : side=side'
    · subst hside
      rw [next_self]
      exact (Move.steps_grow (step_moves env ((s side).admits_loose env ev) (h side))).log
    · rw [next,Function.update_of_ne hside]

theorem run_leaving (addr : Side → Endpoint) (side : Side) (start : s.Start) {es : List SystemEvent}
    (hsafe : AlongRun (System.step addr) (CloseSafe addr side) s es)
    (hseq : SeqnosFit (s.run addr es side.peer).log) :
    Leaving addr side (s side.peer).snd.sndUna (s.run addr es) := by
  refine (invariant_of_run (fun t => (∀ side, (t side).core.Local) ∧
    (SeqnosFit (t side.peer).log → Leaving addr side (s side.peer).snd.sndUna t))
      (fun t e safe ⟨hl,ht⟩ => ?_) hsafe
    ⟨fun side => (start.created side).local,fun _ => start.leaving addr side⟩).2 hseq
  obtain ⟨hl',hlog⟩ := step_log hl addr e side.peer
  exact ⟨hl',fun hfit => (ht (hfit.of_prefix hlog)).step safe hfit⟩

/-- In a safe run a flow sends `CTRL_FIN` only when nothing is left to send or to send again, and a peer that
reports the end of the connection because of it has handed every message on by then. -/
theorem graceful_close_of_safe_run (addr : Side → Endpoint) (side : Side) {s : System} (start : s.Start)
    (es : List SystemEvent) (hsafe : AlongRun (System.step addr) (CloseSafe addr side) s es)
    (hseq : SeqnosFit (s.run addr es side.peer).log)
    (hsize : ∀ m ∈ sentMessages (s.run addr es side.peer).log, m.2.length≤65535) :
    (∀ dst h data, .datagram dst (.reliable h data) ∈ (s.run addr es side.peer).log → h.control = .fin →
      (s.run addr es side.peer).snd.slist = [] ∧ (s.run addr es side.peer).snd.retransSlist = []) ∧
    ∀ env h data, h.control = .fin → CloseSafe addr side (s.run addr es)
      (.deliver side env (.reliable h data)) →
      disconnectReports ((s.run addr es).step addr (.deliver side env (.reliable h data)) side).log ≠
        disconnectReports (s.run addr es side).log →
      ((sentMessages (s.run addr es side.peer).log).map bodyOf).Sublist
        (handedMessages (s.run addr es side).log) := by
  have h := run_leaving addr side start hsafe hseq
  generalize s.run addr es = t at *
  obtain ⟨pieces,hp,hr,hplaced⟩ := h.stream
  refine ⟨fun dst hd data hm hfin => ⟨(h.locals side.peer).drained,(hp.fin dst hd data hm hfin).2.1⟩,
    fun env hd data hfin safe hreport => ?_⟩
  by_cases hm : .datagram (addr side) (.reliable hd data) ∈ (t side.peer).log
  · rw [System.step,if_pos hm,next_self] at hreport
    obtain ⟨hsocket,hstate,hlive⟩ := of_reports_fin hfin hreport
    have hest : (t side).ctl.state = .established := by
      have hearly : ¬.closing ≤ (t side).ctl.state := fun hle => by
        have hdetached := (h.shut side).detached hle
        rw [core_socket,hsocket] at hdetached
        cases hdetached
      revert hstate hlive hearly
      cases (t side).ctl.state <;> decide
    have hread : recvdMessages (t side).log = (sentMessages (t side.peer).log).map bodyOf :=
      recvdMessages_of_acknowledged (hp.sender.told.sound hseq) hr hplaced (.inr hest)
        (safe.read env hd data rfl hfin hest hsocket) (hp.fin _ _ _ hm hfin).2.2 hp.sender.stream
        (fun m hm => Nat.lt_succ_of_le (hsize m hm))
    rw [← hread]
    exact h.handsOn
  · rw [System.step,if_neg hm] at hreport
    exact absurd rfl hreport

/-! ### A message, and the end of the connection -/

structure Idle (side : Side) (s : System) : Prop where
  rlist : (s side).rcv.rlist = []
  rlen : (s side).rcv.rlen = 0
  counted : ∀ seg ∈ (s side.peer).snd.retransSlist, seg.xmit≠0
  inFlight : ((s side.peer).snd.sndNxt - (s side.peer).snd.sndUna).toNat < 2^31

instance (side : Side) (s : System) : Decidable (Idle side s) :=
  decidable_of_iff ((s side).rcv.rlist = [] ∧ (s side).rcv.rlen = 0 ∧
    (∀ seg ∈ (s side.peer).snd.retransSlist, seg.xmit≠0) ∧
    ((s side.peer).snd.sndNxt - (s side.peer).snd.sndUna).toNat < 2^31)
    ⟨fun h => ⟨h.1,h.2.1,h.2.2.1,h.2.2.2⟩,fun h => ⟨h.rlist,h.rlen,h.counted,h.inFlight⟩⟩

theorem Idle.closeSafe {side : Side} (h : s.Idle side) (addr : Side → Endpoint) (e : SystemEvent) :
    CloseSafe addr side s e where
  fits := by
    cases e with
    | act side' env ev => trivial
    | deliver side' env p =>
      cases p with
      | unreliable hd pktID msgType data => trivial
      | reliable hd data =>
        intro _ _ _ _ _ x hx
        rw [core_rlist,h.rlist] at hx
        cases hx
  read _ _ _ _ _ _ _ := h.rlen
  counted _ _ := h.counted
  settles _ _ _ _ _ _ := h.inFlight

/-- The connector sends a message and closes once it is acknowledged. -/
def goodbye (before : List SystemEvent) : List SystemEvent :=
  greetings ++ [.deliver .acceptor stillEnv greetingAck] ++ before ++
    [.act .connector stillEnv (.op (.send [7] 3 .reliable)),
      .deliver .acceptor stillEnv (.reliable (sessionHeader .data 9 2 11 44) [0,1,0,3,7]),
      .deliver .acceptor stillEnv (.reliable (sessionHeader .data 9 2 11 44) [0,1,0,3,7]),
      .deliver .connector stillEnv (.reliable (sessionHeader .ack 7 1 44 16) []),
      .act .connector stillEnv (.op (.close true))]

def lastWord : SystemEvent := .deliver .acceptor stillEnv (.reliable (sessionHeader .fin 9 3 16 44) [])

/-- The acceptor reads the message when it comes. -/
theorem goodbye_hands_on :
    let s := twoFlows.run twoHosts (goodbye [])
    handedMessages (s .acceptor).log = [[0,3,7]] ∧
      disconnectReports (s.step twoHosts lastWord .acceptor).log = [some .connectionReset] ∧
      (s .connector).snd.retransSlist = [] ∧
      ((sentMessages (s .connector).log).map bodyOf).Sublist (handedMessages (s .acceptor).log) := by
  intro s
  have hidle : AlongRun (System.step twoHosts) (fun s _ => s.Idle .acceptor) twoFlows
    (goodbye []) := by decide +kernel
  have hlast : s.Idle .acceptor := by decide +kernel
  have hfin : .datagram ⟨2,2⟩ (.reliable (sessionHeader .fin 9 3 16 44) []) ∈
    (s .connector).log := by decide +kernel
  have hsafe : AlongRun (System.step twoHosts) (CloseSafe twoHosts .acceptor) twoFlows (goodbye []) :=
    hidle.imp_of_invariant (fun _ => True) (fun _ _ _ _ => trivial)
      (fun t e _ h => h.closeSafe twoHosts e) trivial
  have hmain := graceful_close_of_safe_run twoHosts .acceptor twoFlows_start (goodbye []) hsafe
    (ends_lt_of_all (by decide +kernel)) (by decide +kernel)
  have hreport : disconnectReports (s.step twoHosts lastWord .acceptor).log =
    [some .connectionReset] := by decide +kernel
  have hnew : disconnectReports (s.step twoHosts lastWord .acceptor).log ≠
    disconnectReports (s .acceptor).log := by
    decide +kernel
  refine ⟨by decide +kernel,hreport,(hmain.1 _ _ _ hfin rfl).2,?_⟩
  exact hmain.2 stillEnv (sessionHeader .fin 9 3 16 44) [] rfl (hlast.closeSafe _ _) hnew

/-- The application of the acceptor has paused receiving: the message is acknowledged, and lost. -/
theorem paused_message_lost :
    let s := twoFlows.run twoHosts (goodbye [.act .acceptor stillEnv (.op .blockReceiving)])
    twoFlows.Start ∧ (s .connector).snd.slist = [] ∧ (s .connector).snd.retransSlist = [] ∧
      sentMessages (s .connector).log = [(3, [7])] ∧
      handedMessages (s.step twoHosts lastWord .acceptor).log = [] ∧
      disconnectReports (s.step twoHosts lastWord .acceptor).log = [some .connectionReset] ∧
      (s.step twoHosts lastWord .acceptor).ctl.closeCalled = false ∧
      (s.step twoHosts lastWord .acceptor).ctl.state = .closed ∧
      (s.step twoHosts lastWord .acceptor).rcv.rlist = [] := by
  refine ⟨twoFlows_start,?_⟩
  decide +kernel

end System

end P2Streaming.Urdp
