import P2Streaming.UrdpReceiver
import P2Streaming.UrdpSenderQueue

/-!
# Reliable messages arrive in order

The receiver puts the stream of its peer together again and cuts it where the two bytes
of length say. So what it obtains are the first messages of its peer, as long as each
segment finds its place in `m_rlist`.
-/
namespace P2Streaming.Urdp
open BigEndianBytes TransitionRuns SerialNumbers ContiguousSegments Urdp.Flow List

/-! ### Messages in the stream -/

/-- A message as `__recv` returns it: the type in two bytes, then the payload. -/
def bodyOf (m : BitVec 16 × List Byte) : List Byte := beBytes 2 m.1.toNat ++ m.2

def messageOf (buf : List Byte) : BitVec 16 × List Byte :=
  (BitVec.ofNat 16 (beValue (buf.take 2)), buf.drop 2)

/-- Types and payloads of the messages that reliable calls of `__recv` have returned. -/
def obtainedMessages (log : List Output) : List (BitVec 16 × List Byte) :=
  (recvdMessages log).map messageOf

theorem messageOf_bodyOf (m : BitVec 16 × List Byte) : messageOf (bodyOf m) = m := by
  obtain ⟨msgType,buf⟩ := m
  have htype : beValue (beBytes 2 msgType.toNat) = msgType.toNat := beValue_beBytes msgType.isLt
  rw [messageOf,bodyOf,take_left' (length_beBytes 2 _),drop_left' (length_beBytes 2 _),htype,
    BitVec.ofNat_toNat,BitVec.setWidth_eq]

theorem framable_bodyOf {m : BitVec 16 × List Byte} (h : m.2.length<2^16) : Framable (bodyOf m) := by
  rw [Framable,bodyOf,length_append,length_beBytes]
  omega

theorem framed_bodyOf {m : BitVec 16 × List Byte} (h : m.2.length<2^16) :
    framed (bodyOf m) = frame m.1 m.2 := by
  have hlen : (bodyOf m).length - 2 = m.2.length := by
    rw [bodyOf,length_append,length_beBytes]
    omega
  rw [framed,hlen,frame,Nat.mod_eq_of_lt h,take_length,bodyOf,append_assoc]

theorem framesOf_eq {messages : List (BitVec 16 × List Byte)} (h : ∀ m∈messages, m.2.length<2^16) :
    framesOf messages = (messages.map bodyOf).flatMap framed := by
  rw [framesOf,flatMap_map]
  exact flatMap_congr fun m hm => (framed_bodyOf (h m hm)).symm

theorem eq_of_framed_append {a b l l' : List Byte} (ha : Framable a) (hb : Framable b)
    (h : framed a ++ l = framed b ++ l') : a=b := by
  have hlen : a.length=b.length := by
    have htwo := congrArg (List.take 2) h
    rw [framed,framed,append_assoc,append_assoc,take_left' (length_beBytes 2 _),
      take_left' (length_beBytes 2 _)] at htwo
    have hvalue := congrArg beValue htwo
    rw [beValue_beBytes (by rw [Framable] at ha; omega),
      beValue_beBytes (by rw [Framable] at hb; omega)] at hvalue
    rw [Framable] at ha hb
    omega
  have hframed : framed a = framed b := by
    refine (append_inj h ?_).1
    rw [framed,framed,length_append,length_append,length_beBytes,length_beBytes,hlen]
  exact (append_inj hframed (by rw [length_beBytes,length_beBytes])).2

theorem prefix_of_framed_prefix {l l' : List (List Byte)} (hl : ∀ a∈l, Framable a)
    (hl' : ∀ a∈l', Framable a) (h : l.flatMap framed <+: l'.flatMap framed) : l <+: l' := by
  induction l generalizing l' with
  | nil => exact nil_prefix
  | cons a l ih =>
    cases l' with
    | nil =>
      rw [flatMap_nil,prefix_nil,flatMap_cons,append_eq_nil_iff] at h
      have hlen := congrArg List.length h.1
      rw [framed,length_append,length_beBytes] at hlen
      simp at hlen
    | cons b l' =>
      obtain ⟨rest,heq⟩ := h
      rw [flatMap_cons,flatMap_cons,append_assoc] at heq
      obtain rfl := eq_of_framed_append (hl a mem_cons_self) (hl' b mem_cons_self) heq
      refine prefix_cons_inj a |>.mpr (ih (fun x hx => hl x (mem_cons_of_mem _ hx))
        (fun x hx => hl' x (mem_cons_of_mem _ hx)) ⟨rest,append_cancel_left heq⟩)

theorem obtained_prefix_sent {log log' : List Output} (hframable : ∀ buf ∈ recvdMessages log,
    Framable buf) (hfit : ∀ m ∈ sentMessages log', m.2.length<2^16)
    (h : bytesRead log <+: framesOf (sentMessages log')) :
      obtainedMessages log <+: sentMessages log' := by
  rw [framesOf_eq hfit] at h
  have hbodies : recvdMessages log <+: (sentMessages log').map bodyOf := by
    refine prefix_of_framed_prefix hframable (fun a ha => ?_) h
    obtain ⟨m,hm,rfl⟩ := mem_map.mp ha
    exact framable_bodyOf (hfit m hm)
  have hid : messageOf ∘ bodyOf = id := funext messageOf_bodyOf
  have hmessages := hbodies.map messageOf
  rwa [map_map,hid,map_id] at hmessages

/-! ### Sequence numbers below the wrap -/

/-- No sequence number the flow has used or will use next passes the last word. -/
def SeqnosFit (log : List Output) : Prop :=
  ∀ dst h data, .datagram dst (.reliable h data) ∈ log → h.seqno.toNat+data.length<2^32

/-- A reliable datagram ends below the number. -/
def Output.endsBelow (bound : ℕ) : Output → Bool
  | .datagram _ (.reliable h data) => decide (h.seqno.toNat+data.length<bound)
  | _ => true

theorem ends_lt_of_all {log : List Output} {bound : ℕ} (hall : log.all (Output.endsBelow bound) = true)
    (dst : Endpoint) (h : ReliableHeader) (data : List Byte)
    (hm : .datagram dst (.reliable h data) ∈ log) : h.seqno.toNat + data.length < bound :=
  of_decide_eq_true (all_eq_true.mp hall _ hm)

theorem SeqnosFit.of_prefix {log log' : List Output} (h : SeqnosFit log') (hp : log <+: log') :
    SeqnosFit log :=
  fun dst hd data hm => h dst hd data (hp.subset hm)

variable {pieces : List Piece} {isn : BitVec 32}

theorem Told.unwrapped {log : List Output} (h : Told isn pieces log)
    (hfit : SeqnosFit log) : Unwrapped isn pieces := by
  have hstart : ∀ i≤pieces.length, isn.toNat + offset pieces i < 2^32 := by
    intro i
    induction i with
    | zero => exact fun _ => isn.isLt
    | succ i ih =>
      intro hi
      have hget := List.getElem?_eq_getElem hi
      obtain ⟨dst,hd,hm,hseq⟩ := h.sent i _ hget
      have hplace : hd.seqno.toNat = isn.toNat + offset pieces i := by
        rw [hseq]
        exact toNat_place isn (ih (Nat.le_of_succ_le hi))
      have hnext := hfit dst hd _ hm
      rw [offset_succ hget,← Nat.add_assoc,← hplace]
      exact hnext
  have hlast := hstart pieces.length le_rfl
  rwa [offset,take_length] at hlast

theorem Told.sound {log : List Output} (h : Told isn pieces log)
    (hfit : SeqnosFit log) : Sound isn pieces := ⟨h.sizes,h.unwrapped hfit,h.greetings⟩

theorem Heard.faithful {c : Core} {dst src : Endpoint} {x : Arrival}
    (h : Heard c.log dst src x) (hw : c.WellSent) (ht : Told isn pieces c.log)
    (hgreeted : ∀ dst h data, .datagram dst (.reliable h data) ∈ c.log →
      h.control = .connect ∨ h.control = .connectAck → data≠[]) : Faithful isn pieces x where
  carried ho hne := by
    obtain ⟨hm,-,-⟩ := h.reliable hw (by constructor <;> intro hc <;> rw [hc] at ho <;> cases ho)
    exact ht.carried dst _ _ hm hne
  greeted hg := by
    obtain ⟨hm,-,-⟩ := h.reliable hw (by rcases hg with hg | hg <;> rw [hg] <;> decide)
    exact ht.carried dst _ _ hm (hgreeted dst _ _ hm hg)

/-! ### New flows -/

namespace Flow

variable {f : Flow}

theorem Created.log_eq_nil (h : f.Created) : f.log=[] := by
  rcases h with ⟨p,now,rfl⟩ | ⟨p,remoteEdp,now,rfl⟩ <;> rfl

theorem Created.not_synced (h : f.Created) : ¬f.core.Synced := by
  rcases h with ⟨p,now,rfl⟩ | ⟨p,remoteEdp,now,rfl⟩
  · exact show ¬TcpState.synRcvd ≤ .init by decide
  · exact show ¬TcpState.synRcvd ≤ .listen by decide

theorem Created.fault_eq_none (h : f.Created) : f.fault=none := by
  rcases h with ⟨p,now,rfl⟩ | ⟨p,remoteEdp,now,rfl⟩ <;> rfl

theorem Created.reads (h : f.Created) (isn : BitVec 32) : Urdp.Reads isn [] f.core := by
  have hlog : f.core.log=[] := h.log_eq_nil
  refine ⟨fun _ => ?_,fun buf hmem => ?_,?_,fun hopen => absurd hopen.synced h.not_synced,?_⟩
  · rw [hlog]
    rfl
  · rw [hlog] at hmem
    exact absurd hmem not_mem_nil
  · rw [hlog]
    exact nil_prefix
  · rw [core_fault,h.fault_eq_none]
    exact Option.some_ne_none _ |>.symm

end Flow

/-! ### One message of the sender -/

namespace Flow

theorem idleWindow_eq (f : Flow) (env : Env) : ∃ cwnd, f.idleWindow env = { f with cc.cwnd := cwnd } := by
  unfold idleWindow
  split
  · exact ⟨_,rfl⟩
  · exact ⟨f.cc.cwnd,rfl⟩

theorem attemptSend_single (f : Flow) (env : Env) {seg : SSegment} (hs : f.snd.slist = [seg])
    (hx : seg.xmit=0) : f.attemptSend env .none = ((f.idleWindow env).sendFirst env seg []).emit
      (.attempted (f.idleWindow env).window ((f.idleWindow env).sendFirst env seg []).window) := by
  have hack (g : Flow) : attemptLoop env [] .none (g.sendFirst env seg []) = g.sendFirst env seg [] := by
    simp [attemptLoop,attemptAck,sendFirst,sendSegment,packetAsReliableAndSendout]
  rw [attemptSend,idleWindow_snd,hs,attemptLoop_cons _ env [] .none hx,hack]

/-- The flow once `__send` has queued a message and sent what it could. -/
def messageSent (f : Flow) (env : Env) (buf : List Byte) (msgType : BitVec 16) : Flow :=
  (((f.emit (.sent msgType buf)).queue (beBytes 2 (buf.length % 2^16) ++ beBytes 2 msgType.toNat)
    .data).queue
    (buf.take (buf.length % 2^16)) .data).attemptSend env .none

theorem step_send (f : Flow) (env : Env) (buf : List Byte) (msgType : BitVec 16) (hfault : f.fault=none)
    (hsocket : f.ctl.socket=true) (hstate : f.ctl.state = .established) :
    f.step env (.op (.send buf msgType .reliable)) =
    { f.messageSent env buf msgType with cc.detectWritable := true } ∨
      f.step env (.op (.send buf msgType .reliable)) =
      (f.messageSent env buf msgType).post .allertWriteable := by
  have hsend : f.send env buf msgType .reliable =
      if sndBufSize ≤ (f.messageSent env buf msgType).snd.slen.toNat then
        ({ f.messageSent env buf msgType with cc.detectWritable := true }, some .wouldBlock)
      else (f.messageSent env buf msgType, none) := by
    rw [send,if_neg (by simp [hsocket,hstate])]
    rfl
  have hstep : f.step env (.op (.send buf msgType .reliable)) =
    f.asyncSend env buf msgType .reliable := by
    simp [step,hfault,runOp,hsocket,perform]
  rw [hstep,asyncSend,hsend]
  by_cases hfull : sndBufSize ≤ (f.messageSent env buf msgType).snd.slen.toNat
  · rw [if_pos hfull]
    exact .inl rfl
  · rw [if_neg hfull]
    exact .inr rfl

end Flow

/-! ### Two flows -/

namespace System

variable (addr : Side → Endpoint) (side : Side)

/-- `Handshake` with the core of the given side first. -/
def Met (dst : Endpoint) : Side → Core → Core → Prop
  | .connector, c, peer => Handshake dst c peer
  | .acceptor, c, peer => Handshake dst peer c

namespace Met

variable {addr : Side → Endpoint} {side : Side} {src : Endpoint} {rx : Option Arrival}
  {strict trusted : Prop}
  {c d peer : Core}

section
variable (h : Met (addr .acceptor) side c peer)
include h

theorem step (hl : c.Local)
    (heard : ∀ x∈rx, Heard peer.log (addr side) src x) (hm : Micro strict trusted rx c d) :
    Met (addr .acceptor) side d peer := by
  cases side with
  | connector => exact Handshake.connector_step h heard hm hl
  | acceptor => exact Handshake.acceptor_step h hl heard hm

theorem delivery {buf : List Byte} (hd : c.Delivery buf d) :
    Met (addr .acceptor) side d peer := by
  cases side with
  | connector => exact Handshake.connector_delivery h hd
  | acceptor => exact Handshake.acceptor_delivery h hd

theorem swap : Met (addr .acceptor) side.peer peer c := by
  cases side <;> exact h

end

theorem listening (h : Met (addr .acceptor) .acceptor c peer) (hs : ¬c.Synced) : c.state = .listen := by
  obtain ⟨hinit,hsent⟩ := Handshake.accepting h
  revert hs hinit hsent
  rw [Core.Synced]
  cases c.state <;> decide

theorem blank (h : Met (addr .acceptor) side c peer) (hs : ¬c.Synced) : c.rlist=[] ∧ c.rlen=0 := by
  have hb : c.Blank := by
    cases side with
    | connector => exact (Handshake.silent h hs).2
    | acceptor => exact (Handshake.listening h (listening h hs)).2.2
  exact ⟨hb.rlist,hb.rlen⟩

end Met

/-- A segment handed to the flow goes to its place in `m_rlist`. -/
def SegmentFits (s : System) : SystemEvent → Prop
  | .deliver side' _ (.reliable h data) => side' = side →
      (s side).core.Placeable ⟨h,data,addr side.peer⟩
  | _ => True

theorem SegmentFits.placeable {addr : Side → Endpoint} {side : Side} {s : System} {env : Env} {p : Packet}
    (hfits : s.SegmentFits addr side (.deliver side env p)) (hw : (s side.peer).core.WellSent)
    (hp : .datagram (addr side) p ∈ (s side.peer).log) :
      (s side).core.Placeable (p.arrival (addr side.peer)) := by
  cases p with
  | reliable hd data =>
    rw [Packet.arrival_reliable]
    exact hfits rfl
  | unreliable hd pktID msgType data =>
    -- nothing of it goes into the queue
    intro _ hdata
    rw [Packet.arrival_control] at hdata
    rcases hw.unreliable _ _ _ _ _ hp with hc | hc <;> cases hdata.symm.trans hc

structure Conversing (isn : BitVec 32) (s : System) : Prop where
  locals : ∀ side, (s side).core.Local
  wellSent : ∀ side, (s side).core.WellSent
  unsent : ∀ side, (s side).core.Unsent
  met : Met (addr .acceptor) side (s side).core (s side.peer).core
  stream : ∃ pieces, Transcript isn pieces (s side.peer).core ∧
    (SeqnosFit (s side.peer).log → Reads isn pieces (s side).core)

namespace Conversing

variable {addr : Side → Endpoint} {side : Side} {isn : BitVec 32} {s : System}

theorem peer_peer (side : Side) : side.peer.peer=side := by cases side <;> rfl

section
variable (h : Conversing addr side isn s)
include h

theorem sender_step (env : Env) {ev : Event}
    (heard : ∀ x∈ev.arrival, Heard (s side).core.log (addr side.peer) (addr side) x) :
    Conversing addr side isn (s.next side.peer env ev) := by
  obtain ⟨pieces,ht,hr⟩ := h.stream
  have hmoves := step_moves env ((s side.peer).admits_loose env ev)
  have hgrows := Move.steps_grow (hmoves (h.locals side.peer))
  obtain ⟨hl,hmet,hw,hun,more,ht'⟩ := hmoves.keeps
    (fun c => Met (addr .acceptor) side.peer c (s side).core ∧ c.WellSent ∧ c.Unsent ∧
      ∃ more, Transcript isn (pieces++more) c)
    (fun c d hl hm ⟨hmet,hw,hun,more,ht⟩ => by
      obtain ⟨more',ht'⟩ := hm.transcript hl hun ht
      rw [append_assoc] at ht'
      exact ⟨hmet.step hl heard hm,hm.wellSent hl hw,hm.unsent hun,_,ht'⟩)
    (fun c d buf _ hd ⟨hmet,hw,_,more,ht⟩ => ⟨hmet.delivery hd,hd.wellSent hw,hd.unsent,more,
      hd.transcript ht⟩)
    (h.locals side.peer) ⟨h.met.swap,h.wellSent side.peer,h.unsent side.peer,[],by rwa [append_nil]⟩
  have hself := s.next_self side.peer env ev
  have hpeer := s.next_peer side.peer env ev
  rw [peer_peer] at hpeer
  refine ⟨next_forall h.locals hl,next_forall h.wellSent hw,next_forall h.unsent hun,?_,pieces++more,?_,
    fun hfit => ?_⟩
  · have hswap := hmet.swap
    rw [peer_peer] at hswap
    rwa [hself,hpeer]
  · rwa [hself]
  · rw [hself] at hfit
    rw [hpeer]
    exact (hr (hfit.of_prefix hgrows.log)).append_pieces more

theorem receiver_step (env : Env) {ev : Event}
    (heard : ∀ x∈ev.arrival, Heard (s side.peer).core.log (addr side) (addr side.peer) x)
    (hplace : ∀ x∈ev.arrival, (s side).core.Placeable x) :
      Conversing addr side isn (s.next side env ev) := by
  obtain ⟨pieces,ht,hr⟩ := h.stream
  have hfaithful : ∀ x∈ev.arrival, Faithful isn pieces x :=
    fun x hx => (heard x hx).faithful (h.wellSent side.peer) ht.told ht.greeted
  obtain ⟨hl,hmet,hw,hun,hreads⟩ := (step_moves env ((s side).admits_loose env ev)).keeps
    (fun c => Met (addr .acceptor) side c (s side.peer).core ∧ c.WellSent ∧ c.Unsent ∧
      (SeqnosFit (s side.peer).log → Reads isn pieces c ∧ ∀ x∈ev.arrival, c.Placeable x))
    (fun c d hl hm ⟨hmet,hw,hun,hr⟩ => ⟨hmet.step hl heard hm,hm.wellSent hl hw,hm.unsent hun,fun hfit =>
      hm.reads hl hmet.blank (ht.told.sound hfit) hfaithful (hr hfit).1 (hr hfit).2⟩)
    (fun c d buf _ hd ⟨hmet,hw,_,hr⟩ => ⟨hmet.delivery hd,hd.wellSent hw,hd.unsent,fun hfit =>
      hd.reads (ht.told.sound hfit) (hr hfit).1 (hr hfit).2⟩)
    (h.locals side) ⟨h.met,h.wellSent side,h.unsent side,fun hfit => ⟨hr hfit,hplace⟩⟩
  have hself := s.next_self side env ev
  have hpeer := s.next_peer side env ev
  refine ⟨next_forall h.locals hl,next_forall h.wellSent hw,next_forall h.unsent hun,?_,pieces,?_,
    fun hfit => ?_⟩
  · rwa [hself,hpeer]
  · rwa [hpeer]
  · rw [hpeer] at hfit
    rw [hself]
    exact (hreads hfit).1

theorem step {e : SystemEvent} (hfits : s.SegmentFits addr side e) :
    Conversing addr side isn (s.step addr e) := by
  rcases s.step_cases e with he | ⟨side',env,ev,he,heard,hev⟩
  · rwa [he]
  rw [he]
  by_cases hside : side'=side
  · subst hside
    refine h.receiver_step env heard fun x hx => ?_
    rcases hev with ⟨hn,-⟩ | ⟨p,rfl,hp,rfl⟩
    · rw [hn] at hx
      cases hx
    · obtain rfl : p.arrival (addr side'.peer) = x := Option.mem_some_iff.mp hx
      exact hfits.placeable (h.wellSent side'.peer) hp
  · obtain rfl := Side.eq_peer_of_ne hside
    refine h.sender_step env fun x hx => ?_
    have hx := heard x hx
    rwa [peer_peer] at hx

end

end Conversing

theorem Start.conversing {s : System} (h : s.Start) (addr : Side → Endpoint) (side : Side) :
    Conversing addr side (s side.peer).snd.sndUna s where
  locals side := (h.created side).local
  wellSent side := (h.created side).wellSent
  unsent side := (h.created side).unsent
  met := by
    cases side with
    | connector => exact Handshake.start h
    | acceptor => exact Handshake.start h
  stream := ⟨[],(h.created side.peer).transcript,fun _ => (h.created side).reads _⟩

/-- In every state that a run of fitting deliveries reaches, the flow has obtained the first of its peer's
messages, and it has never read past the end of its queue. -/
theorem obtained_in_order_of_fitting_run (addr : Side → Endpoint) (side : Side) {s : System}
    (start : s.Start)
    (es : List SystemEvent) (hfits : AlongRun (System.step addr) (SegmentFits addr side) s es)
    (hseq : SeqnosFit (s.run addr es side.peer).log)
    (hsize : ∀ m ∈ sentMessages (s.run addr es side.peer).log, m.2.length≤65535) :
    obtainedMessages (s.run addr es side).log <+: sentMessages (s.run addr es side.peer).log ∧
      (s.run addr es side).fault ≠ some .rlist := by
  obtain ⟨pieces,ht,hr⟩ := (invariant_of_run (Conversing addr side (s side.peer).snd.sndUna)
    (fun _ _ hfits h => h.step hfits) hfits (start.conversing addr side)).stream
  have hreads := hr hseq
  refine ⟨obtained_prefix_sent hreads.framable (fun m hm => Nat.lt_succ_of_le (hsize m hm)) ?_,
    hreads.fault⟩
  have hread := hreads.read
  rwa [ht.told.stream] at hread

def twoMessages : List SystemEvent :=
  [.act .connector stillEnv (.op (.send [7] 3 .reliable)),
    .act .connector stillEnv (.op (.send [] 4 .reliable))]

/-- The second message arrives before the first one. -/
theorem reordered_messages_read_in_order :
    let s := twoFlows.run twoHosts (greetings ++ .deliver .acceptor stillEnv greetingAck ::
      (twoMessages ++
      [.deliver .acceptor stillEnv (.reliable (sessionHeader .data 9 3 16 44) [0,0,0,4]),
        .deliver .acceptor stillEnv (.reliable (sessionHeader .data 9 2 11 44) [0,1,0,3,7])]))
    obtainedMessages (s .acceptor).log = [(3, [7]),(4, [])] ∧
      obtainedMessages (s .acceptor).log <+: sentMessages (s .connector).log := by
  intro s
  have hother {h : ReliableHeader} {data : List Byte} {t : System} (hc : h.control ≠ .data) :
      t.SegmentFits twoHosts .acceptor (.deliver .acceptor stillEnv (.reliable h data)) :=
    fun _ _ hdata => absurd hdata hc
  have hempty {h : ReliableHeader} {data : List Byte} {t : System}
    (ht : (t .acceptor).rcv.rlist.head? = none) :
      t.SegmentFits twoHosts .acceptor (.deliver .acceptor stillEnv (.reliable h data)) := by
    intro _ _ _ _ _ x hx
    rw [core_rlist,ht] at hx
    cases hx
  have hnear {h : ReliableHeader} {data : List Byte} {t : System} {x : RSegment}
      (ht : (t .acceptor).rcv.rlist.head? = some x) (hx : Near h.seqno x.seq) :
      t.SegmentFits twoHosts .acceptor (.deliver .acceptor stillEnv (.reliable h data)) := by
    intro _ _ _ _ _ y hy
    rw [core_rlist,ht] at hy
    rwa [← Option.mem_some_iff.mp hy]
  refine ⟨by decide +kernel,(obtained_in_order_of_fitting_run twoHosts .acceptor twoFlows_start _ ?_
    ?_ ?_).1⟩
  · exact ⟨trivial,hother (by decide),fun h => absurd h (by decide),hother (by decide),trivial,trivial,
      hempty (by decide +kernel),hnear (x := ⟨[0,0,0,4],16⟩) (by decide +kernel) (by decide),trivial⟩
  · exact ends_lt_of_all (by decide +kernel)
  · decide +kernel

/-! ### More than half the ring ahead -/

def sendEmpty (msgType : BitVec 16) : SystemEvent :=
  .act .connector stillEnv (.op (.send [] msgType .reliable))

/-- The datagram of such a message, after `n` others. -/
def emptyMessage (n : ℕ) (msgType : BitVec 16) : Packet :=
  .reliable (sessionHeader .data 9 (BitVec.ofNat 8 (2+n)) (BitVec.ofNat 32 (11 + 4 * n)) 44)
    (beBytes 2 0 ++ beBytes 2 msgType.toNat)

/-- The connector has sent `n` messages without payload, and nothing has been acknowledged. -/
structure Flooding (n : ℕ) (f : Flow) : Prop where
  fault : f.fault=none
  state : f.ctl.state = .established
  socket : f.ctl.socket=true
  remote : f.ctl.remoteEndpoint = ⟨2,2⟩
  header : ∀ seq, f.reliableHeader stillEnv seq .data =
    sessionHeader .data 9 (BitVec.ofNat 8 (2+n)) seq 44
  slist : f.snd.slist=[]
  next : f.snd.sndUna+f.snd.slen = BitVec.ofNat 32 (11 + 4 * n)
  sent : sentMessages f.log = List.replicate n (0, [])
  first : 0<n → .datagram ⟨2,2⟩ (emptyMessage 0 0) ∈ f.log
  below : ∀ dst h data, .datagram dst (.reliable h data) ∈ f.log → h.seqno.toNat+data.length ≤ 11 + 4 * n

structure EmptySent (n : ℕ) (msgType : BitVec 16) (f g : Flow) : Prop where
  log : ∃ pre post, g.log = f.log ++
    [.sent msgType [],.datagram ⟨2,2⟩ (emptyMessage n msgType),.attempted pre post]
  fault : g.fault=none
  ctl : g.ctl=f.ctl
  header : ∀ seq, g.reliableHeader stillEnv seq .data =
    sessionHeader .data 9 (BitVec.ofNat 8 (2 + (n+1))) seq 44
  slist : g.snd.slist=[]
  next : g.snd.sndUna+g.snd.slen = BitVec.ofNat 32 (11 + 4 * (n+1))

namespace Flooding

variable {n : ℕ} {f : Flow}

theorem messageSent (h : Flooding n f) (msgType : BitVec 16) :
    EmptySent n msgType f (f.messageSent stillEnv [] msgType) := by
  have hqueue : (f.snd.queue (beBytes 2 0 ++ beBytes 2 msgType.toNat) .data).queue [] .data =
      { f.snd with
        slist := [⟨beBytes 2 0 ++ beBytes 2 msgType.toNat,f.snd.sndUna+f.snd.slen,0,.data⟩]
        slen := f.snd.slen + 4 } := by
    simp [Outgoing.queue,h.slist,Outgoing.pushSegments,mss,mtuSize,beBytes]
  obtain ⟨pre,post,hsent⟩ : ∃ pre post, f.messageSent stillEnv [] msgType =
    emit _ (.attempted pre post) :=
    ⟨_,_,attemptSend_single
      { f.emit (.sent msgType []) with
        snd := (f.snd.queue (beBytes 2 0 ++ beBytes 2 msgType.toNat) .data).queue [] .data }
      stillEnv (congrArg Outgoing.slist hqueue) rfl⟩
  obtain ⟨cwnd,hidle⟩ := idleWindow_eq
    { f.emit (.sent msgType []) with snd := { f.snd with
        slist := [⟨beBytes 2 0 ++ beBytes 2 msgType.toNat,f.snd.sndUna+f.snd.slen,0,.data⟩]
        slen := f.snd.slen + 4 } }
    stillEnv
  rw [hqueue,hidle] at hsent
  rw [hsent]
  refine ⟨⟨pre,post,?_⟩,h.fault,rfl,fun seq => ?_,rfl,?_⟩
  · show f.log ++ [.sent msgType []] ++ [.datagram f.ctl.remoteEndpoint
      (.reliable (f.reliableHeader stillEnv (f.snd.sndUna+f.snd.slen) .data)
        (beBytes 2 0 ++ beBytes 2 msgType.toNat))] ++
        [.attempted pre post] = _
    rw [h.remote,h.header,h.next,append_assoc,append_assoc]
    rfl
  · have hid : f.unrel.idForLostRate = BitVec.ofNat 8 (2+n) :=
      congrArg (fun h => h.idForLostDetect) (h.header 0)
    show { f.reliableHeader stillEnv seq .data with idForLostDetect := f.unrel.idForLostRate + 1 } = _
    rw [h.header,hid,← Nat.add_assoc,BitVec.ofNat_add (2+n) 1]
    rfl
  · show f.snd.sndUna + (f.snd.slen+4) = _
    rw [← add_assoc,h.next,Nat.mul_succ,← Nat.add_assoc,BitVec.ofNat_add (11 + 4 * n) 4]
    rfl

theorem send (h : Flooding n f) (msgType : BitVec 16) :
    EmptySent n msgType f (f.step stillEnv (.op (.send [] msgType .reliable))) := by
  have hm := h.messageSent msgType
  rcases f.step_send stillEnv [] msgType h.fault h.socket h.state with hg | hg
  · rw [hg]
    exact ⟨hm.log,hm.fault,hm.ctl,hm.header,hm.slist,hm.next⟩
  · rw [hg]
    exact ⟨hm.log,hm.fault,hm.ctl,hm.header,hm.slist,hm.next⟩

end Flooding

theorem EmptySent.told {n : ℕ} {msgType : BitVec 16} {f g : Flow} (hg : EmptySent n msgType f g)
    (h : Flooding n f)
    (hn : 11 + 4 * (n+1) < 2^32) : sentMessages g.log = List.replicate n (0, []) ++ [(msgType, [])] ∧
      ∀ dst h data, .datagram dst (.reliable h data) ∈ g.log → h.seqno.toNat+data.length ≤ 11 + 4 *
      (n+1) := by
  obtain ⟨pre,post,hlog⟩ := hg.log
  constructor
  · rw [hlog,sentMessages_append,h.sent]
    rfl
  · intro dst hd data hm
    rw [hlog] at hm
    rcases mem_append.mp hm with hm | hm
    · exact (h.below dst hd data hm).trans (by omega)
    · simp only [emptyMessage,mem_cons,not_mem_nil,or_false,reduceCtorEq,false_or,Output.datagram.injEq,
        Packet.reliable.injEq] at hm
      obtain ⟨-,rfl,rfl⟩ := hm
      show (BitVec.ofNat 32 (11 + 4 * n)).toNat + 4 ≤ _
      rw [BitVec.toNat_ofNat,Nat.mod_eq_of_lt (by omega)]
      omega

theorem EmptySent.flooding {n : ℕ} {f g : Flow} (hg : EmptySent n 0 f g) (h : Flooding n f)
    (hn : 11 + 4 * (n+1) < 2^32) : Flooding (n+1) g where
  fault := hg.fault
  state := hg.ctl ▸ h.state
  socket := hg.ctl ▸ h.socket
  remote := hg.ctl ▸ h.remote
  header := hg.header
  slist := hg.slist
  next := hg.next
  sent := by
    rw [(hg.told h hn).1,replicate_succ']
  first _ := by
    obtain ⟨pre,post,hlog⟩ := hg.log
    rw [hlog]
    cases n with
    | zero => exact mem_append_right _ (by simp)
    | succ n => exact mem_append_left _ (h.first n.succ_pos)
  below := (hg.told h hn).2

/-- The handshake of `twoFlows` is over on both sides. -/
def connected : System := twoFlows.run twoHosts (greetings ++ [.deliver .acceptor stillEnv greetingAck])

theorem connected_flooding : Flooding 0 (connected .connector) where
  fault := by decide +kernel
  state := by decide +kernel
  socket := by decide +kernel
  remote := by decide +kernel
  header seq := by
    have hseq : (connected .connector).reliableHeader stillEnv seq .data =
        { (connected .connector).reliableHeader stillEnv 0 .data with seqno := seq } := rfl
    have hzero : (connected .connector).reliableHeader stillEnv 0 .data =
      sessionHeader .data 9 2 0 44 := by
      decide +kernel
    rw [hseq,hzero]
    rfl
  slist := by decide +kernel
  next := by decide +kernel
  sent := by decide +kernel
  first h := absurd h (lt_irrefl 0)
  below dst h data hm := Nat.le_of_lt_succ (ends_lt_of_all (by decide +kernel) dst h data hm)

theorem run_flooding (n : ℕ) (hn : 11 + 4 * n < 2^32) :
    Flooding n (connected.run twoHosts (List.replicate n (sendEmpty 0)) .connector) ∧
      connected.run twoHosts (List.replicate n (sendEmpty 0)) .acceptor = connected .acceptor := by
  induction n with
  | zero => exact ⟨connected_flooding,rfl⟩
  | succ n ih =>
    obtain ⟨hf,ha⟩ := ih (by omega)
    have hrun : connected.run twoHosts (List.replicate (n+1) (sendEmpty 0)) =
        (connected.run twoHosts (List.replicate n (sendEmpty 0))).next .connector stillEnv
          (.op (.send [] 0 .reliable)) := by
      rw [replicate_succ',run,foldl_append]
      rfl
    rw [hrun,next_self]
    exact ⟨(hf.send 0).flooding hf hn,(next_peer _ .connector _ _).trans ha⟩

/-- After `n` messages of type 0 and one of type 1, the last one is delivered first, and then the first. -/
def overtaking (n : ℕ) : List SystemEvent :=
  greetings ++ [.deliver .acceptor stillEnv greetingAck] ++ List.replicate n (sendEmpty 0) ++
    [sendEmpty 1,.deliver .acceptor stillEnv (emptyMessage n 1),
      .deliver .acceptor stillEnv (emptyMessage 0 0)]

theorem step_deliver {s : System} {env : Env} {p : Packet} (hp : .datagram ⟨2,2⟩ p ∈ (s .connector).log) :
    s.step twoHosts (.deliver .acceptor env p) = s.next .acceptor env (.received p.encode ⟨1,1⟩) :=
  if_pos hp

theorem run_overtaking {n : ℕ} (hn : 11 + 4 * (n+1) < 2^32) (hpos : 0<n) :
    SeqnosFit (twoFlows.run twoHosts (overtaking n) .connector).log ∧
      sentMessages (twoFlows.run twoHosts (overtaking n) .connector).log =
      List.replicate n (0, []) ++ [(1, [])] ∧ twoFlows.run twoHosts (overtaking n) .acceptor =
        ((connected .acceptor).step stillEnv (.received (emptyMessage n 1).encode ⟨1,1⟩)).step
          stillEnv (.received (emptyMessage 0 0).encode ⟨1,1⟩) := by
  obtain ⟨hf,ha⟩ := run_flooding n (by omega)
  have hsent := hf.send 1
  obtain ⟨hmessages,hbelow⟩ := hsent.told hf hn
  generalize hs : connected.run twoHosts (List.replicate n (sendEmpty 0)) =
    s at hf ha hsent hmessages hbelow
  have hrun : twoFlows.run twoHosts (overtaking n) =
      ((s.next .connector stillEnv (.op (.send [] 1 .reliable))).step twoHosts
        (.deliver .acceptor stillEnv (emptyMessage n 1))).step twoHosts
          (.deliver .acceptor stillEnv (emptyMessage 0 0)) := by
    rw [← hs,overtaking,run,foldl_append,foldl_append]
    rfl
  have hself := s.next_self .connector stillEnv (.op (.send [] 1 .reliable))
  have hpeer : s.next .connector stillEnv (.op (.send [] 1 .reliable)) .acceptor = connected .acceptor :=
    (s.next_peer .connector _ _).trans ha
  obtain ⟨pre,post,hlog⟩ := hsent.log
  have hlast : .datagram ⟨2,2⟩ (emptyMessage n 1) ∈
      (s.next .connector stillEnv (.op (.send [] 1 .reliable)) .connector).log := by
    rw [hself,hlog]
    exact mem_append_right _ (by simp)
  have hfirst : .datagram ⟨2,2⟩ (emptyMessage 0 0) ∈
      (s.next .connector stillEnv (.op (.send [] 1 .reliable)) .connector).log := by
    rw [hself,hlog]
    exact mem_append_left _ (hf.first hpos)
  generalize s.next .connector stillEnv (.op (.send [] 1 .reliable)) = t at hrun hself hpeer hlast hfirst
  have hkept (u : System) (ev : Event) : u.next .acceptor stillEnv ev .connector = u .connector :=
    u.next_peer .acceptor _ _
  rw [step_deliver hlast,step_deliver (by rw [hkept]; exact hfirst)] at hrun
  rw [hrun,hkept,hkept,hself]
  refine ⟨fun dst h data hm => (hbelow dst h data hm).trans_lt hn,hmessages,?_⟩
  rw [next_self,next_self,hpeer]

/-- The last message lies more than half the ring ahead of the first one and is read in its place. -/
theorem overtaking_message_read_first :
    twoFlows.Start ∧ SeqnosFit (twoFlows.run twoHosts (overtaking (2^29 + 1)) .connector).log ∧
      (∀ m ∈ sentMessages (twoFlows.run twoHosts (overtaking (2^29 + 1)) .connector).log,
        m.2.length≤65535) ∧
      obtainedMessages (twoFlows.run twoHosts (overtaking (2^29 + 1)) .acceptor).log = [(1, [])] ∧
      ¬obtainedMessages (twoFlows.run twoHosts (overtaking (2^29 + 1)) .acceptor).log <+:
        sentMessages (twoFlows.run twoHosts (overtaking (2^29 + 1)) .connector).log := by
  have hn : 11 + 4 * (2^29 + 1 + 1) < 2^32 := by omega
  have hpos : 0 < 2^29 + 1 := Nat.succ_pos _
  obtain ⟨hfit,hsent,hacceptor⟩ := run_overtaking hn hpos
  have hread : obtainedMessages (twoFlows.run twoHosts (overtaking (2^29 + 1)) .acceptor).log =
    [(1, [])] := by
    rw [hacceptor]
    decide +kernel
  refine ⟨twoFlows_start,hfit,fun m hm => ?_,hread,?_⟩
  · rw [hsent] at hm
    rcases mem_append.mp hm with hm | hm
    · rw [(mem_replicate.mp hm).2]
      exact Nat.zero_le _
    · rw [mem_singleton.mp hm]
      exact Nat.zero_le _
  · rw [hread,hsent,replicate_succ,cons_append,cons_prefix_cons]
    exact fun h => absurd h.1 (by decide)

end System

end P2Streaming.Urdp
