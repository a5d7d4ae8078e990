import P2Streaming.UrdpFlowAckSteps

/-!
# Every call of a flow is made of small steps: `__process`, the clock and whole events

`Event.arrival` is the datagram the steps of an event may refer to. Under `trusted`,
data only arrives where it may be announced, and what `__process` refuses only arrives
at a flow that has an excuse.
-/
namespace P2Streaming.Urdp
open BigEndianBytes Relation TransitionRuns ReliableHeader

/-- A flow in `SYN_RCVD` takes the acknowledgement number for the end of its handshake. -/
def Core.Accepts (c : Core) (ackno : BitVec 32) : Prop :=
  c.state = .synRcvd ∧ modLess c.snd.sndUna ackno = true ∧ modLessEqual ackno c.snd.sndNxt = true

def Event.arrival : Event → Option Arrival
  | .received sbuf src =>
      some ⟨decode sbuf,sbuf.drop reliableFormatSize,src⟩
  | _ => none

namespace Flow

variable {strict trusted : Prop} {rx : Option Arrival} {f g : Flow} (env : Env)

/-! ### Data -/

theorem insertData_eq (f : Flow) (seqno : BitVec 32) (data : List Byte) : ∃ rcvWnd,
    (f.insertData seqno data).1 = { f with rcv := { f.rcv with
      rcvWnd := rcvWnd
      rlist := (f.core.inserted seqno data).rlist
      rcvNxt := (f.core.inserted seqno data).rcvNxt
      rlen := (f.core.inserted seqno data).rlen } } := by
  unfold insertData Core.inserted
  simp only [core_rlist,core_rcvNxt,core_rlen]
  split
  · exact ⟨_,rfl⟩
  · exact ⟨_,rfl⟩

theorem core_insertData (f : Flow) (seqno : BitVec 32) (data : List Byte) :
    (f.insertData seqno data).1.core = f.core.inserted seqno data := by
  obtain ⟨rcvWnd,h⟩ := f.insertData_eq seqno data
  rw [h]
  rfl

theorem processData_eq (f : Flow) (control : Ctrl) (seqno : BitVec 32) (data : List Byte) :
    ∃ rcv, (f.processData control seqno data).1 = { f with rcv := rcv } := by
  unfold processData
  dsimp only
  generalize trimSegment f.rcv.rcvNxt seqno data = t
  obtain ⟨seqno,data⟩ := t
  split
  · exact ⟨_,rfl⟩
  split
  · split
    · exact ⟨_,rfl⟩
    · exact ⟨_,rfl⟩
  · obtain ⟨rcvWnd,h⟩ := f.insertData_eq seqno data
    exact ⟨_,h⟩

variable {data : List Byte}

theorem control_of_newData {control : Ctrl} {seqno : BitVec 32}
    (h : (f.processData control seqno data).2 = true) : control = .data := by
  unfold processData at h
  dsimp only at h
  split at h
  · cases h
  split at h
  · split at h <;> cases h
  · rename_i hi
    exact not_not.mp fun hc => hi (.inl hc)

variable {a : Arrival}

theorem processData_becomes (ordinary : a.header.control.ordinary=true) :
    Becomes strict trusted (some a) f
      (f.processData a.header.control a.header.seqno a.data).1 := by
  unfold processData
  dsimp only
  generalize ht : trimSegment f.rcv.rcvNxt a.header.seqno a.data = t
  obtain ⟨seqno,data⟩ := t
  split
  · exact .refl f
  rename_i hfits
  rw [not_or] at hfits
  have hrem : f.core.Remains a seqno data := ⟨ht,hfits.1,hfits.2⟩
  split
  · rename_i hign
    split
    · rename_i hhere
      exact .micro fun _ => .skip rfl ordinary hign hrem hhere
    · exact .refl f
  · rename_i hdata
    rw [not_or,not_not,not_not] at hdata
    refine .micro fun _ => ?_
    rw [core_insertData]
    exact .insert rfl hdata.1 hdata.2 hrem

theorem processData_here {control : Ctrl} (hc : control ≠ .data) (hr : f.rcv.rlist=[]) (hd : data≠[]) :
    f.processData control f.rcv.rcvNxt data =
      ({ f with rcv.rcvNxt := f.rcv.rcvNxt + BitVec.ofNat 32 data.length }, false) := by
  have ht : trimSegment f.rcv.rcvNxt f.rcv.rcvNxt data = (f.rcv.rcvNxt, data) := by
    simp [trimSegment]
  simp [processData,ht,hc,hr,hd]

theorem respond_moves (ordinary : a.header.control.ordinary=true)
    (early : f.ctl.state = .synSent → a.header.control ≠ .connectAck)
    (sflags : SendFlags) (connected newData accepted : Bool) (live : f.ctl.state ≠ .closed)
    (idle : a.header.ackno=f.snd.sndNxt →
      f.snd.sndUna = f.snd.sndNxt ∨ modLess f.snd.sndUna f.snd.sndNxt = false)
    (hc : connected=true → .established ≤ f.ctl.state) (ha : accepted=true → .established ≤ f.ctl.state)
    (hn : newData=true → trusted → f.core.Ready) : Moves strict trusted (some a) f
      (f.respond env a.header.ackno sflags connected newData accepted) := by
  unfold respond
  split
  · rename_i h
    exact (sendFin_becomes env h.1 (.inr ⟨a,rfl,ordinary,h.2,idle h.2⟩)).moves
  · have hs : Moves strict trusted (some a) f (f.attemptSend env sflags) :=
      (attemptSend_becomes env sflags live fun _ => .inr ⟨a,rfl,ordinary,early⟩).moves
    intro hl
    refine (hs.trans (notify_moves env connected newData accepted ?_ ?_ fun h ht => ?_)) hl
    · rwa [attemptSend_ctl]
    · rwa [attemptSend_ctl]
    · exact (hs.grows hl).ready (hn h ht)

theorem processRest_moves (ordinary : a.header.control.ordinary=true)
    (early : f.ctl.state = .synSent → a.header.control ≠ .connectAck)
    (connected accepted : Bool) (live : f.ctl.state ≠ .closed) (idle : a.header.ackno=f.snd.sndNxt →
      f.snd.sndUna = f.snd.sndNxt ∨ modLess f.snd.sndUna f.snd.sndNxt = false)
    (hc : connected=true → .established ≤ f.ctl.state) (ha : accepted=true → .established ≤ f.ctl.state)
    (hn : a.header.control = .data → trusted → f.core.Ready) : Moves strict trusted (some a) f
      (f.processRest env a.header a.data connected accepted) := by
  have hd : Moves strict trusted (some a) f _ := (processData_becomes ordinary).moves
  obtain ⟨rcv,he⟩ := f.processData_eq a.header.control a.header.seqno a.data
  have hnew : (f.processData a.header.control a.header.seqno a.data).2 = true →
      a.header.control = .data := control_of_newData
  unfold processRest
  dsimp only
  rw [he] at hd ⊢
  exact hd.trans (respond_moves (f := { f with rcv := rcv }) env ordinary early _ connected _
    accepted live idle hc ha fun h ht => hn (hnew h) ht)

theorem core_updateTimes (f : Flow) (env : Env) (h : ReliableHeader) (data : List Byte) :
    (f.updateTimes env h data).core = f.core := by
  unfold updateTimes
  dsimp only
  split <;> rfl

theorem updateTimes_frame (f : Flow) (env : Env) (h : ReliableHeader) (data : List Byte) :
    (f.updateTimes env h data).ctl = f.ctl ∧ (f.updateTimes env h data).rcv = f.rcv := by
  unfold updateTimes
  dsimp only
  split <;> exact ⟨rfl,rfl⟩

theorem processSegment_moves (ordinary : a.header.control.ordinary=true)
    (early : f.ctl.state = .synSent → a.header.control ≠ .connectAck)
    (connected : Bool) (live : f.ctl.state ≠ .closed) (safe : strict → f.core.AckSafe a.header.ackno)
    (hc : connected=true → .established ≤ f.ctl.state)
    (hn : a.header.control = .data → trusted → f.core.Ready ∨ f.core.Accepts a.header.ackno) :
    Moves strict trusted (some a) f (f.processSegment env a.header a.data a.src connected).1 := by
  have hcore := f.core_updateTimes env a.header a.data
  have hframe := f.updateTimes_frame env a.header a.data
  have hu : Moves strict trusted (some a) f (f.updateTimes env a.header a.data) :=
    .of_core_eq hcore
  unfold processSegment
  split
  · exact .refl f
  refine hu.trans ?_
  generalize f.updateTimes env a.header a.data = f₁ at hcore hframe
  rw [← hcore] at safe hn
  rw [← hframe.1] at live hc early
  have hack : Moves strict trusted (some a) f₁ _ :=
    (processAck_becomes env ordinary early live safe).moves
  split
  · rename_i hg
    rwa [hg] at hack
  · rename_i g accepted hg
    rw [hg] at hack
    obtain ⟨hout,hacc⟩ := processAck_some env hg
    intro hl
    have hgrows := hack.grows hl
    refine (hack.trans (processRest_moves env ordinary (fun hs => early ?_) connected accepted
      (hout.live live) hout.idle (fun h => hgrows.established (hc h)) (fun h => ?_)
      fun h ht => ?_)) hl
    · rw [hout.ctl] at hs
      cases accepted with
      | false => exact hs
      | true => cases hs
    · simp [hout.ctl,h]
    · rcases hn h ht with hr | hr
      · exact hgrows.ready hr
      · refine .inr (.inl ?_)
        simp [hout.ctl,hacc hr.1 hr.2.1 hr.2.2]

/-! ### The switch over the control byte -/

theorem processConnect_becomes (control : a.header.control = .connect)
    (listening : f.ctl.state = .listen) :
    Becomes strict trusted (some a) f (f.processConnect env a.header a.data a.src) := by
  intro hl
  have hnil : ∀ seg∈f.snd.slist, seg.xmit=0 := by simp [show f.snd.slist = [] from hl.drained]
  unfold processConnect
  dsimp only
  generalize hf₁ : ({ f with
    ctl := { f.ctl with
      state := .synRcvd
      remotePeerId := a.header.peerId.setWidth 32
      sessionId := a.header.sessionId
      remoteEndpoint := a.src }
    rcv.rcvNxt := a.header.seqno + BitVec.ofNat 32 a.data.length
    cc.lastack := a.header.seqno + BitVec.ofNat 32 a.data.length
    tim := { f.tim with
      tRecent := a.header.timeSending
      tRecentNow := env.now.setWidth 16
      tLasttraffic := env.now
      tLastrecv := env.now } } : Flow) = f₁
  have hcore₁ : f₁.core = { f.core with
      state := .synRcvd, sessionId := a.header.sessionId, remoteEndpoint := a.src
      rcvNxt := a.header.seqno + BitVec.ofNat 32 a.data.length } := by rw [← hf₁]; rfl
  have hsnd₁ : f₁.snd=f.snd := by rw [← hf₁]
  have hstate : f₁.ctl.state = .synRcvd := by rw [← hf₁]
  have hne : beBytes 4 f.ctl.flowId.toNat ≠ [] := fun h => by
    simpa using congrArg List.length h
  obtain ⟨hs,pre,post,hheaders,hatt,hcore⟩ :=
    (f₁.queue (beBytes 4 f.ctl.flowId.toNat) .connectAck).core_attemptSend env .immediateAck
      (by rw [show (f₁.queue _ _).ctl = f₁.ctl from rfl,hstate]; decide)
      (Outgoing.queue_unsent _ _ (by rwa [hsnd₁])) (Outgoing.queue_ne_nil _ (.inr hne))
  have hheaders' : f₁.core.Headers
      (f₁.core.snd.queue (beBytes 4 f.ctl.flowId.toNat) .connectAck).slist hs :=
    hheaders.imp fun seg h hh => ⟨hh.1,hh.2,hh.3,hh.4,hh.5⟩
  rw [hcore]
  exact (ReflTransGen.single (.listened rfl control listening hcore₁ hheaders')).tail
    (.attempted hatt)

variable {h : ReliableHeader}

theorem processAck_fresh (hd : data≠[]) (hdup : ¬3≤f.cc.dupAcks.toNat) (hs : f.ctl.state ≠ .synRcvd) :
    ∃ g, f.processAck env h data = (g, some false) ∧ g.rcv=f.rcv ∧
      (g.core=f.core ∨ modLess f.snd.sndUna h.ackno = true ∧
        modLessEqual h.ackno f.snd.sndNxt = true ∧
        g.core = { f.core with snd := f.snd.acked h.ackno, dupAcks := 0 }) := by
  unfold processAck
  split
  · rename_i hin
    obtain ⟨g,hg,hctl,hrcv,hcore⟩ := f.takeAck_slow env h hdup
    unfold processNewAck
    rw [hg]
    dsimp only
    rw [if_neg (by rwa [hctl])]
    exact ⟨g,rfl,hrcv,.inr ⟨hin.1,hin.2,hcore⟩⟩
  split
  · refine ⟨{ f with cc.sndWnd := h.window.setWidth 32 },?_,rfl,.inl rfl⟩
    simp [processDupAck,hd]
  · exact ⟨f,rfl,rfl,.inl rfl⟩

/-- The handshake of the connecting side ends in one step: what was received last is
acknowledged, and the peer's stream starts behind its `CTRL_CONNECT_ACK`. -/
theorem processConnectAck_moves (control : a.header.control = .connectAck)
    (waiting : f.ctl.state = .synSent) (sessionId : a.header.sessionId=f.ctl.sessionId)
    (id : 4≤a.data.length) (safe : strict → f.core.AckSafe a.header.ackno) :
      Moves strict trusted (some a) f
      ((f.processConnectAck a.header a.data).processSegment env a.header a.data a.src true).1 := by
  have ordinary : a.header.control.ordinary=true := by rw [control]; rfl
  have hord : OrdinaryArrival (some a) := ⟨a,rfl,ordinary⟩
  have hdata : a.data≠[] := by
    rintro h
    simp [h] at id
  by_cases odd : 3≤f.cc.dupAcks.toNat ∨ f.rcv.rlist≠[] ∨ f.ctl.remoteEndpoint≠a.src
  · have he : Moves strict trusted (some a) f (f.processConnectAck a.header a.data) :=
      .micro fun _ => .syncedEarly rfl control waiting odd
    have hearly : (f.processConnectAck a.header a.data).ctl.state = .synSent →
        a.header.control ≠ .connectAck := fun h : TcpState.established = .synSent => nomatch h
    refine he.trans (processSegment_moves env ordinary hearly true nofun (fun hs => ?_)
      (fun _ => le_refl _) fun h => ?_)
    · exact ⟨(safe hs).boundary,(safe hs).recovering,(safe hs).duplicate,(safe hs).counted⟩
    · rw [control] at h
      cases h
  simp only [not_or,not_not] at odd
  obtain ⟨hdup,hrl,hsrc⟩ := odd
  have hcore := (f.processConnectAck a.header a.data).core_updateTimes env a.header a.data
  have hframe := (f.processConnectAck a.header a.data).updateTimes_frame env a.header a.data
  unfold processSegment
  rw [if_neg fun h => h.2 hsrc]
  generalize (f.processConnectAck a.header a.data).updateTimes env a.header a.data = f₁
    at hcore hframe
  have hdup₁ : f₁.cc.dupAcks=f.cc.dupAcks := congrArg Core.dupAcks hcore
  have hsnd₁ : f₁.snd=f.snd := congrArg Core.snd hcore
  obtain ⟨g,hg,hrcv,hcases⟩ := processAck_fresh env (f := f₁) (h := a.header) hdata
    (by rwa [hdup₁]) (by rw [hframe.1]; nofun)
  rw [hg]
  have hnxt : g.rcv.rcvNxt=a.header.seqno := by rw [hrcv,hframe.2]; rfl
  have hpd : g.processData a.header.control g.rcv.rcvNxt a.data = _ :=
    processData_here (by rw [control]; nofun) (by rw [hrcv,hframe.2]; exact hrl) hdata
  have hsynced : Moves strict trusted (some a) f
      { g with rcv.rcvNxt := g.rcv.rcvNxt + BitVec.ofNat 32 a.data.length } := by
    have hg' : { g with rcv.rcvNxt := g.rcv.rcvNxt + BitVec.ofNat 32 a.data.length }.core =
        { g.core with rcvNxt := a.header.seqno + BitVec.ofNat 32 a.data.length } := by
      rw [← hnxt]
      rfl
    intro hl
    rw [hg']
    rcases hcases with hc | ⟨h₁,h₂,hc⟩
    · rw [hc,hcore]
      exact .single (.micro (.synced rfl control waiting sessionId id))
    · rw [hc,hcore,hsnd₁]
      rw [hsnd₁] at h₁ h₂
      have hacc : Micro strict trusted (some a) f.core _ :=
        .accept rfl ordinary h₁ h₂ (fun hs => (safe hs).boundary h₁ h₂)
          fun h => by rw [core_state,waiting] at h; cases h
      have hdups : Micro strict trusted (some a)
          { f.core with snd := f.snd.acked a.header.ackno } _ :=
        .dupAcks 0 f.cc.recover hord nofun (absurd rfl)
      exact ((ReflTransGen.single (Move.micro hacc)).tail (.micro hdups)).tail
        (.micro (.synced rfl control waiting sessionId id))
  have hstate : g.ctl.state = .established := by
    have : g.core.state=f₁.core.state := by
      rcases hcases with hc | ⟨-,-,hc⟩ <;> rw [hc]
    exact this.trans (by rw [hcore]; rfl)
  unfold processRest
  dsimp only
  rw [← hnxt,hpd]
  have hout := (processAck_some env hg).1
  refine hsynced.trans (respond_moves env ordinary ?_ _ true false false ?_ hout.idle
    (fun _ => ?_) nofun nofun)
  · rw [hstate]
    nofun
  · rw [hstate]
    nofun
  · exact hstate.ge

theorem processPunch_becomes (control : a.header.control = .punch) (live : f.ctl.state ≠ .closed) :
    Becomes strict trusted (some a) f (f.processPunch env a.src) := by
  have hmove : Becomes strict trusted (some a) f { f with
      ctl.remoteEndpoint := a.src
      tim := { f.tim with tLasttraffic := env.now, tLastrecv := env.now } } :=
    .micro fun _ => .punch rfl control (.inl rfl)
  unfold processPunch
  dsimp only
  split
  · rename_i seg hseg
    split
    · have hone : Becomes strict trusted (some a) f { f with
          ctl.remoteEndpoint := a.src
          tim := { f.tim with tLasttraffic := env.now, tLastrecv := env.now }
          snd.retransSlist := [{ seg with xmit := 1 }] } :=
        .micro fun _ => .punch rfl control (.inr ⟨seg,hseg,rfl⟩)
      refine hone.trans (transmitRetrans_becomes env live nofun fun _ s hs => ?_)
      rw [List.mem_singleton.mp hs]
      exact show (1 : BitVec 8) ≠ 0 by decide
    · exact hmove
  · exact hmove

theorem processReliable_moves (live : f.ctl.state ≠ .closed)
    (reliable : ¬(a.header.control = .unreliableData ∨ a.header.control = .semireliableData))
    (safe : strict → a.header.control.ordinary=true → f.core.AckSafe a.header.ackno)
    (hn : a.header.control = .data → trusted → f.core.Ready ∨ f.core.Accepts a.header.ackno) :
    Moves strict trusted (some a) f (f.processReliable env a.header a.data a.src).1 := by
  have hsegment : a.header.control.ordinary=true →
      (f.ctl.state = .synSent → a.header.control ≠ .connectAck) →
      Moves strict trusted (some a) f (f.processSegment env a.header a.data a.src false).1 :=
    fun ho early => processSegment_moves env ho early false live (fun hs => safe hs ho) nofun hn
  have hremote : Becomes strict trusted (some a) f { f with ctl.disconnRemote := true } :=
    .of_core_eq rfl
  unfold processReliable
  split
  · split
    · exact .refl f
    split
    · rename_i hs
      exact fun hl => (allertConnected_becomes env _ (.inl (hl.synSent hs))).moves hl
    · exact (hremote.trans (allertDisconnected_becomes env _)).moves
  · rename_i hc
    exact (Becomes.ite (fun h => processConnect_becomes env hc h) fun _ => .refl f).moves
  · rename_i hc
    have ho : a.header.control.ordinary=true := by rw [hc]; rfl
    split
    · rename_i hs
      split
      · exact .refl f
      · rename_i hok
        rw [not_or,not_not,Nat.not_lt] at hok
        exact processConnectAck_moves env hc hs hok.1 hok.2 fun h => safe h ho
    · rename_i hs
      exact hsegment ho fun h => absurd h hs
  · rename_i hc
    exact (processPunch_becomes env hc live).moves
  · exact (hremote.trans (allertDisconnected_becomes env _)).moves
  · rename_i hc
    have hfin : Becomes strict trusted (some a) { f with ctl.disconnRemote := true }
        ({ f with ctl.disconnRemote := true }.packetAsReliableAndSendout env f.snd.sndNxt
          .finAck []) :=
      .micro fun _ => .finAck (fits_reliableHeader env _ _ live) ⟨a,rfl,hc⟩
    exact (hremote.trans (hfin.trans (allertDisconnected_becomes env _))).moves
  · exact (allertDisconnected_becomes env _).moves
  · rename_i hack _ _ _ _
    refine hsegment ?_ fun _ => hack
    cases hc : a.header.control <;> simp_all [Ctrl.ordinary]

theorem processUnreliable_moves (control : Ctrl) (sbuf : List Byte) :
    Moves strict trusted rx f (f.processUnreliable env control sbuf).1 := by
  unfold processUnreliable
  split
  · rename_i h
    have hpush (g : Flow) (hg : g.core=f.core) (pkt : List Byte) : Moves strict trusted rx f
        ({ g with unrel.rlist := g.unrel.rlist ++ [pkt] }.allertReadable env) := by
      have hp : Moves strict trusted rx f { g with unrel.rlist := g.unrel.rlist ++ [pkt] } :=
        .of_core_eq hg
      refine hp.trans (allertReadable_moves env fun _ => .inr (.inl ?_))
      have hs : g.ctl.state=f.ctl.state := congrArg Core.state hg
      exact (hs.trans h.2.2).ge
    dsimp only
    split
    · exact hpush f rfl _
    · generalize tryKeep f.unrel.rkeeper env.tick _ = kept
      obtain ⟨rkeeper,kept⟩ := kept
      have hk : { f with unrel.rkeeper := rkeeper }.core = f.core := rfl
      cases kept with
      | true => exact hpush _ hk _
      | false => exact .of_core_eq hk
  · exact .refl f

/-! ### `__process` and `on_received` -/

variable {src : Endpoint} {sbuf : List Byte}

theorem process_moves (safe : strict → f.ctl.state ≠ .closed → (decode sbuf).control.ordinary = true →
      f.core.AckSafe (decode sbuf).ackno) (hn : (decode sbuf).control = .data → trusted →
      f.core.Ready ∨ f.core.Accepts (decode sbuf).ackno) :
    Moves strict trusted (Event.received sbuf src).arrival f (f.process env sbuf src).1 := by
  unfold process
  split
  · exact .refl f
  rename_i live
  split
  · exact .refl f
  dsimp only
  split
  · exact .refl f
  have hnote : Moves strict trusted (Event.received sbuf src).arrival f
    (f.noteHeader env (Header.decode sbuf)) := .of_core_eq rfl
  refine hnote.trans ?_
  split
  · exact processUnreliable_moves env _ sbuf
  rename_i hrel
  split
  · exact .refl _
  · exact processReliable_moves env live hrel (fun hs => safe hs live) hn

theorem processSegment_false
    {connected : Bool} (hp : f.processSegment env h data src connected = (g, false)) : g=f := by
  unfold processSegment at hp
  split at hp
  · simp only [Prod.mk.injEq,and_true] at hp
    exact hp.symm
  · split at hp <;> simp only [Prod.mk.injEq,Bool.true_eq_false,and_false] at hp

theorem processReliable_false
    (live : f.ctl.state ≠ .closed) (hp : f.processReliable env h data src = (g, false)) :
    g.ctl.state ≠ .closed := by
  have hestablished : (f.processConnectAck h data).ctl.state = .established := rfl
  unfold processReliable at hp
  split at hp
  · split at hp
    · cases hp
    split at hp <;> cases hp
  · cases hp
  · split at hp
    · split at hp
      · cases hp
        exact live
      · rw [processSegment_false env hp,hestablished]
        decide
    · rwa [processSegment_false env hp]
  · cases hp
  · cases hp
  · cases hp
  · cases hp
  · rwa [processSegment_false env hp]

theorem process_false (h : f.process env sbuf src = (g, false)) : g.ctl.state ≠ .closed := by
  unfold process at h
  split at h
  · cases h
  rename_i live
  split at h
  · cases h
    exact live
  dsimp only at h
  split at h
  · cases h
    exact live
  split at h
  · unfold processUnreliable at h
    split at h
    · split at h <;> simp only [Prod.mk.injEq,Bool.true_eq_false,and_false] at h
    · cases h
      exact live
  split at h
  · cases h
    exact live
  · exact processReliable_false (f := f.noteHeader env (Header.decode sbuf)) env live h

theorem onReceived_moves (safe : strict → f.ctl.state ≠ .closed → (decode sbuf).control.ordinary = true →
      f.core.AckSafe (decode sbuf).ackno) (hn : (decode sbuf).control = .data → trusted →
      f.core.Ready ∨ f.core.Accepts (decode sbuf).ackno)
    (taken : trusted → (f.process env sbuf src).2 = true ∨ f.core.Excused) :
    Moves strict trusted (Event.received sbuf src).arrival f (f.onReceived env sbuf src) := by
  have hp : Moves strict trusted (Event.received sbuf src).arrival f _ :=
    process_moves env safe hn
  unfold onReceived
  split
  · rename_i hg
    rwa [hg] at hp
  · rename_i g hg
    have live := process_false env hg
    rw [hg] at hp taken
    split
    · exact hp
    · intro hl
      refine (hp.trans (.micro fun _ => .rst (fits_reliableHeader env _ _ live) fun ht => ?_)) hl
      exact (hp.grows hl).excused ((taken ht).resolve_left nofun)

/-! ### The clock -/

theorem clockRetransmit_becomes (live : f.ctl.state ≠ .closed)
    (counted : strict → ∀ seg∈f.snd.retransSlist, seg.xmit≠0) :
    Becomes strict trusted rx f (f.clockRetransmit env).1 := by
  unfold clockRetransmit
  split
  · split
    · exact .of_core_eq rfl
    · rename_i hne
      have ht : Becomes strict trusted rx f _ :=
        retransmit_becomes env live (fun _ => hne) counted
      split
      · rename_i hg
        rwa [hg] at ht
      · rename_i hg
        rw [hg] at ht
        exact ht.trans (.of_core_eq rfl)
  · exact .refl f

theorem clockRetransmit_some {sent : Bool} (h : f.clockRetransmit env = (g, some sent)) :
    g.ctl=f.ctl := by
  unfold clockRetransmit at h
  split at h
  · split at h
    · cases h
      rfl
    · split at h
      · cases h
      · rename_i hg
        simp only [Prod.mk.injEq] at h
        rw [← h.1]
        exact (retransmit_true env hg).1
  · cases h
    rfl

theorem clockUnreliable_becomes (env : Env) (n : ℕ) (f : Flow) (live : f.ctl.state ≠ .closed) :
    Becomes strict trusted rx f (clockUnreliable env n f) ∧
      (clockUnreliable env n f).ctl = f.ctl := by
  induction n generalizing f with
  | zero => exact ⟨.refl f,rfl⟩
  | succ n ih =>
    unfold clockUnreliable
    split
    · exact ⟨.refl f,rfl⟩
    rename_i seg rest hs
    split
    · have hdue : f.core.unreliableDue=true := by simp [hs]
      have hsend : Becomes strict trusted rx f _ :=
        packetAsUnreliable_becomes env seg (.inr hdue) live
      have hput (slist : List SUnraliableSegment) : Becomes strict trusted rx
          (f.packetAsUnreliableAndSendout env seg).1
          { (f.packetAsUnreliableAndSendout env seg).1 with unrel.slist := slist } :=
        .micro fun _ => .unreliableDue _ fun _ => .inr hdue
      have hrest := ih { (f.packetAsUnreliableAndSendout env seg).1 with
        unrel.slist := if (f.packetAsUnreliableAndSendout env seg).2.remainXmit ≤ 0 then rest
          else insertUnreliable (f.packetAsUnreliableAndSendout env seg).2 rest } live
      exact ⟨hsend.trans ((hput _).trans hrest.1),hrest.2⟩
    · exact ⟨.refl f,rfl⟩

theorem clockPing_becomes (sent : Bool) : Becomes strict trusted rx f (f.clockPing env sent).1 := by
  unfold clockPing
  generalize (if f.ctl.active then f.tim.tLastsend else f.tim.tLastrecv + 5000) = pingBaseTime
  dsimp only
  split
  · exact ping_becomes env
  · exact .refl f

theorem ping_ctl (f : Flow) (env : Env) : (f.ping env).ctl = f.ctl := by
  unfold ping
  split
  · rfl
  · split <;> simp [queue]

theorem clockPing_ctl (f : Flow) (env : Env) (sent : Bool) : (f.clockPing env sent).1.ctl = f.ctl := by
  unfold clockPing
  generalize (if f.ctl.active then f.tim.tLastsend else f.tim.tLastrecv + 5000) = pingBaseTime
  dsimp only
  split
  · exact ping_ctl f env
  · rfl

theorem clockAck_becomes (sent : Bool) (live : f.ctl.state ≠ .closed) :
    Becomes strict trusted rx f (f.clockAck env sent) := by
  refine .ite (fun h => ?_) fun _ => .refl f
  exact ack_becomes env _ live (.inr (.inl (ackDue_of_ne h.2.1)))

theorem clockProbe_becomes (sent : Bool) (live : f.ctl.state ≠ .closed) :
    Becomes strict trusted rx f (f.clockProbe env sent) := by
  unfold clockProbe
  split
  · rename_i hp
    split
    · have hnote : Becomes strict trusted rx f (f.emit .timedOut) := emit_becomes trivial
      have hrst : Becomes strict trusted rx (f.emit .timedOut)
          ((f.emit .timedOut).packetAsReliableAndSendout env f.snd.sndNxt .rst []) := by
        refine .micro fun _ => .rst (fits_reliableHeader env _ _ live) fun _ => ⟨.inr ?_,.inr ?_⟩
        · simp [emit]
        · rw [core_state,show (f.emit _).ctl = f.ctl from rfl,hp.1]
          decide
      exact hnote.trans (hrst.trans ((allertDisconnected_becomes env _).trans
        toClosedState_becomes))
    · cases sent with
      | true => exact .trans (.of_core_eq rfl) (clockAck_becomes env true live)
      | false =>
        have hack : Becomes strict trusted rx f
            (f.packetAsReliableAndSendout env (f.snd.sndNxt - 1) .ack []) :=
          ack_becomes env _ live (.inl hp.1.ge)
        exact hack.trans (.trans (.of_core_eq rfl) (clockAck_becomes env true live))
  · exact clockAck_becomes env sent live

theorem onClock_becomes (counted : strict → ∀ seg∈f.snd.retransSlist, seg.xmit≠0) :
    Becomes strict trusted rx f (f.onClock env) := by
  unfold onClock
  split
  · exact .refl f
  rename_i live
  split
  · exact allertDisconnected_becomes env _
  split
  · exact allertDisconnected_becomes env _
  have hretrans : Becomes strict trusted rx f _ := clockRetransmit_becomes env live counted
  split
  · rename_i hg
    rwa [hg] at hretrans
  · rename_i g sent hg
    rw [hg] at hretrans
    have live₁ : g.ctl.state ≠ .closed := by rwa [clockRetransmit_some env hg]
    obtain ⟨hunrel,hctl⟩ : Becomes strict trusted rx g _ ∧ _ :=
      clockUnreliable_becomes env g.unrel.slist.length g live₁
    refine hretrans.trans (hunrel.trans ?_)
    have hping : Becomes strict trusted rx (clockUnreliable env g.unrel.slist.length g) _ :=
      clockPing_becomes env sent
    refine hping.trans (clockProbe_becomes env _ ?_)
    rwa [clockPing_ctl,hctl]

/-! ### Events -/

theorem asyncConnect_becomes (remoteEnp : Endpoint) (domainName : List Byte) (timeOut : ℕ)
    (socket : f.ctl.socket=true) :
    Becomes strict trusted rx f (f.asyncConnect env remoteEnp domainName timeOut) := by
  intro hl
  unfold asyncConnect
  split
  · exact post_becomes nofun (hl.joined socket) hl
  rename_i hs
  have hfresh : f.ctl.state = .init := by
    cases h : f.ctl.state <;> simp_all <;> exact absurd hs (by decide)
  have hnil : f.snd.slist=[] := hl.drained
  dsimp only
  generalize (if timeOut=0 then idleTimeout else timeOut) = t
  generalize hf₁ : ({ f with
    tim.tCloseBase := some (env.now + BitVec.ofNat 32 t)
    ctl := { f.ctl with remoteEndpoint := remoteEnp, active := true, state := .synSent } } : Flow) =
      f₁
  have hcore₁ : f₁.core = { f.core with
      state := .synSent, active := true, remoteEndpoint := remoteEnp } := by rw [← hf₁]; rfl
  have hsnd₁ : f₁.snd=f.snd := by rw [← hf₁]
  have hlive : f₁.ctl.state ≠ .closed := by rw [← hf₁]; nofun
  by_cases hd : domainName=[]
  · -- nothing is queued for an empty name, and nothing goes out
    subst hd
    have hnil₁ : f₁.core.snd.slist=[] := by rw [core_snd,hsnd₁,hnil]
    have hq : f₁.core.snd.queue [] .connect = f₁.core.snd := Outgoing.queue_nil _ hnil₁
    have hconnect : Becomes strict trusted rx f f₁ := by
      refine .micro fun _ => ?_
      rw [← Core.sentOut_nil hnil₁,← hq]
      refine .connect hfresh socket hcore₁ ?_
      rw [hq,hnil₁]
      exact .nil
    have hqueue : Becomes strict trusted rx f₁ (f₁.queue [] .connect) :=
      .of_core_eq (congrArg (fun snd => { f₁ with snd := snd }.core) hq)
    exact (hconnect.trans (hqueue.trans (attemptSend_becomes env .none hlive nofun))) hl
  · obtain ⟨hs,pre,post,hheaders,hatt,hcore⟩ :=
      (f₁.queue domainName .connect).core_attemptSend env .none hlive
        (Outgoing.queue_unsent _ _ (by simp [hsnd₁,hnil])) (Outgoing.queue_ne_nil _ (.inr hd))
    have hheaders' : f₁.core.Headers (f₁.core.snd.queue domainName .connect).slist hs :=
      hheaders.imp fun seg h hh => ⟨hh.1,hh.2,hh.3,hh.4,hh.5⟩
    rw [hcore]
    exact (ReflTransGen.single (.connect hfresh socket hcore₁ hheaders')).tail (.attempted hatt)

theorem runPosted_moves {p : Posted} (ordinary : p ≠ .flowUnregister)
    (due : f.ctl.active=true ∨ .established ≤ f.ctl.state) :
    Moves strict trusted rx f (f.runPosted env p) := by
  cases p with
  | flowUnregister => exact absurd rfl ordinary
  | asyncReceive => exact asyncReceive_moves env _
  | allertWriteable =>
    exact (Becomes.ite (fun _ => .refl f) fun _ =>
      allertWriteable_becomes env fun _ => due.imp_right .inl).moves
  | allertDisconnected ec =>
    exact (Becomes.ite (fun _ => .refl f) fun _ => allertDisconnected_becomes env _).moves
  | allertConnected ec =>
    exact (Becomes.ite (fun _ => .refl f) fun _ => allertConnected_becomes env _ due).moves

structure Admits (strict trusted : Prop) (f : Flow) (env : Env) (ev : Event) : Prop where
  ackSafe : strict → f.ctl.state ≠ .closed → ∀ a∈ev.arrival,
    a.header.control.ordinary=true → f.core.AckSafe a.header.ackno
  counted : strict → ev = .clock → ∀ seg∈f.snd.retransSlist, seg.xmit≠0
  ready : trusted → ∀ a∈ev.arrival, a.header.control = .data →
    f.core.Ready ∨ f.core.Accepts a.header.ackno
  taken : trusted → ∀ sbuf src, ev = .received sbuf src →
    (f.process env sbuf src).2 = true ∨ f.core.Excused

theorem step_moves {ev : Event} (ha : f.Admits strict trusted env ev) :
    Moves strict trusted ev.arrival f (f.step env ev) := by
  unfold step
  split
  · exact .refl f
  cases ev with
  | received sbuf src =>
    have hsafe (hs : strict) (live : f.ctl.state ≠ .closed) := ha.ackSafe hs live _ rfl
    have hready (ht : trusted) := ha.ready ht _ rfl
    have htaken (ht : trusted) := ha.taken ht sbuf src rfl
    exact onReceived_moves env hsafe (fun h ht => hready ht h) htaken
  | clock =>
    exact (onClock_becomes env fun hs => ha.counted hs rfl).moves
  | posted =>
    dsimp only
    split
    · exact .refl f
    · rename_i p rest hp
      by_cases hreg : p = .flowUnregister
      · subst hreg
        exact .micro fun _ => .unregister hp
      have hun : Moves strict trusted none f { f with posted := rest } :=
        .micro fun _ => .unpost hp hreg
      intro hl
      refine (hun.trans (runPosted_moves env hreg (hl.posted ?_))) hl
      simp [hp]
  | op op =>
    exact (runOp_becomes env op).moves
  | connect remoteEnp domainName timeOut =>
    exact (Becomes.ite (fun h => asyncConnect_becomes env remoteEnp domainName timeOut h)
      fun _ => .refl f).moves
  | acceptPending =>
    have ha : Becomes strict trusted none f { f with ctl.acceptPending := false } :=
      .of_core_eq rfl
    exact (Becomes.ite (fun _ => ha.trans (acceptFlow_becomes env)) fun _ => .refl f).moves

end Flow
end P2Streaming.Urdp
