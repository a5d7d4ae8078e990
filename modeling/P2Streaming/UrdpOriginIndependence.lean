import P2Streaming.UrdpReceiveShift
import P2Streaming.UrdpSystem

/-!
# What the initial sequence number changes

`__process` compares sequence numbers around the ring, with two exceptions. With those apart
the flow does the same wherever its numbers start; with them it does so just when the plain
comparisons come out alike.
-/
namespace P2Streaming.Urdp
open BigEndianBytes WrappableInteger SerialNumbers

variable {k : BitVec 32}

namespace Flow

variable {f : Flow} {h : ReliableHeader}

theorem processReliable_special (env : Env) (data : List Byte) (src : Endpoint)
    (hs : f.ctl.state = .established) (hc : h.control.ordinary=false) (hrel : h.control ≠ .unreliableData)
    (hsemi : h.control ≠ .semireliableData) :
    (f.shift k).processReliable env (h.shift k) data src =
    Prod.map (shift k) id (f.processReliable env h data src) := by
  have hlost (g : Flow) (ec : Option ErrorCode) : (g.shift k).allertDisconnected env ec =
      (g.allertDisconnected env ec).shift k := allertDisconnected_moved (φ := id) g env ec
  have hcontrol : (h.shift k).control = h.control := rfl
  unfold processReliable
  rw [hcontrol]
  cases hcase : h.control with
  | networkUnreachable =>
    refine ite_eq_map Iff.rfl (fun _ => rfl) fun _ => ite_eq_map Iff.rfl (fun _ => ?_) fun _ => ?_
    · exact congrArg (·, true) (allertConnected_moved (φ := id) f env _)
    · exact congrArg (·, true) (hlost { f with ctl.disconnRemote := true } _)
  | punch => exact congrArg (·, true) (processPunch_moved (φ := id) f env src)
  | connect =>
    have hstate : ¬ f.ctl.state = .listen := by rw [hs]; decide
    have hstate' : ¬ (f.shift k).ctl.state = .listen := hstate
    rw [if_neg hstate,if_neg hstate']
    rfl
  | rst => exact congrArg (·, true) (hlost { f with ctl.disconnRemote := true } _)
  | fin =>
    have hack := packetAsReliableAndSendout_moved (k := k) (φ := id) { f with ctl.disconnRemote :=
      true } env
      f.snd.sndNxt .finAck []
    exact congrArg (·, true) ((congrArg (allertDisconnected · env _) hack).trans
      (allertDisconnected_moved _ env _))
  | finAck => exact congrArg (·, true) (hlost f _)
  | unreliableData => exact absurd hcase hrel
  | semireliableData => exact absurd hcase hsemi
  | connectAck => exact nomatch (congrArg Ctrl.ordinary hcase).symm.trans hc
  | connectAckAck => exact nomatch (congrArg Ctrl.ordinary hcase).symm.trans hc
  | data => exact nomatch (congrArg Ctrl.ordinary hcase).symm.trans hc
  | ack => exact nomatch (congrArg Ctrl.ordinary hcase).symm.trans hc
  | unassigned code => exact nomatch (congrArg Ctrl.ordinary hcase).symm.trans hc

theorem processReliable_ordinary (env : Env) (data : List Byte) (src : Endpoint)
    (hs : f.ctl.state = .established) (hc : h.control.ordinary=true) :
    f.processReliable env h data src = f.processSegment env h data src false := by
  unfold processReliable
  cases hcase : h.control with
  | connectAck =>
    have hstate : ¬ f.ctl.state = .synSent := by rw [hs]; decide
    exact if_neg hstate
  | connectAckAck => rfl
  | data => rfl
  | ack => rfl
  | unassigned code => rfl
  | _ => exact nomatch (congrArg Ctrl.ordinary hcase).symm.trans hc

variable {env : Env}

theorem givesUp_of_heard (hheard : f.tim.tLastrecv=env.now) (seg : SSegment) :
    f.givesUp env seg = false := by
  have hsilent : modMinus env.now f.tim.tLastrecv = 0 := by simp [hheard,modMinus,wrappableMinus]
  simp [givesUp,hsilent]

theorem retransmit_of_heard (hheard : f.tim.tLastrecv=env.now) : (f.retransmit env).2 = true := by
  have hsent : (f.transmitRetrans env).2 = true := by
    unfold transmitRetrans transmit
    cases f.snd.retransSlist with
    | nil => rfl
    | cons seg rest => simp [givesUp_of_heard hheard]
  unfold retransmit
  obtain ⟨⟨g,sent⟩,hg⟩ : ∃ r, f.transmitRetrans env = r := ⟨_,rfl⟩
  rw [hg] at hsent ⊢
  obtain rfl : sent=true := hsent
  rfl

theorem takeAck_tLastrecv (f : Flow) (env : Env) (h : ReliableHeader) :
    (f.takeAck env h).tim.tLastrecv = f.tim.tLastrecv := by
  unfold takeAck echoRtt updateRtt
  split_ifs <;> rfl

section
variable (hheard : f.tim.tLastrecv=env.now)
include hheard

theorem adjustWindow_of_heard (nAcked : BitVec 32) :
    (f.adjustWindow env nAcked).2 = true := by
  have hsent := retransmit_of_heard hheard
  unfold adjustWindow
  obtain ⟨⟨g,sent⟩,hg⟩ : ∃ r, f.retransmit env = r := ⟨_,rfl⟩
  rw [hg] at hsent ⊢
  obtain rfl : sent=true := hsent
  split_ifs <;> rfl

theorem countDupAck_of_heard : (f.countDupAck env).2 = true := by
  by_cases hthird : f.cc.dupAcks+1=3
  · exact (congrArg Prod.snd (if_pos hthird)).trans (retransmit_of_heard hheard)
  · exact congrArg Prod.snd (if_neg hthird)

theorem processAck_of_heard (h : ReliableHeader)
    (data : List Byte) : (f.processAck env h data).2.isSome := by
  unfold processAck
  split_ifs
  · have htaken := adjustWindow_of_heard ((f.takeAck_tLastrecv env h).trans hheard)
      (h.ackno - f.snd.sndUna)
    unfold processNewAck
    obtain ⟨⟨g,taken⟩,hg⟩ : ∃ r, (f.takeAck env h).adjustWindow env (h.ackno - f.snd.sndUna) =
      r := ⟨_,rfl⟩
    rw [hg] at htaken ⊢
    obtain rfl : taken=true := htaken
    dsimp only
    split_ifs <;> rfl
  · unfold processDupAck
    dsimp only
    split_ifs
    · rfl
    · rfl
    · have hsent : (countDupAck { f with cc.sndWnd := h.window.setWidth 32 } env).2 = true :=
        countDupAck_of_heard hheard
      obtain ⟨⟨g,sent⟩,hg⟩ : ∃ r, countDupAck { f with cc.sndWnd := h.window.setWidth 32 } env =
        r := ⟨_,rfl⟩
      rw [hg] at hsent ⊢
      obtain rfl : sent=true := hsent
      rfl
  · rfl

end

def Reads (f : Flow) (h : ReliableHeader) (src : Endpoint) : Prop :=
  h.sessionId=f.ctl.sessionId ∧ f.ctl.remoteEndpoint=src ∧ h.control.ordinary=true

theorem process_reliable (env : Env) (data : List Byte) (src : Endpoint)
    (hs : f.ctl.state = .established) (hrel : h.control ≠ .unreliableData)
    (hsemi : h.control ≠ .semireliableData) : f.process env (Packet.reliable h data).encode src =
      if h.sessionId=f.ctl.sessionId ∧ f.ctl.remoteEndpoint=src then
        (f.noteHeader env h.toHeader).processReliable env h data src
      else (f, false) := by
  have hopen : ¬ f.ctl.state = .closed := by simp [hs]
  have hrejects : f.rejects h.toHeader src ↔ ¬ (h.sessionId=f.ctl.sessionId ∧
    f.ctl.remoteEndpoint=src) := by
    have hsyn : TcpState.synSent≤f.ctl.state := by rw [hs]; decide
    have hest : TcpState.established≤f.ctl.state := hs.ge
    simp only [rejects,hsyn,hest,true_and,not_and_or,ne_eq]
  rw [f.process_encode env data src hrel hsemi,if_neg hopen]
  simp only [hrejects,ite_not]

theorem heard_frame (f : Flow) (env : Env) (h : ReliableHeader) (data : List Byte) :
    ((f.noteHeader env h.toHeader).updateTimes env h data).snd = f.snd ∧
      ((f.noteHeader env h.toHeader).updateTimes env h data).rcv = f.rcv ∧
      ((f.noteHeader env h.toHeader).updateTimes env h data).cc =
      { f.cc with sndWnd := h.window.setWidth 32 } ∧
      ((f.noteHeader env h.toHeader).updateTimes env h data).tim.tLastrecv = env.now := by
  unfold updateTimes
  dsimp only
  split_ifs <;> exact ⟨rfl,rfl,rfl,rfl⟩

theorem process_reads (env : Env) (data : List Byte) (src : Endpoint)
    (hs : f.ctl.state = .established) (hreads : f.Reads h src) : ∃ g accepted,
      ((f.noteHeader env h.toHeader).updateTimes env h data).processAck env h data = (g, some accepted) ∧
      g.rcv = f.rcv ∧
      f.process env (Packet.reliable h data).encode src =
      (g.processRest env h data false accepted, true) := by
  obtain ⟨hsession,hsrc,hc⟩ := hreads
  have hrel : h.control ≠ .unreliableData ∧ h.control ≠ .semireliableData := by
    constructor <;> intro hcontrol <;> exact nomatch (congrArg Ctrl.ordinary hcontrol).symm.trans hc
  obtain ⟨-,hrcv,-,hheard⟩ := heard_frame f env h data
  have hsome := processAck_of_heard hheard h data
  obtain ⟨⟨g,answer⟩,hg⟩ : ∃ r, ((f.noteHeader env h.toHeader).updateTimes env h data).processAck
    env h data = r :=
    ⟨_,rfl⟩
  rw [hg] at hsome
  obtain ⟨accepted,rfl⟩ := Option.isSome_iff_exists.mp hsome
  refine ⟨g,accepted,hg,(processAck_some env hg).1.rcv.trans hrcv,?_⟩
  have hs' : (f.noteHeader env h.toHeader).ctl.state = .established := hs
  have hsrc' : ¬ (TcpState.synSent ≤ (f.noteHeader env h.toHeader).ctl.state ∧
      (f.noteHeader env h.toHeader).ctl.remoteEndpoint ≠ src) := fun hother => hother.2 hsrc
  rw [process_reliable env data src hs hrel.1 hrel.2,if_pos ⟨hsession,hsrc⟩,
    processReliable_ordinary env data src hs' hc,processSegment,if_neg hsrc',hg]

theorem moved_zero (f : Flow) : f.moved 0 (fun _ => f.cc.dupAcks) = f := by
  have hsseg : SSegment.shift 0#32 = id := by funext s; simp [SSegment.shift]
  have hrseg : RSegment.shift 0#32 = id := by funext s; simp [RSegment.shift]
  have hsnd (o : Outgoing) : o.shift 0#32 = o := by simp [Outgoing.shift,hsseg]
  have hout : Output.shift 0#32 = id := by
    funext o
    cases o with
    | datagram dst p => cases p <;> simp [Output.shift,Packet.shift,ReliableHeader.shift]
    | attempted pre post => simp [Output.shift,Window.shift,hsnd]
    | _ => rfl
  simp [moved,shift,hsnd,Incoming.shift,hrseg,Congestion.shift,hout]

theorem dupAcks_of_moved {F : Flow → Flow} (hF : ∀ φ, F (f.moved 0 φ) = (F f).moved 0 φ) :
    (F f).cc.dupAcks = f.cc.dupAcks := by
  have hsame := hF fun _ => f.cc.dupAcks
  rw [moved_zero] at hsame
  exact (congrArg (fun g : Flow => g.cc.dupAcks) hsame).trans rfl

theorem dupAcks_processRest (f : Flow) (env : Env) (h : ReliableHeader) (data : List Byte)
    (connected accepted : Bool) :
    (f.processRest env h data connected accepted).cc.dupAcks = f.cc.dupAcks := by
  have hshift : h.shift 0 = h := by simp [ReliableHeader.shift]
  refine dupAcks_of_moved (F := fun f => f.processRest env h data connected accepted) fun φ => ?_
  have hmoved := processRest_moved (k := 0) (φ := φ) f env h data connected accepted (by simp)
  rwa [hshift] at hmoved

theorem dupAcks_retransmit (f : Flow) (env : Env) : (f.retransmit env).1.cc.dupAcks = f.cc.dupAcks :=
  dupAcks_of_moved (F := fun f => (f.retransmit env).1) fun _ =>
    congrArg Prod.fst (retransmit_moved f env)

theorem dupAcks_adjustWindow (f : Flow) (env : Env) (nAcked : BitVec 32) (hdup : 3≤f.cc.dupAcks.toNat) :
    (f.adjustWindow env nAcked).1.cc.dupAcks = if f.cc.recover≤f.snd.sndUna then 0 else f.cc.dupAcks := by
  have hre := dupAcks_retransmit f env
  obtain ⟨⟨g,sent⟩,hg⟩ : ∃ r, f.retransmit env = r := ⟨_,rfl⟩
  rw [hg] at hre
  unfold adjustWindow
  rw [if_pos hdup,hg]
  split_ifs
  · rfl
  · cases sent <;> exact hre

def NewAck (f : Flow) (h : ReliableHeader) : Prop :=
  modLess f.snd.sndUna h.ackno = true ∧ modLessEqual h.ackno f.snd.sndNxt = true

theorem dupAcks_processAck (env : Env) (data : List Byte) (hnew : f.NewAck h)
    (hdup : 3≤f.cc.dupAcks.toNat) :
    (f.processAck env h data).1.cc.dupAcks = if f.cc.recover≤h.ackno then 0 else f.cc.dupAcks := by
  have hadjust : ((f.takeAck env h).adjustWindow env (h.ackno - f.snd.sndUna)).1.cc.dupAcks =
      if f.cc.recover≤h.ackno then 0 else f.cc.dupAcks := by
    have hcount := dupAcks_adjustWindow (f.takeAck env h) env (h.ackno - f.snd.sndUna)
      (by rw [takeAck_cc]; exact hdup)
    rw [takeAck_cc] at hcount
    exact hcount
  unfold NewAck at hnew
  rw [processAck,if_pos hnew,processNewAck,← hadjust]
  obtain ⟨g,taken⟩ := (f.takeAck env h).adjustWindow env (h.ackno - f.snd.sndUna)
  cases taken with
  | false => rfl
  | true =>
    dsimp only
    split_ifs <;> rfl

theorem dupAcks_process (env : Env) (data : List Byte) (src : Endpoint)
    (hs : f.ctl.state = .established) (hreads : f.Reads h src) (hnew : f.NewAck h)
    (hdup : 3≤f.cc.dupAcks.toNat) :
    (f.process env (Packet.reliable h data).encode src).1.cc.dupAcks =
      if f.cc.recover≤h.ackno then 0 else f.cc.dupAcks := by
  obtain ⟨g,accepted,hg,-,hprocess⟩ := process_reads env data src hs hreads
  obtain ⟨hsnd,-,hcc,-⟩ := heard_frame f env h data
  have hack := dupAcks_processAck (f := (f.noteHeader env h.toHeader).updateTimes env h data) env data
    (by rw [NewAck,hsnd]; exact hnew) (by rw [hcc]; exact hdup)
  rw [hcc,hg] at hack
  rw [hprocess,dupAcks_processRest]
  exact hack

theorem process_shift (env : Env) (data : List Byte) (src : Endpoint)
    (hs : f.ctl.state = .established) (hrel : h.control ≠ .unreliableData)
    (hsemi : h.control ≠ .semireliableData)
    (hold : f.Reads h src → data≠[] → (h.seqno+k<f.rcv.rcvNxt+k ↔ h.seqno<f.rcv.rcvNxt))
    (hrec : f.Reads h src → f.NewAck h → 3≤f.cc.dupAcks.toNat →
      (f.cc.recover+k≤h.ackno+k ↔ f.cc.recover≤h.ackno)) :
    (f.shift k).process env (Packet.reliable (h.shift k) data).encode src =
      Prod.map (shift k) id (f.process env (Packet.reliable h data).encode src) := by
  by_cases hreads : f.Reads h src
  · obtain ⟨g,accepted,hg,hrcv,hprocess⟩ := process_reads env data src hs hreads
    obtain ⟨g',accepted',hg',-,hprocess'⟩ := process_reads (f := f.shift k) (h :=
      h.shift k) env data src hs hreads
    obtain ⟨hsnd,-,hcc,-⟩ := heard_frame f env h data
    have htimes : ((f.shift k).noteHeader env (h.shift k).toHeader).updateTimes env (h.shift k) data =
        ((f.noteHeader env h.toHeader).updateTimes env h data).shift k :=
      updateTimes_moved (φ := id) (f.noteHeader env h.toHeader) env h data
    have hack := processAck_shift (k := k) ((f.noteHeader env h.toHeader).updateTimes env h data)
      env h data
      (by rw [hsnd,hcc]; exact hrec hreads)
    rw [← htimes,hg',hg] at hack
    obtain ⟨rfl,haccepted⟩ := Prod.mk.inj hack
    obtain rfl : accepted'=accepted := Option.some.inj haccepted
    have hrest : (g.shift k).processRest env (h.shift k) data false accepted' =
        (g.processRest env h data false accepted').shift k :=
      processRest_moved (φ := id) g env h data false accepted' (by rw [hrcv]; exact hold hreads)
    rw [hprocess,hprocess',hrest]
    rfl
  · rw [process_reliable env data src hs hrel hsemi,
      process_reliable (f := f.shift k) (h := h.shift k) env data src hs
      hrel hsemi]
    refine ite_eq_map Iff.rfl (fun hpass => ?_) fun _ => rfl
    have hspecial : h.control.ordinary=false := by
      rw [← Bool.not_eq_true]
      exact fun hc => hreads ⟨hpass.1,hpass.2,hc⟩
    exact processReliable_special (f := f.noteHeader env h.toHeader) env data src hs hspecial hrel hsemi

/-- `__process` cuts something off the segment. -/
def Trims (f : Flow) (h : ReliableHeader) (data : List Byte) : Prop :=
  trimSegment f.rcv.rcvNxt h.seqno data ≠ (h.seqno, data)

theorem trimSegment_fst {rcvNxt seqno : BitVec 32} (data : List Byte) (hlt : seqno < rcvNxt) :
    (trimSegment rcvNxt seqno data).1 = rcvNxt := by
  unfold trimSegment
  dsimp only
  split_ifs
  · exact add_sub_cancel seqno rcvNxt
  · rfl

theorem trims_iff (f : Flow) (h : ReliableHeader) (data : List Byte) :
    f.Trims h data ↔ h.seqno<f.rcv.rcvNxt := by
  constructor
  · intro htrims
    by_contra hge
    exact htrims (if_neg hge)
  · intro hlt hsame
    have hseq : f.rcv.rcvNxt=h.seqno := (trimSegment_fst data hlt).symm.trans (congrArg Prod.fst hsame)
    rw [hseq] at hlt
    exact BitVec.lt_irrefl _ hlt

end Flow

/-- As plain integers the two numbers are less than half the ring apart, or just that with the
sequence number as the larger one. -/
def PlainNear (rcvNxt seqno : BitVec 32) : Prop :=
  seqno.toNat ≤ rcvNxt.toNat + 2^31 ∧ rcvNxt.toNat < seqno.toNat + 2^31

theorem lt_iff_modLess_iff (seqno rcvNxt : BitVec 32) :
    (seqno < rcvNxt ↔ modLess seqno rcvNxt = true) ↔ PlainNear rcvNxt seqno := by
  rw [modLess,wrappableLess_iff,PlainNear,BitVec.lt_def,BitVec.toNat_sub]
  omega

namespace Flow

/-- A flow whose numbers start elsewhere does the same with a packet, and both cut off what is
old, just when the two plain comparisons come out as around the ring. -/
theorem process_shift_iff (f : Flow) (env : Env) (h : ReliableHeader) (data : List Byte) (src : Endpoint)
    (k : BitVec 32) (hs : f.ctl.state = .established) (hrel : h.control ≠ .unreliableData)
    (hsemi : h.control ≠ .semireliableData) :
    ((f.shift k).process env (Packet.reliable (h.shift k) data).encode src =
        Prod.map (shift k) id (f.process env (Packet.reliable h data).encode src) ∧
      (f.Reads h src → data≠[] → (f.Trims h data ↔ modLess h.seqno f.rcv.rcvNxt = true) ∧
        ((f.shift k).Trims (h.shift k) data ↔ modLess (h.shift k).seqno (f.shift k).rcv.rcvNxt = true))) ↔
      (f.Reads h src →
        (data≠[] → PlainNear f.rcv.rcvNxt h.seqno ∧ PlainNear (f.rcv.rcvNxt+k) (h.seqno+k)) ∧
        (f.NewAck h → 3≤f.cc.dupAcks.toNat →
          (f.cc.recover+k≤h.ackno+k ↔ f.cc.recover≤h.ackno))) := by
  have htrims : (f.Reads h src → data≠[] → (f.Trims h data ↔ modLess h.seqno f.rcv.rcvNxt = true) ∧
      ((f.shift k).Trims (h.shift k) data ↔ modLess (h.shift k).seqno (f.shift k).rcv.rcvNxt = true)) ↔
      (f.Reads h src → data≠[] → PlainNear f.rcv.rcvNxt h.seqno ∧
        PlainNear (f.rcv.rcvNxt+k) (h.seqno+k)) := by
    refine forall_congr' fun _ => forall_congr' fun _ => and_congr ?_ ?_
    · rw [trims_iff,lt_iff_modLess_iff]
    · rw [trims_iff,lt_iff_modLess_iff]
      rfl
  constructor
  · rintro ⟨hsame,hold⟩ hreads
    refine ⟨htrims.mp hold hreads,fun hnew hdup => ?_⟩
    -- the count of duplicate acknowledgements tells which way recovery went
    have hnew' : (f.shift k).NewAck (h.shift k) := by
      refine ⟨(modLess_shift _ _ k).trans hnew.1,(modLessEqual_shift _ _ k).trans hnew.2⟩
    have hcount := dupAcks_process env data src hs hreads hnew hdup
    have hcount' := dupAcks_process (f := f.shift k) (h := h.shift k) env data src hs hreads hnew' hdup
    have hcounts : (if f.cc.recover + k ≤ h.ackno + k then 0 else f.cc.dupAcks) =
        if f.cc.recover≤h.ackno then 0 else f.cc.dupAcks :=
      hcount'.symm.trans ((congrArg (fun r : Flow × Bool => r.1.cc.dupAcks) hsame).trans hcount)
    have hne : f.cc.dupAcks≠0 := by
      rintro hzero
      rw [hzero] at hdup
      exact absurd hdup (by decide)
    split_ifs at hcounts with hleft hright hright
    · exact iff_of_true hleft hright
    · exact absurd hcounts.symm hne
    · exact absurd hcounts hne
    · exact iff_of_false hleft hright
  · intro hcond
    refine ⟨process_shift env data src hs hrel hsemi (fun hreads hdata => ?_) fun hreads =>
      (hcond hreads).2,htrims.mpr fun hreads => (hcond hreads).1⟩
    obtain ⟨hplain,hshifted⟩ := (hcond hreads).1 hdata
    rw [(lt_iff_modLess_iff _ _).mpr hshifted,(lt_iff_modLess_iff _ _).mpr hplain,modLess_shift]

section Example

/-- An established flow that waits for the byte with the given number. -/
def awaiting (rcvNxt : BitVec 32) : Flow :=
  let f := init ⟨100,rcvNxt,5,7,0,0,0⟩ 0
  { f with ctl := { f.ctl with state := .established, socket := true, remoteEndpoint := ⟨1,1⟩ } }

def threeBytes (seqno : BitVec 32) : ReliableHeader := System.sessionHeader .data 7 0 seqno 100

theorem awaiting_process_shift : ((awaiting 5).shift 16).process stillEnv
      (Packet.reliable ((threeBytes 4).shift 16) [1,2,3]).encode ⟨1,1⟩ =
    Prod.map (shift 16) id ((awaiting 5).process stillEnv (Packet.reliable (threeBytes 4) [1,2,
      3]).encode ⟨1,1⟩) := by
  refine ((process_shift_iff (awaiting 5) stillEnv (threeBytes 4) [1,2,3] ⟨1,1⟩ 16 rfl (by decide)
    (by decide)).mpr fun _ => ⟨fun _ => ?_,fun _ hdup => ?_⟩).1
  · unfold PlainNear
    decide
  · exact absurd hdup (by decide)

/-- Seven bytes below the expected one lies beyond the wrap; the old bytes are kept. -/
theorem wrapped_process_shift : ((awaiting 5).shift 16).process stillEnv
      (Packet.reliable ((threeBytes 0xfffffffe).shift 16) [1,2,3]).encode ⟨1,1⟩ ≠ Prod.map (shift 16) id
      ((awaiting 5).process stillEnv (Packet.reliable (threeBytes 0xfffffffe) [1,2,3]).encode ⟨1,1⟩) := by
  intro hsame
  have hkept := congrArg (fun r : Flow × Bool => r.1.rcv.rlist.length) hsame
  exact absurd hkept (by decide +kernel)

end Example

end Flow
end P2Streaming.Urdp
