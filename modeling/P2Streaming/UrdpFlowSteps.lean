import P2Streaming.UrdpFlowCore

/-!
# Every call of a flow is made of small steps: sending and closing

For each function of `urdp_flow` one lemma says that it leads from the core of the
flow before the call to the core after it. Its hypotheses are what the caller has
checked.
-/
namespace P2Streaming.Urdp
open BigEndianBytes Relation TransitionRuns Outgoing

def Flow.Becomes (strict trusted : Prop) (rx : Option Arrival) (f g : Flow) : Prop :=
  Leads Core.Local (Micro strict trusted rx) f.core g.core

namespace Flow

variable {strict trusted : Prop} {rx : Option Arrival} {f g h : Flow} (env : Env)

namespace Becomes

theorem refl (f : Flow) : Becomes strict trusted rx f f := Leads.refl _

theorem trans (hfg : Becomes strict trusted rx f g) (hgh : Becomes strict trusted rx g h) :
    Becomes strict trusted rx f h := Leads.trans (fun _ _ h => h.local) hfg hgh

theorem of_core_eq (he : g.core=f.core) : Becomes strict trusted rx f g := Leads.of_eq he.symm

theorem micro (hm : f.core.Local → Micro strict trusted rx f.core g.core) :
    Becomes strict trusted rx f g := Leads.single hm

theorem ite {p : Prop} [Decidable p] (ht : p → Becomes strict trusted rx f g)
    (he : ¬p → Becomes strict trusted rx f h) : Becomes strict trusted rx f (if p then g else h) := by
  split
  · exact ht ‹_›
  · exact he ‹_›

end Becomes

theorem fits_reliableHeader (seq : BitVec 32) (control : Ctrl) (hl : f.ctl.state ≠ .closed) :
    f.core.Fits (f.reliableHeader env seq control) control seq := ⟨rfl,rfl,rfl,rfl,hl⟩

theorem emit_becomes {o : Output} (ho : f.core.Notes o) :
    Becomes strict trusted rx f (f.emit o) := .micro fun _ => .note o ho

theorem ack_becomes (seq : BitVec 32) (hl : f.ctl.state ≠ .closed)
    (due : .established ≤ f.ctl.state ∨ f.core.ackDue=true ∨ f.core.Answers rx) :
    Becomes strict trusted rx f (f.packetAsReliableAndSendout env seq .ack []) :=
  .micro fun _ => .ack (fits_reliableHeader env seq .ack hl) due

theorem ackDue_of_ne (h : f.tim.tAck≠0) : f.core.ackDue=true := by
  simpa [core] using h

theorem scapeZero_ne (t : Time32) : scapeZero t ≠ 0#32 := by
  unfold scapeZero
  split
  · decide
  · assumption

theorem attemptAck_becomes (sflags : SendFlags) (hl : f.ctl.state ≠ .closed)
    (due : sflags ≠ .none → .established ≤ f.ctl.state ∨ f.core.Answers rx) :
    Becomes strict trusted rx f (f.attemptAck env sflags) := by
  apply Becomes.ite
  · rintro (rfl | ⟨ht,-⟩)
    · exact ack_becomes env _ hl ((due nofun).imp_right .inr)
    · exact ack_becomes env _ hl (.inr (.inl (ackDue_of_ne ht)))
  · intro _
    apply Becomes.ite
    · rintro ⟨hs,-⟩
      refine .micro fun _ => ?_
      have hd : { f with tim.tAck := scapeZero env.now }.core =
          { f.core with ackDue := true } := by
        simp [core,scapeZero_ne]
      rw [hd]
      exact .ackDue (due hs) hl
    · exact fun _ => .refl f

/-! ### Transmission -/

variable {seg : SSegment}

theorem transmit_unsent (f : Flow) (env : Env) (hx : seg.xmit=0) :
    f.transmit env seg = some (f.sendSegment env seg, { seg with xmit := seg.xmit + 1 }) := by
  have hlim : ¬(if f.ctl.state < .established then (16 : ℤ) else 8) ≤ seg.xmit.toInt := by
    rw [hx]
    split <;> decide
  rw [transmit,givesUp,if_neg (by simp [hlim])]

theorem transmitRetrans_becomes (hl : f.ctl.state ≠ .closed) (nonempty : strict → f.snd.retransSlist≠[])
    (counted : strict → ∀ seg∈f.snd.retransSlist, seg.xmit≠0) :
    Becomes strict trusted rx f (f.transmitRetrans env).1 := by
  unfold transmitRetrans transmit
  split
  · rename_i he
    exact .micro fun _ => .faultSending (fun hs => nonempty hs he) he
  · rename_i seg rest he
    by_cases hg : f.givesUp env seg = true
    · simpa [hg] using .refl f
    · simp only [hg,Bool.false_eq_true,if_false]
      exact .micro fun _ => .retransmit he (fun hs => counted hs seg (by simp [he]))
        (fits_reliableHeader env _ _ hl)

theorem attemptLoop_snd (env : Env) (l : List SSegment) (sflags : SendFlags) (f : Flow)
    (hl : f.snd.slist=l) (hx : ∀ seg∈l, seg.xmit=0) :
    (attemptLoop env l sflags f).snd = f.snd.drained := by
  induction l generalizing f sflags with
  | nil =>
    rw [drained_nil hl]
    unfold attemptLoop attemptAck
    split
    · rfl
    · split <;> rfl
  | cons seg rest ih =>
    have hseg := hx seg (by simp)
    rw [attemptLoop,transmit_unsent f env hseg]
    rw [ih _ _ rfl fun s hs => hx s (by simp [hs])]
    simp [sendSegment,packetAsReliableAndSendout,drained,hl,hseg,BitVec.ofNat_add,
      BitVec.add_assoc]

/-- One round of the loop: the segment goes out and moves to the retransmission queue. -/
def sendFirst (f : Flow) (env : Env) (seg : SSegment) (rest : List SSegment) : Flow :=
  let g := f.sendSegment env seg
  { g with
    snd.slist := rest
    snd.retransSlist := g.snd.retransSlist ++ [{ seg with xmit := seg.xmit + 1 }] }

theorem attemptLoop_cons (f : Flow) (env : Env) (rest : List SSegment)
    (sflags : SendFlags) (hx : seg.xmit=0) : attemptLoop env (seg::rest) sflags f =
      attemptLoop env rest .none (f.sendFirst env seg rest) := by
  rw [attemptLoop,transmit_unsent f env hx]
  rfl

theorem core_sendFirst (f : Flow) (env : Env) {rest : List SSegment}
    (hl : f.snd.slist = seg :: rest) (hx : seg.xmit=0) (hs : List ReliableHeader) :
    (f.sendFirst env seg rest).core.sentOut (f.sendFirst env seg rest).snd hs =
      f.core.sentOut f.snd (f.reliableHeader env seg.seq seg.ctrlType :: hs) := by
  simp [core,Core.sentOut,sendFirst,sendSegment,packetAsReliableAndSendout,drained,
    hl,hx,BitVec.ofNat_add,BitVec.add_assoc]

theorem core_attemptLoop (env : Env) (l : List SSegment) (sflags : SendFlags) (f : Flow)
    (hl : f.snd.slist=l) (hx : ∀ seg∈l, seg.xmit=0) (live : f.ctl.state ≠ .closed)
    (hne : l≠[]) : ∃ hs, f.core.Headers l hs ∧
      (attemptLoop env l sflags f).core = f.core.sentOut f.snd hs := by
  induction l generalizing f sflags with
  | nil => exact absurd rfl hne
  | cons seg rest ih =>
    have hseg := hx seg (by simp)
    have hfits := fits_reliableHeader env seg.seq seg.ctrlType live
    have hcore := core_sendFirst f env hl hseg
    rw [attemptLoop_cons f env rest sflags hseg]
    cases rest with
    | nil =>
      refine ⟨[_],.cons hfits .nil,?_⟩
      have hack : attemptLoop env [] .none (f.sendFirst env seg []) = f.sendFirst env seg [] := by
        simp [attemptLoop,attemptAck,sendFirst,sendSegment,packetAsReliableAndSendout]
      rw [hack,← hcore]
      simp [Core.sentOut,core,drained,sendFirst]
    | cons seg' rest =>
      have hctl : (f.sendFirst env seg (seg'::rest)).core.Fits = f.core.Fits := by
        funext h control seq
        exact propext ⟨fun h => ⟨h.1,h.2,h.3,h.4,h.5⟩,fun h => ⟨h.1,h.2,h.3,h.4,h.5⟩⟩
      obtain ⟨hs,hheaders,hloop⟩ := ih .none (f.sendFirst env seg (seg'::rest)) rfl
        (fun s hs => hx s (List.mem_cons_of_mem _ hs)) live (List.cons_ne_nil seg' rest)
      rw [Core.Headers,hctl] at hheaders
      exact ⟨_::hs,.cons hfits hheaders,hloop.trans (hcore hs)⟩

theorem attemptLoop_frame (env : Env) (l : List SSegment) (sflags : SendFlags) (f : Flow) :
    (attemptLoop env l sflags f).ctl = f.ctl ∧
      (attemptLoop env l sflags f).cc.sndWnd = f.cc.sndWnd ∧
      (attemptLoop env l sflags f).cc.cwnd = f.cc.cwnd := by
  induction l generalizing f sflags with
  | nil =>
    unfold attemptLoop attemptAck
    split
    · exact ⟨rfl,rfl,rfl⟩
    · split <;> exact ⟨rfl,rfl,rfl⟩
  | cons seg rest ih =>
    unfold attemptLoop transmit
    by_cases hg : f.givesUp env seg = true
    · simp [hg]
    · simp only [hg,Bool.false_eq_true,if_false]
      exact ih _ _

theorem core_idleWindow (f : Flow) (env : Env) : (f.idleWindow env).core = f.core := by
  unfold idleWindow
  split <;> rfl

@[simp] theorem idleWindow_snd (f : Flow) (env : Env) : (f.idleWindow env).snd = f.snd :=
  congrArg Core.snd (f.core_idleWindow env)

@[simp] theorem idleWindow_ctl (f : Flow) (env : Env) : (f.idleWindow env).ctl = f.ctl := by
  unfold idleWindow
  split <;> rfl

@[simp] theorem attemptSend_ctl (f : Flow) (env : Env) (sflags : SendFlags) :
    (f.attemptSend env sflags).ctl = f.ctl :=
  (attemptLoop_frame env _ sflags _).1.trans (f.idleWindow_ctl env)

theorem attemptLoop_attempt (f : Flow) (env : Env) (sflags : SendFlags)
    (hx : ∀ seg∈f.snd.slist, seg.xmit=0) : Attempt f.window
    (attemptLoop env f.snd.slist sflags f).window :=
  ⟨hx,attemptLoop_snd env f.snd.slist sflags f rfl hx,
    (attemptLoop_frame env f.snd.slist sflags f).2.1,
    (attemptLoop_frame env f.snd.slist sflags f).2.2⟩

theorem attemptSend_becomes (sflags : SendFlags) (live : f.ctl.state ≠ .closed)
    (due : sflags ≠ .none → .established ≤ f.ctl.state ∨ f.core.Answers rx) :
    Becomes strict trusted rx f (f.attemptSend env sflags) := by
  intro hl
  have hcore := f.core_idleWindow env
  have hidle : Becomes strict trusted rx f (f.idleWindow env) := .of_core_eq hcore
  have hnil : (f.idleWindow env).snd.slist = [] := by rw [idleWindow_snd]; exact hl.drained
  have hatt := (f.idleWindow env).attemptLoop_attempt env sflags (by rw [hnil]; nofun)
  have hack : Becomes strict trusted rx (f.idleWindow env)
      (attemptLoop env (f.idleWindow env).snd.slist sflags (f.idleWindow env)) := by
    rw [hnil]
    exact attemptAck_becomes env sflags (by rwa [idleWindow_ctl]) (by rwa [idleWindow_ctl,hcore])
  exact (hidle.trans (hack.trans (.micro fun _ => .attempted hatt))) hl

theorem core_attemptSend (f : Flow) (env : Env) (sflags : SendFlags)
    (live : f.ctl.state ≠ .closed) (hx : ∀ seg∈f.snd.slist, seg.xmit=0)
    (hne : f.snd.slist≠[]) : ∃ hs pre post, f.core.Headers f.snd.slist hs ∧
      Attempt pre post ∧
      (f.attemptSend env sflags).core = (f.core.sentOut f.snd hs).emit (.attempted pre post) := by
  have hidle := f.core_idleWindow env
  have hsnd := f.idleWindow_snd env
  obtain ⟨hs,hheaders,hcore⟩ := core_attemptLoop env (f.idleWindow env).snd.slist sflags
    (f.idleWindow env) rfl (by rwa [hsnd]) (by rwa [idleWindow_ctl]) (by rwa [hsnd])
  rw [hidle,hsnd] at hheaders
  rw [hidle,hsnd] at hcore
  refine ⟨hs,_,_,hheaders,
    (f.idleWindow env).attemptLoop_attempt env sflags (by rwa [hsnd]),?_⟩
  rw [← hcore,← hsnd]
  rfl

/-! ### Closing -/

theorem core_toClosedState (hl : f.ctl.state ≠ .closed) : f.toClosedState.core=f.core.toClosed := by
  rw [toClosedState,if_neg hl]
  rfl

theorem toClosedState_becomes : Becomes strict trusted rx f f.toClosedState := by
  exact .ite (fun hc => .micro fun _ => .cancel hc) fun hc => .micro fun _ => .closed hc

theorem sendFin_becomes (waiting : f.ctl.state = .closing)
    (done : f.snd.retransSlist=[] ∨ ∃ a∈rx, a.header.control.ordinary=true ∧
      a.header.ackno = f.snd.sndNxt ∧
      (f.snd.sndUna=f.snd.sndNxt ∨ modLess f.snd.sndUna f.snd.sndNxt = false)) :
    Becomes strict trusted rx f (f.sendFin env) :=
  .micro fun _ => .fin (h := f.reliableHeader env f.snd.sndNxt .fin) waiting
    (fits_reliableHeader env _ _ (by rw [waiting]; decide)) done

theorem doClose_becomes (graceful : Bool) (excused : trusted → f.core.Excused ∨
      graceful = true ∧ (f.ctl.canceled=true ∨ .established ≤ f.ctl.state)) :
    Becomes strict trusted rx f (f.doClose env graceful) := by
  intro hl
  unfold doClose
  split
  · exact toClosedState_becomes hl
  rename_i hlive
  split
  · exact .refl
  rename_i hcc
  have hsd : f.ctl.shutdown = .none := hl.shutdown (by simpa using hcc)
  by_cases hforce : !graceful ∨ f.ctl.state < .established
  · simp only [hforce,if_true]
    have hexc : trusted → f.core.Excused := by
      intro ht
      rcases excused ht with he | ⟨rfl,hcan | hest⟩
      · exact he
      · rcases hl.canceled hcan with h | h
        · exact absurd h hcc
        · exact absurd h hlive
      · rcases hforce with h | h
        · cases h
        · exact absurd h hest.not_gt
    refine .single ?_
    have hm : Micro strict trusted rx f.core _ :=
      .abort (fits_reliableHeader env f.snd.sndNxt .rst hlive) hexc
    rw [core_toClosedState]
    · exact hm
    · exact hlive
  · simp only [hforce,if_false,hsd,if_true]
    have hest : TcpState.established≤f.ctl.state := Nat.le_of_not_lt fun h => hforce (.inr h)
    have hclosing : Becomes strict trusted rx f { f with ctl := { f.ctl with
        canceled := true, socket := false, closeCalled := true, shutdown := .graceful
        state := .closing } } :=
      .micro fun _ => .closing hest hlive (by simpa using hcc)
    split
    · rename_i hnil
      exact (hclosing.trans (sendFin_becomes env rfl (.inl hnil.1))) hl
    · exact hclosing hl

theorem close_becomes (graceful : Bool) (due : f.ctl.active=true ∨ .established ≤ f.ctl.state) :
    Becomes strict trusted rx f (f.close env graceful) := by
  refine .ite (fun _ => .refl f) fun _ => ?_
  have hnote : Becomes strict trusted rx { f with ctl.disconnLocal := true } _ :=
    emit_becomes (o := .closeCalled) trivial
  refine .trans (.of_core_eq rfl) (hnote.trans (doClose_becomes env graceful fun _ => .inl ?_))
  refine ⟨.inl (by simp [emit]),due.imp_right fun he hs => ?_⟩
  rw [show f.ctl.state = .listen from hs] at he
  exact absurd he (by decide)

/-! ### Calls of the application -/

theorem post_becomes {p : Posted} (ordinary : p ≠ .flowUnregister)
    (due : f.ctl.active=true ∨ .established ≤ f.ctl.state) :
    Becomes strict trusted rx f (f.post p) := .micro fun _ => .post p ordinary due

variable (buf : List Byte) (msgType : BitVec 16)

theorem sendReliable_becomes (he : f.ctl.state = .established) (hs : f.ctl.socket=true) :
    Becomes strict trusted rx f (f.sendReliable env buf msgType).1 := by
  intro hl
  have hlive : f.ctl.state ≠ .closed := by rw [he]; decide
  have hnil : ∀ seg∈f.snd.slist, seg.xmit=0 := by simp [show f.snd.slist = [] from hl.drained]
  generalize hf₁ : ((f.emit (.sent msgType buf)).queue
    (beBytes 2 (buf.length % 2^16) ++ beBytes 2 msgType.toNat) .data).queue
    (buf.take (buf.length % 2^16)) .data = f₁
  have hctl : f₁.ctl=f.ctl := by rw [← hf₁]; rfl
  have hsnd : f₁.snd = (f.snd.queue (beBytes 2 (buf.length % 2^16) ++ beBytes 2 msgType.toNat)
    .data).queue (buf.take (buf.length % 2^16)) .data := by rw [← hf₁]; rfl
  have hout (hs : List ReliableHeader) : f₁.core.sentOut f₁.snd hs =
      (f.core.emit (.sent msgType buf)).sentOut f₁.snd hs := by rw [← hf₁]; rfl
  obtain ⟨hs,pre,post,hheaders,hatt,hcore⟩ := f₁.core_attemptSend env .none (by rwa [hctl])
    (by rw [hsnd]; exact queue_unsent _ _ (queue_unsent _ _ hnil))
    (by
      rw [hsnd]
      refine queue_ne_nil _ (.inl (queue_ne_nil _ (.inr fun h => ?_)))
      simpa using congrArg List.length h)
  have hheaders' : f.core.Headers f₁.snd.slist hs := by
    refine hheaders.imp fun seg h hh => ?_
    rw [← hf₁] at hh
    exact ⟨hh.1,hh.2,hh.3,hh.4,hh.5⟩
  have hsend : Becomes strict trusted rx f (f₁.attemptSend env .none) := by
    intro _
    rw [hcore,hout]
    exact (ReflTransGen.single (.send he ‹_› hsnd hheaders')).tail (.attempted hatt)
  unfold sendReliable
  dsimp only
  rw [hf₁]
  split
  · refine (hsend.trans (.micro fun _ => .detectWritable true fun _ => ?_)) hl
    rw [core_state,attemptSend_ctl,hctl]
    exact he
  · exact hsend hl

theorem packetAsUnreliable_becomes (seg : SUnraliableSegment)
    (due : f.ctl.state = .established ∨ f.core.unreliableDue=true) (live : f.ctl.state ≠ .closed) :
    Becomes strict trusted rx f (f.packetAsUnreliableAndSendout env seg).1 :=
  .micro fun _ => .unreliable seg.unreliable rfl due live

theorem sendUnreliable_becomes (semireliable : Bool)
    (he : f.ctl.state = .established) :
    Becomes strict trusted rx f (f.sendUnreliable env buf msgType semireliable) := by
  have hlive : f.ctl.state ≠ .closed := by rw [he]; decide
  refine .ite (fun _ => .refl f) fun _ => ?_
  refine .trans (.of_core_eq rfl) (.trans (packetAsUnreliable_becomes env _
    (.inl he) hlive) (.ite (fun _ => ?_) fun _ => .refl _))
  exact .micro fun _ => .unreliableDue _ fun _ => .inl he

theorem send_becomes (mode : Reliability) :
    Becomes strict trusted rx f (f.send env buf msgType mode).1 := by
  unfold send
  split
  · exact .refl f
  · rename_i h
    simp only [Bool.not_eq_true',not_or,Bool.not_eq_false,not_not] at h
    cases mode with
    | reliable => exact sendReliable_becomes env buf msgType h.2 h.1
    | semireliable => exact sendUnreliable_becomes env buf msgType true h.2
    | unreliable => exact sendUnreliable_becomes env buf msgType false h.2

@[simp] theorem sendReliable_ctl (f : Flow) (env : Env) (buf : List Byte) (msgType : BitVec 16) :
    (f.sendReliable env buf msgType).1.ctl = f.ctl := by
  unfold sendReliable
  dsimp only
  split <;> simp [queue,emit]

@[simp] theorem sendUnreliable_ctl (f : Flow) (env : Env) (buf : List Byte) (msgType : BitVec 16)
    (semireliable : Bool) : (f.sendUnreliable env buf msgType semireliable).ctl = f.ctl := by
  unfold sendUnreliable
  split
  · rfl
  · exact (apply_ite Flow.ctl _ _ _).trans (ite_self f.ctl)

@[simp] theorem send_ctl (f : Flow) (env : Env) (buf : List Byte) (msgType : BitVec 16)
    (mode : Reliability) : (f.send env buf msgType mode).1.ctl = f.ctl := by
  unfold send
  split
  · rfl
  · cases mode <;> simp

theorem asyncSend_becomes (mode : Reliability)
    (due : f.ctl.active=true ∨ .established ≤ f.ctl.state) :
    Becomes strict trusted rx f (f.asyncSend env buf msgType mode) := by
  have hs : Becomes strict trusted rx f _ := send_becomes env buf msgType mode
  have hc := send_ctl f env buf msgType mode
  unfold asyncSend
  split
  · rename_i g hg
    rw [hg] at hs hc
    split
    · exact hs.trans (post_becomes nofun (by rwa [hc]))
    · exact hs
  · rename_i g hg
    rwa [hg] at hs
  · rename_i g ec hec hg
    rw [hg] at hs hc
    exact hs.trans (post_becomes nofun (by rwa [hc]))

theorem ping_becomes : Becomes strict trusted rx f (f.ping env) := by
  intro hl
  unfold ping
  split
  · exact .refl
  rename_i he
  have he : f.ctl.state = .established := by simpa using he
  have hlive : f.ctl.state ≠ .closed := by rw [he]; decide
  have hnil : ∀ seg∈f.snd.slist, seg.xmit=0 := by simp [show f.snd.slist = [] from hl.drained]
  split
  · rename_i hidle
    obtain ⟨hs,pre,post,hheaders,hatt,hcore⟩ := (f.queue [0] .ack).core_attemptSend env .none hlive
      (queue_unsent _ _ hnil) (queue_ne_nil _ (.inr nofun))
    rw [hcore]
    have hheaders' : f.core.Headers (f.snd.queue [0] .ack).slist hs :=
      hheaders.imp fun seg h hh => ⟨hh.1,hh.2,hh.3,hh.4,hh.5⟩
    exact (ReflTransGen.single (.ping he hidle.2 hheaders')).tail (.attempted hatt)
  · exact attemptSend_becomes env .none hlive nofun hl

theorem keepAsyncReceiving_becomes (due : f.ctl.active=true ∨ .established ≤ f.ctl.state) :
    Becomes strict trusted rx f f.keepAsyncReceiving := by
  exact .ite (fun _ => .refl f) fun _ => .trans (.of_core_eq rfl) (post_becomes nofun due)

theorem keepAsyncReceiving_socket (f : Flow) : f.keepAsyncReceiving.ctl.socket=f.ctl.socket := by
  unfold keepAsyncReceiving
  split <;> rfl

theorem runOp_becomes (op : AppOp) : Becomes strict trusted rx f (f.runOp env op) := by
  intro hl
  unfold runOp
  split
  · exact .refl
  · rename_i hs
    have due := hl.joined (by simpa using hs)
    cases op with
    | send buf msgType mode => exact asyncSend_becomes env buf msgType mode due hl
    | ping => exact ping_becomes env hl
    | close graceful => exact close_becomes env graceful due hl
    | keepReceiving => exact keepAsyncReceiving_becomes due hl
    | blockReceiving | pingInterval msec => exact .refl

theorem runOps_becomes (ops : List AppOp) : Becomes strict trusted rx f (f.runOps env ops) := by
  induction ops generalizing f with
  | nil => exact .refl f
  | cons op ops ih => exact (runOp_becomes env op).trans ih

theorem call_becomes {c : Callback} (more : c.terminal=false) (attached : f.ctl.socket=true) :
    Becomes strict trusted rx f (f.call env c) := by
  have hnote : Becomes strict trusted rx f (f.emit (.callback c)) := emit_becomes ⟨attached,more⟩
  unfold call
  split
  · exact hnote
  · exact hnote
  · exact hnote.trans (runOps_becomes env _)

theorem report_becomes {c : Callback} (last : c.terminal=true) (attached : f.ctl.socket=true) :
    Becomes strict trusted rx f (f.call env c).toClosedState := by
  have hcall : f.call env c = f.emit (.callback c) := by
    unfold call
    split
    · rfl
    · rfl
    · cases c with
      | onConnected ec => cases ec <;> simp_all [Callback.terminal]
      | _ => simp_all [Callback.terminal]
  refine .micro fun hl => ?_
  have live : f.ctl.state ≠ .closed := fun hs =>
    Bool.noConfusion (attached.symm.trans (hl.detached (.inr hs)))
  rw [hcall,core_toClosedState (by exact live)]
  exact .report c last attached live

theorem attached_of_not (h : ¬(!f.ctl.socket ∨ f.ctl.canceled)) : f.ctl.socket=true := by
  simpa using (not_or.mp h).1

end Flow
end P2Streaming.Urdp
