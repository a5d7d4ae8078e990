import P2Streaming.UrdpFlowSteps

/-!
# Every call of a flow is made of small steps: reading and notifying

A message that leaves `__recv` reaches the application before anything else happens to
the receive queue, so it is one step together with its callback.
-/
namespace P2Streaming.Urdp
open BigEndianBytes Relation TransitionRuns

/-- Small steps and handed-over messages lead from one flow to another. -/
def Flow.Moves (strict trusted : Prop) (rx : Option Arrival) (f g : Flow) : Prop :=
  Leads Core.Local (Move strict trusted rx) f.core g.core

namespace Flow

variable {strict trusted : Prop} {rx : Option Arrival} {f g h : Flow} (env : Env)

theorem Becomes.moves (hb : Becomes strict trusted rx f g) : Moves strict trusted rx f g :=
  fun hl => (hb hl).lift id fun _ _ => .micro

namespace Moves

theorem refl (f : Flow) : Moves strict trusted rx f f := Leads.refl _

theorem trans (hfg : Moves strict trusted rx f g) (hgh : Moves strict trusted rx g h) :
    Moves strict trusted rx f h := Leads.trans (fun _ _ h => h.local) hfg hgh

theorem of_core_eq (he : g.core=f.core) : Moves strict trusted rx f g := Leads.of_eq he.symm

theorem micro (hm : f.core.Local → Micro strict trusted rx f.core g.core) :
    Moves strict trusted rx f g := (Becomes.micro hm).moves

theorem grows (hm : Moves strict trusted rx f g) (hl : f.core.Local) : f.core.Grows g.core :=
  Move.steps_grow (hm hl)

theorem «local» (hm : Moves strict trusted rx f g) (hl : f.core.Local) : g.core.Local :=
  invariant_of_steps _ (fun _ _ h => h.local) (hm hl) hl

end Moves

/-! ### Reading -/

theorem reopenWindow_eq (f : Flow) (env : Env) : f.reopenWindow env = f ∨ ∃ room,
    f.reopenWindow env = { f with rcv.rcvWnd := room } ∨
      f.reopenWindow env = { f with rcv.rcvWnd := room }.attemptSend env .immediateAck := by
  unfold reopenWindow
  generalize BitVec.ofNat 32 recvBufSize - f.rcv.rlen = room
  dsimp only
  split
  · refine .inr ⟨room,?_⟩
    split
    · exact .inr rfl
    · exact .inl rfl
  · exact .inl rfl

theorem reopenWindow_becomes (he : f.ctl.state = .established) :
    Becomes strict trusted rx f (f.reopenWindow env) := by
  rcases f.reopenWindow_eq env with h | ⟨room,h | h⟩
  · exact .of_core_eq (by rw [h])
  · exact .of_core_eq (by rw [h]; rfl)
  · have hw : Becomes strict trusted rx f { f with rcv.rcvWnd := room } := .of_core_eq rfl
    rw [h]
    refine hw.trans (attemptSend_becomes env .immediateAck ?_ fun _ => .inl he.ge)
    rw [he]
    decide

@[simp] theorem reopenWindow_ctl (f : Flow) (env : Env) : (f.reopenWindow env).ctl = f.ctl := by
  rcases f.reopenWindow_eq env with h | ⟨room,h | h⟩
  · rw [h]
  · rw [h]
  · rw [h]
    exact attemptSend_ctl _ _ _

theorem canLetTransportRead_pos {n : ℤ} (he : f.ctl.state = .established)
    (hu : f.unrel.rlist=[]) (hc : f.canLetTransportRead = some n) (hn : n≠0) :
    ∃ bufForLen, lengthBytes f.rcv.rlist = some bufForLen ∧ n = ↑(beValue bufForLen + 4) ∧
      beValue bufForLen + 4 ≤ f.rcv.rlen.toNat := by
  unfold canLetTransportRead at hc
  rw [if_neg (by simp [he]),hu] at hc
  dsimp only at hc
  split at hc
  · cases hc
    exact absurd rfl hn
  · obtain ⟨bufForLen,hb,rfl⟩ := Option.map_eq_some_iff.mp hc
    refine ⟨bufForLen,hb,?_⟩
    split
    · rename_i hlt
      rw [if_pos hlt] at hn
      exact absurd rfl hn
    · exact ⟨rfl,by omega⟩

theorem canLetTransportRead_none (h : f.canLetTransportRead=none) :
    f.ctl.state = .established ∧ f.core.Stuck := by
  unfold canLetTransportRead at h
  split at h
  · cases h
  rename_i he
  refine ⟨not_not.mp he,?_⟩
  split at h
  · cases h
  split at h
  · cases h
  · rename_i hlen
    rw [Option.map_eq_none_iff] at h
    refine ⟨Nat.not_lt.mp hlen,fun bufForLen hb => ?_⟩
    rw [core_rlist,h] at hb
    cases hb

theorem recv_ok {buf : List Byte} (hr : f.recv env = (g, .ok buf)) :
    f.ctl.socket=true ∧ f.ctl.state = .established ∧ g.ctl=f.ctl ∧
      (g.core=f.core ∨ ∃ f₁ : Flow, f.core.Delivery buf f₁.core ∧
        Becomes strict trusted rx f₁ g) := by
  unfold recv at hr
  split at hr
  · cases hr
  rename_i hc
  simp only [Bool.not_eq_true',not_or,Bool.not_eq_false,not_not] at hc
  refine ⟨hc.1,hc.2,?_⟩
  split at hr
  · cases hr
  rename_i n hn
  split at hr
  · cases hr
  rename_i hn0
  split at hr
  · cases hr
    exact ⟨rfl,.inl rfl⟩
  rename_i hu
  obtain ⟨bufForLen,hb,rfl,hle⟩ := canLetTransportRead_pos hc.2 hu hn hn0
  split at hr
  · cases hr
  · rename_i bytes rlist ht
    simp only [Prod.mk.injEq,Except.ok.injEq] at hr
    obtain ⟨rfl,rfl⟩ := hr
    refine ⟨reopenWindow_ctl _ _,.inr ⟨_,?_,reopenWindow_becomes env hc.2⟩⟩
    exact ⟨hc.2,hc.1,bufForLen,bytes,rlist,hb,hle,ht,rfl,rfl⟩

theorem recv_error {ec : ErrorCode} (hr : f.recv env = (g, .error ec)) :
    Becomes strict trusted rx f g := by
  unfold recv at hr
  split at hr
  · cases hr
    exact .refl _
  rename_i hc
  simp only [Bool.not_eq_true',not_or,Bool.not_eq_false,not_not] at hc
  have hfault (hs : f.core.Stuck) : Becomes strict trusted rx f { f with fault := some .rlist } :=
    .micro fun _ => .faultReading hc.2 hs
  split at hr
  · rename_i hn
    cases hr
    exact hfault (canLetTransportRead_none hn).2
  rename_i n hn
  split at hr
  · cases hr
    exact .of_core_eq rfl
  rename_i hn0
  split at hr
  · cases hr
  rename_i hu
  obtain ⟨bufForLen,hb,rfl,hle⟩ := canLetTransportRead_pos hc.2 hu hn hn0
  split at hr
  · rename_i ht
    cases hr
    refine hfault ⟨by rw [core_rlen]; omega,fun bufForLen' hb' => ?_⟩
    rw [core_rlist,hb] at hb'
    cases hb'
    exact ⟨hle,ht⟩
  · simp only [Prod.mk.injEq,reduceCtorEq,and_false] at hr

theorem allertDisconnected_becomes (ec : Option ErrorCode) :
    Becomes strict trusted rx f (f.allertDisconnected env ec) := by
  have hnote : Becomes strict trusted rx f
      (if ec = some .timedOut then f.emit .timedOut else f) :=
    .ite (fun _ => emit_becomes trivial) fun _ => .refl f
  refine hnote.trans ?_
  unfold allertDisconnected
  generalize (if ec = some .timedOut then f.emit .timedOut else f) = f₁
  refine .ite (fun _ => toClosedState_becomes) fun hattached => ?_
  have attached := attached_of_not hattached
  by_cases hc : !f₁.ctl.disconnLocal ∧ f₁.ctl.state ≠ .closed
  · rw [if_pos hc]
    by_cases he : TcpState.established≤f₁.ctl.state
    · rw [if_pos he]
      exact report_becomes env rfl attached
    · rw [if_neg he]
      by_cases ha : f₁.ctl.active=true
      · rw [if_pos ha]
        cases ec with
        | none => exact (call_becomes env rfl attached).trans toClosedState_becomes
        | some ec => exact report_becomes env rfl attached
      · rw [if_neg ha]
        exact toClosedState_becomes
  · rw [if_neg hc]
    exact toClosedState_becomes

theorem handover_moves {buf : List Byte} (hr : f.recv env = (g, .ok buf)) :
    Moves strict trusted rx f (g.allertReceived env buf) := by
  intro hl
  obtain ⟨hs,he,hctl,hcore⟩ : _ ∧ _ ∧ _ ∧ (_ ∨ ∃ f₁ : Flow, _ ∧
    Becomes strict trusted rx f₁ g) := recv_ok env hr
  have hcan : f.ctl.canceled=false := (hl.unclosed (by rw [core_state,he]; decide)).1
  have hcall : g.allertReceived env buf =
      (g.emit (.callback (.onReceived buf))).runOps env
        (env.react (g.emit (.callback (.onReceived buf))).callbacks) := by
    simp [allertReceived,hctl,hs,hcan,call]
  have hattached : g.ctl.socket=true := by rw [hctl,hs]
  rw [hcall]
  rcases hcore with hcore | ⟨f₁,hd,hq⟩
  · have hnote : Becomes strict trusted rx g (g.emit (.callback (.onReceived buf))) :=
      emit_becomes ⟨hattached,rfl⟩
    exact ((Becomes.of_core_eq hcore).trans (hnote.trans (runOps_becomes env _))).moves hl
  · have hl₁ : f₁.core.Local := by
      obtain ⟨_,_,_,_,_,_,_,_,_,h₁⟩ := hd
      rw [h₁]
      exact ⟨hl.1,hl.2,hl.3,hl.4,hl.5,hl.6,hl.7,hl.8,hl.9,hl.10,hl.11⟩
    have hand : Moves strict trusted rx f (g.emit (.callback (.onReceived buf))) :=
      fun _ => .single (.handover hd (hq hl₁) hattached)
    exact (hand.trans (runOps_becomes env _).moves) hl

theorem asyncReceive_moves (n : ℕ) : Moves strict trusted rx f (asyncReceive env n f) := by
  induction n generalizing f with
  | zero => exact .refl f
  | succ n ih =>
    unfold asyncReceive
    split
    · exact .refl f
    split
    · exact .refl f
    split
    · exact (handover_moves env ‹_›).trans ih
    · exact (recv_error env ‹_›).moves
    · exact ((recv_error env ‹_›).trans (allertDisconnected_becomes env _)).moves

/-! ### Notifications -/

theorem selfClose_becomes (alone : !f.ctl.socket ∨ f.ctl.canceled)
    (ready : trusted → f.core.Ready) : Becomes strict trusted rx f (f.doClose env true) := by
  intro hl
  refine doClose_becomes env true (fun ht => ?_) hl
  rcases ready ht with ha | he | hx
  · refine .inr ⟨rfl,.inl ?_⟩
    rcases alone with hs | hc
    · by_contra hc
      have := hl.attached ha (by simpa using hc)
      simp_all
    · exact hc
  · exact .inr ⟨rfl,.inr he⟩
  · exact .inl hx

theorem allertConnected_becomes (ec : Option ErrorCode)
    (due : f.ctl.active=true ∨ .established ≤ f.ctl.state) :
    Becomes strict trusted rx f (f.allertConnected env ec) := by
  have ht : Becomes strict trusted rx f (f.noteEstablished env) := .of_core_eq rfl
  refine ht.trans (.ite (fun ha => selfClose_becomes env ha fun _ => ?_) fun ha => ?_)
  · exact due.imp_right .inl
  · have attached := attached_of_not ha
    have hk : Becomes strict trusted rx (f.noteEstablished env) _ := keepAsyncReceiving_becomes due
    cases ec with
    | none => exact hk.trans (call_becomes env rfl (by rwa [keepAsyncReceiving_socket]))
    | some ec => exact report_becomes env rfl attached

theorem allertReadable_moves (ready : trusted → f.core.Ready) :
    Moves strict trusted rx f (f.allertReadable env) := by
  unfold allertReadable
  split
  · exact (selfClose_becomes env ‹_› ready).moves
  split
  · exact .refl f
  split
  · rename_i hc
    obtain ⟨he,hs⟩ := canLetTransportRead_none hc
    exact .micro fun _ => .faultReading he hs
  split
  · exact .refl f
  · have hr : Moves strict trusted rx f { f with rcv.detectReadable := false } := .of_core_eq rfl
    refine hr.trans ?_
    dsimp only
    split
    · exact asyncReceive_moves env _
    · exact .refl _

theorem allertWriteable_becomes (ready : trusted → f.core.Ready) :
    Becomes strict trusted rx f (f.allertWriteable env) := by
  refine .ite (fun ha => selfClose_becomes env ha ready) fun ha =>
    .ite (fun _ => .trans ?_ (call_becomes env rfl (attached_of_not ha))) fun _ => .refl f
  exact .micro fun _ => .detectWritable false nofun

theorem acceptFlow_becomes : Becomes strict trusted rx f (f.acceptFlow env) := by
  refine .ite (fun he => .trans ?_ (call_becomes env rfl rfl)) fun _ => .refl f
  exact .micro fun _ => .accepted he

theorem allertAccepted_becomes (due : .established ≤ f.ctl.state) :
    Becomes strict trusted rx f (f.allertAccepted env) := by
  refine .ite (fun hc => selfClose_becomes env (.inr hc) fun _ => .inr (.inl due))
    fun _ => ?_
  have ht : Becomes strict trusted rx f (f.noteEstablished env) := .of_core_eq rfl
  have hk : Becomes strict trusted rx (f.noteEstablished env) _ :=
    keepAsyncReceiving_becomes (.inr due)
  refine ht.trans ?_
  split
  · exact hk.trans (acceptFlow_becomes env)
  · exact hk.trans (.of_core_eq rfl)
  · exact close_becomes env true (.inr due)

theorem notify_moves (connected newData accepted : Bool)
    (hc : connected=true → .established ≤ f.ctl.state)
    (ha : accepted=true → .established ≤ f.ctl.state) (hn : newData=true → trusted → f.core.Ready) :
    Moves strict trusted rx f (f.notify env connected newData accepted) := by
  intro hl
  have hw : f.cc.detectWritable=true → f.core.Ready :=
    fun h => .inr (.inl (hl.detectWritable h))
  have h₁ : Moves strict trusted rx f (if connected then f.allertConnected env none else f) := by
    split
    · exact (allertConnected_becomes env none (.inr (hc ‹_›))).moves
    · exact .refl f
  have hg₁ := h₁.grows hl
  unfold notify
  dsimp only
  generalize (if connected then f.allertConnected env none else f) = f₁ at h₁ hg₁ ⊢
  generalize hwr : (f.cc.detectWritable && decide (f.snd.slen.toNat < (sndBufSize+recvBufSize) / 2)) =
    writable
  have h₂ : Moves strict trusted rx f₁ (if writable then f₁.allertWriteable env else f₁) := by
    split
    · refine (allertWriteable_becomes env fun _ => hg₁.ready (hw ?_)).moves
      simp_all
    · exact .refl f₁
  have hg₂ := hg₁.trans (h₂.grows (h₁.local hl))
  generalize (if writable then f₁.allertWriteable env else f₁) = f₂ at h₂ hg₂ ⊢
  generalize hrd : (newData && f.rcv.detectReadable) = readable
  have h₃ : Moves strict trusted rx f₂ (if readable then f₂.allertReadable env else f₂) := by
    split
    · refine allertReadable_moves env fun ht => hg₂.ready (hn ?_ ht)
      simp_all
    · exact .refl f₂
  have hg₃ := hg₂.trans (h₃.grows ((h₁.trans h₂).local hl))
  generalize (if readable then f₂.allertReadable env else f₂) = f₃ at h₃ hg₃ ⊢
  refine (h₁.trans (h₂.trans (h₃.trans ?_))) hl
  split
  · exact (allertAccepted_becomes env (hg₃.established (ha ‹_›))).moves
  · exact .refl f₃

end Flow
end P2Streaming.Urdp
