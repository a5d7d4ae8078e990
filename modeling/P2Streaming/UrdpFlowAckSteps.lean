import P2Streaming.UrdpFlowReceiveSteps

/-!
# Every call of a flow is made of small steps: acknowledgements

Under `strict`, an acknowledgement of new data ends where a segment ends, there is
something to retransmit whenever `__process` does so, and no segment has been sent so
often that its counter is back at zero.
-/
namespace P2Streaming.Urdp
open BigEndianBytes Relation TransitionRuns

/-- What `strict` asks of the retransmission queue when an acknowledgement is processed. -/
structure Core.AckSafe (c : Core) (ackno : BitVec 32) : Prop where
  boundary : modLess c.snd.sndUna ackno = true → modLessEqual ackno c.snd.sndNxt = true →
    c.snd.Boundary ackno
  recovering : modLess c.snd.sndUna ackno = true → modLessEqual ackno c.snd.sndNxt = true →
    3 ≤ c.dupAcks.toNat → ackno<c.recover → popAcked ackno c.snd.retransSlist ≠ []
  duplicate : ackno=c.snd.sndUna → c.snd.sndUna≠c.snd.sndNxt → c.snd.retransSlist≠[]
  counted : ∀ seg∈c.snd.retransSlist, seg.xmit≠0

theorem mem_of_mem_popAcked {sndUna : BitVec 32} {l : List SSegment} {seg : SSegment}
    (h : seg ∈ popAcked sndUna l) : seg∈l := by
  induction l with
  | nil => exact h
  | cons s rest ih =>
    unfold popAcked at h
    split at h
    · exact List.mem_cons_of_mem _ (ih h)
    · exact h

namespace Flow

variable {strict trusted : Prop} {rx : Option Arrival} {f g : Flow} (env : Env)

structure SameEnds (f g : Flow) : Prop where
  ctl : g.ctl=f.ctl
  rcv : g.rcv=f.rcv
  sndUna : g.snd.sndUna=f.snd.sndUna

theorem transmitRetrans_sameEnds (f : Flow) (env : Env) : SameEnds f (f.transmitRetrans env).1 := by
  unfold transmitRetrans transmit
  split
  · exact ⟨rfl,rfl,rfl⟩
  · rename_i seg rest _
    by_cases hg : f.givesUp env seg = true
    · simp only [hg,if_true]
      exact ⟨rfl,rfl,rfl⟩
    · simp only [hg,Bool.false_eq_true,if_false]
      exact ⟨rfl,rfl,rfl⟩

theorem retransmit_becomes (live : f.ctl.state ≠ .closed) (nonempty : strict → f.snd.retransSlist≠[])
    (counted : strict → ∀ seg∈f.snd.retransSlist, seg.xmit≠0) :
    Becomes strict trusted rx f (f.retransmit env).1 := by
  have ht : Becomes strict trusted rx f _ := transmitRetrans_becomes env live nonempty counted
  unfold retransmit
  split
  · rename_i hg
    rwa [hg] at ht
  · rename_i hg
    rw [hg] at ht
    exact ht.trans (allertDisconnected_becomes env _)

theorem retransmit_true (h : f.retransmit env = (g, true)) : SameEnds f g := by
  have hf := f.transmitRetrans_sameEnds env
  unfold retransmit at h
  split at h
  · rename_i hg
    rw [hg] at hf
    cases h
    exact hf
  · cases h

theorem echoRtt_eq (f : Flow) (env : Env) (timeEcho : BitVec 16) : ∃ srtt rttvar rto,
    f.echoRtt env timeEcho =
      { f with tim := { f.tim with srtt := srtt, rttvar := rttvar, rto := rto } } := by
  unfold echoRtt updateRtt
  split
  · exact ⟨_,_,_,rfl⟩
  · split
    · exact ⟨_,_,_,rfl⟩
    · exact ⟨_,_,_,rfl⟩

theorem core_takeAck (f : Flow) (env : Env) (h : ReliableHeader) :
    (f.takeAck env h).core = { f.core with snd := f.snd.acked h.ackno } := by
  obtain ⟨srtt,rttvar,rto,he⟩ := f.echoRtt_eq env h.timeEcho
  unfold takeAck
  rw [he]
  rfl

theorem takeAck_frame (f : Flow) (env : Env) (h : ReliableHeader) :
    (f.takeAck env h).ctl = f.ctl ∧ (f.takeAck env h).rcv = f.rcv := by
  obtain ⟨srtt,rttvar,rto,he⟩ := f.echoRtt_eq env h.timeEcho
  unfold takeAck
  rw [he]
  exact ⟨rfl,rfl⟩

theorem core_cwnd (f : Flow) (cwnd : BitVec 32) : { f with cc.cwnd := cwnd }.core = f.core := rfl

theorem adjustWindow_becomes (nAcked : BitVec 32) (live : f.ctl.state ≠ .closed)
    (ordinary : OrdinaryArrival rx) (nonempty : strict → 3≤f.cc.dupAcks.toNat →
      f.snd.sndUna<f.cc.recover →
      f.snd.retransSlist ≠ []) (counted : strict → ∀ seg∈f.snd.retransSlist, seg.xmit≠0) :
    Becomes strict trusted rx f (f.adjustWindow env nAcked).1 := by
  have hquit : ∀ cwnd, Becomes strict trusted rx f
      { f with cc := { f.cc with cwnd := cwnd, dupAcks := 0 } } :=
    fun cwnd => .micro fun _ => .dupAcks 0 f.cc.recover ordinary nofun (absurd rfl)
  unfold adjustWindow
  split
  · rename_i hdup
    split
    · exact hquit _
    · rename_i hrec
      have ht : Becomes strict trusted rx f _ :=
        retransmit_becomes env live (fun hs => nonempty hs hdup (BitVec.not_le.mp hrec)) counted
      split
      · rename_i hg
        rwa [hg] at ht
      · rename_i hg
        rw [hg] at ht
        exact ht.trans (.of_core_eq (core_cwnd _ _))
  · exact hquit _

theorem adjustWindow_true {nAcked : BitVec 32} (h : f.adjustWindow env nAcked = (g, true)) :
    SameEnds f g := by
  unfold adjustWindow at h
  split at h
  · split at h
    · cases h
      exact ⟨rfl,rfl,rfl⟩
    · split at h
      · cases h
      · rename_i hg
        have hf := retransmit_true env hg
        simp only [Prod.mk.injEq,and_true] at h
        subst h
        exact ⟨hf.ctl,hf.rcv,hf.sndUna⟩
  · simp only [Prod.mk.injEq,and_true] at h
    subst h
    exact ⟨rfl,rfl,rfl⟩

theorem adjustWindow_slow (f : Flow) (env : Env) (nAcked : BitVec 32)
    (hdup : ¬3≤f.cc.dupAcks.toNat) : ∃ cwnd, f.adjustWindow env nAcked =
      ({ f with cc := { f.cc with cwnd := cwnd, dupAcks := 0 } }, true) := by
  unfold adjustWindow
  rw [if_neg hdup]
  exact ⟨_,rfl⟩

theorem takeAck_slow (f : Flow) (env : Env) (h : ReliableHeader) (hdup : ¬3≤f.cc.dupAcks.toNat) :
    ∃ g, (f.takeAck env h).adjustWindow env (h.ackno - f.snd.sndUna) = (g, true) ∧
      g.ctl = f.ctl ∧ g.rcv=f.rcv ∧
      g.core = { f.core with snd := f.snd.acked h.ackno, dupAcks := 0 } := by
  have hcore := f.core_takeAck env h
  have hframe := f.takeAck_frame env h
  have hdup' : (f.takeAck env h).cc.dupAcks = f.cc.dupAcks := congrArg Core.dupAcks hcore
  generalize f.takeAck env h = f₁ at hcore hframe hdup'
  obtain ⟨cwnd,ha⟩ := f₁.adjustWindow_slow env (h.ackno - f.snd.sndUna) (by rwa [hdup'])
  refine ⟨_,ha,hframe.1,hframe.2,?_⟩
  exact congrArg (fun c : Core => { c with dupAcks := 0 }) hcore

variable {a : Arrival}

theorem takeAck_becomes (ordinary : a.header.control.ordinary=true)
    (live : f.ctl.state ≠ .closed) (safe : strict → f.core.AckSafe a.header.ackno)
    (above : modLess f.snd.sndUna a.header.ackno = true)
    (upTo : modLessEqual a.header.ackno f.snd.sndNxt = true)
    (waiting : f.ctl.state = .synRcvd → 3≤f.cc.dupAcks.toNat) : Becomes strict trusted (some a) f
      ((f.takeAck env a.header).adjustWindow env (a.header.ackno - f.snd.sndUna)).1 := by
  have hord : OrdinaryArrival (some a) := ⟨a,rfl,ordinary⟩
  have hcore := f.core_takeAck env a.header
  have hframe := f.takeAck_frame env a.header
  have haccept : Becomes strict trusted (some a) f (f.takeAck env a.header) := by
    refine .micro fun _ => ?_
    rw [hcore]
    exact .accept rfl ordinary above upTo (fun hs => (safe hs).boundary above upTo) waiting
  have hsnd : (f.takeAck env a.header).snd = f.snd.acked a.header.ackno := congrArg Core.snd hcore
  have hdup : (f.takeAck env a.header).cc.dupAcks = f.cc.dupAcks := congrArg Core.dupAcks hcore
  have hrec : (f.takeAck env a.header).cc.recover = f.cc.recover := congrArg Core.recover hcore
  refine haccept.trans (adjustWindow_becomes env (a.header.ackno - f.snd.sndUna)
    (by rwa [hframe.1]) hord (fun hs hd hr => ?_) fun hs seg hseg => ?_)
  · rw [hdup] at hd
    rw [hsnd,hrec] at hr
    rw [hsnd]
    exact (safe hs).recovering above upTo hd hr
  · rw [hsnd] at hseg
    exact (safe hs).counted seg (mem_of_mem_popAcked hseg)

theorem processNewAck_becomes (ordinary : a.header.control.ordinary=true)
    (live : f.ctl.state ≠ .closed) (safe : strict → f.core.AckSafe a.header.ackno)
    (above : modLess f.snd.sndUna a.header.ackno = true)
    (upTo : modLessEqual a.header.ackno f.snd.sndNxt = true) :
    Becomes strict trusted (some a) f (f.processNewAck env a.header).1 := by
  unfold processNewAck
  by_cases hw : f.ctl.state = .synRcvd ∧ ¬3≤f.cc.dupAcks.toNat
  · obtain ⟨g,hg,hctl,-,hcore⟩ := f.takeAck_slow env a.header hw.2
    rw [hg]
    dsimp only
    rw [if_pos (by rw [hctl]; exact hw.1)]
    refine .micro fun _ => ?_
    have hg' : { g with ctl.state := .established }.core =
      { g.core with state := .established } := rfl
    rw [hg',hcore]
    exact .acceptFirst rfl ordinary above upTo (fun hs => (safe hs).boundary above upTo) hw.1
  · have hadjust : Becomes strict trusted (some a) f _ :=
      takeAck_becomes env ordinary live safe above upTo
        fun hs => not_not.mp fun hd => hw ⟨hs,hd⟩
    split
    · rename_i hg
      rwa [hg] at hadjust
    · rename_i g hg
      rw [hg] at hadjust
      have huna : g.snd.sndUna=a.header.ackno := by
        refine (adjustWindow_true env hg).sndUna.trans ?_
        exact congrArg (fun c : Core => c.snd.sndUna) (f.core_takeAck env a.header)
      split
      · exact hadjust.trans (.micro fun _ => .established ‹_› ⟨a,rfl,ordinary,huna.symm⟩)
      · exact hadjust

/-- What the acknowledgement part leaves behind when `__process` goes on. -/
structure AckOutcome (f g : Flow) (ackno : BitVec 32) (accepted : Bool) : Prop where
  rcv : g.rcv=f.rcv
  ctl : g.ctl = if accepted then { f.ctl with state := .established } else f.ctl
  waiting : accepted=true → f.ctl.state = .synRcvd
  acked : g.snd.sndUna=ackno ∨ g.snd=f.snd ∧
    ¬(modLess f.snd.sndUna ackno = true ∧ modLessEqual ackno f.snd.sndNxt = true)

variable {accepted : Bool}

theorem AckOutcome.live {ackno : BitVec 32} (h : AckOutcome f g ackno accepted)
    (live : f.ctl.state ≠ .closed) : g.ctl.state ≠ .closed := by
  rw [h.ctl]
  cases accepted with
  | false => exact live
  | true => nofun

theorem AckOutcome.idle {ackno : BitVec 32} (h : AckOutcome f g ackno accepted)
    (hn : ackno=g.snd.sndNxt) :
    g.snd.sndUna=g.snd.sndNxt ∨ modLess g.snd.sndUna g.snd.sndNxt = false := by
  rcases h.acked with hu | ⟨hs,hr⟩
  · exact .inl (hu.trans hn)
  · have hle : modLessEqual ackno f.snd.sndNxt = true := by
      rw [hn,hs,modLessEqual,WrappableInteger.wrappableLessEqual_iff]
      simp
    rw [hs]
    rw [hn,hs] at hr hle
    exact .inr (by simpa [hle] using hr)

variable {h : ReliableHeader}

theorem processNewAck_some (hp : f.processNewAck env h = (g, some accepted)) :
    AckOutcome f g h.ackno accepted ∧ (f.ctl.state = .synRcvd → accepted=true) := by
  have hframe := f.takeAck_frame env h
  have hsnd : (f.takeAck env h).snd.sndUna = h.ackno :=
    congrArg (fun c : Core => c.snd.sndUna) (f.core_takeAck env h)
  unfold processNewAck at hp
  split at hp
  · cases hp
  · rename_i g₁ hg
    have hf := adjustWindow_true env hg
    have hctl : g₁.ctl=f.ctl := hf.ctl.trans hframe.1
    have hrcv : g₁.rcv=f.rcv := hf.rcv.trans hframe.2
    have huna : g₁.snd.sndUna=h.ackno := hf.sndUna.trans hsnd
    split at hp
    · rename_i hs
      cases hp
      exact ⟨⟨hrcv,by simp [hctl],fun _ => hctl ▸ hs,.inl huna⟩,fun _ => rfl⟩
    · rename_i hs
      cases hp
      exact ⟨⟨hrcv,by simp [hctl],nofun,.inl huna⟩,fun h => absurd (hctl ▸ h) hs⟩

theorem countDupAck_becomes (live : f.ctl.state ≠ .closed)
    (duplicate : f.core.Answers rx ∧ ∃ a∈rx, a.header.ackno=f.snd.sndUna)
    (nonempty : strict → f.snd.retransSlist≠[]) (counted : strict → ∀ seg∈f.snd.retransSlist,
      seg.xmit≠0) :
    Becomes strict trusted rx f (f.countDupAck env).1 := by
  have ordinary : OrdinaryArrival rx := duplicate.1.imp fun a h => ⟨h.1,h.2.1⟩
  unfold countDupAck
  dsimp only
  split
  · generalize BitVec.ofNat 32 (max (((f.snd.sndNxt - f.snd.sndUna) * 3).toNat / 4) (3*mss)) =
      ssthresh
    have hc : Becomes strict trusted rx f { f with cc := { f.cc with
        dupAcks := f.cc.dupAcks+1, ssthresh := ssthresh, recover := f.snd.sndNxt } } :=
      .micro fun _ => .dupAcks _ f.snd.sndNxt ordinary (fun _ => .inr rfl) fun _ => duplicate
    exact hc.trans (retransmit_becomes env live nonempty counted)
  · rename_i hne
    refine .micro fun _ => .dupAcks (f.cc.dupAcks+1) f.cc.recover ordinary
      (fun h => .inl ⟨?_,rfl⟩) fun _ => duplicate
    rw [core_dupAcks]
    have h3 : (f.cc.dupAcks+1).toNat ≠ 3 := fun h => hne (BitVec.eq_of_toNat_eq h)
    have hadd : (f.cc.dupAcks+1).toNat = (f.cc.dupAcks.toNat+1) % 256 := BitVec.toNat_add _ _
    omega

theorem countDupAck_true (h : f.countDupAck env = (g, true)) : SameEnds f g := by
  unfold countDupAck at h
  dsimp only at h
  split at h
  · have hf := retransmit_true env h
    exact ⟨hf.ctl,hf.rcv,hf.sndUna⟩
  · simp only [Prod.mk.injEq,and_true] at h
    subst h
    exact ⟨rfl,rfl,rfl⟩

theorem processDupAck_becomes (ordinary : a.header.control.ordinary=true)
    (early : f.ctl.state = .synSent → a.header.control ≠ .connectAck)
    (live : f.ctl.state ≠ .closed) (safe : strict → f.core.AckSafe a.header.ackno)
    (here : a.header.ackno=f.snd.sndUna) :
    Becomes strict trusted (some a) f (f.processDupAck env a.header a.data).1 := by
  have hord : OrdinaryArrival (some a) := ⟨a,rfl,ordinary⟩
  have hw : Becomes strict trusted (some a) f
      { f with cc.sndWnd := a.header.window.setWidth 32 } := .of_core_eq rfl
  refine hw.trans ?_
  unfold processDupAck
  dsimp only
  split
  · exact .refl _
  split
  · exact .micro fun _ => .dupAcks 0 f.cc.recover hord nofun (absurd rfl)
  · rename_i hne
    have hc : Becomes strict trusted (some a) { f with cc.sndWnd := a.header.window.setWidth 32 }
        ({ f with cc.sndWnd := a.header.window.setWidth 32 }.countDupAck env).1 :=
      countDupAck_becomes env live ⟨⟨a,rfl,ordinary,early⟩,a,rfl,here⟩
        (fun hs => (safe hs).duplicate here hne) fun hs => (safe hs).counted
    split
    · rename_i hg
      rwa [hg] at hc
    · rename_i hg
      rwa [hg] at hc

theorem processDupAck_some {data : List Byte} (here : h.ackno=f.snd.sndUna)
    (hp : f.processDupAck env h data = (g, some accepted)) : AckOutcome f g h.ackno accepted := by
  unfold processDupAck at hp
  dsimp only at hp
  split at hp
  · cases hp
    exact ⟨rfl,rfl,nofun,.inl here.symm⟩
  split at hp
  · cases hp
    exact ⟨rfl,rfl,nofun,.inl here.symm⟩
  split at hp
  · cases hp
  · rename_i hg
    have hf := countDupAck_true env hg
    cases hp
    exact ⟨hf.rcv,hf.ctl,nofun,.inl (hf.sndUna.trans here.symm)⟩

theorem processAck_becomes (ordinary : a.header.control.ordinary=true)
    (early : f.ctl.state = .synSent → a.header.control ≠ .connectAck)
    (live : f.ctl.state ≠ .closed) (safe : strict → f.core.AckSafe a.header.ackno) :
    Becomes strict trusted (some a) f (f.processAck env a.header a.data).1 := by
  unfold processAck
  split
  · rename_i h
    exact processNewAck_becomes env ordinary live safe h.1 h.2
  split
  · exact processDupAck_becomes env ordinary early live safe ‹_›
  · exact .refl f

theorem processAck_some {data : List Byte} (hp : f.processAck env h data = (g, some accepted)) :
    AckOutcome f g h.ackno accepted ∧ (f.ctl.state = .synRcvd →
      modLess f.snd.sndUna h.ackno = true → modLessEqual h.ackno f.snd.sndNxt = true →
      accepted = true) := by
  unfold processAck at hp
  split at hp
  · have hn := processNewAck_some env hp
    exact ⟨hn.1,fun hs _ _ => hn.2 hs⟩
  rename_i hno
  split at hp
  · exact ⟨processDupAck_some env ‹_› hp,fun _ h₁ h₂ => absurd ⟨h₁,h₂⟩ hno⟩
  · cases hp
    exact ⟨⟨rfl,rfl,nofun,.inr ⟨rfl,hno⟩⟩,fun _ h₁ h₂ => absurd ⟨h₁,h₂⟩ hno⟩

end Flow
end P2Streaming.Urdp
