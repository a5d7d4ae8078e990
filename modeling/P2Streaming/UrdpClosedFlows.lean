import P2Streaming.UrdpFlowLog
import P2Streaming.UrdpFlowRuns
import P2Streaming.UrdpForeignDatagrams

/-!
# The end of a flow

`__to_closed_state` is reached from timers, from `__process` in every state and from
calls the application makes inside a callback. A flow ends once: behind that point its
log has neither a datagram nor a callback, and the layer is told once to forget it.
-/
namespace P2Streaming.Urdp
open BigEndianBytes TransitionRuns Output List

def Output.outward : Output → Bool
  | .datagram _ _ | .callback _ => true
  | _ => false

def Output.terminal : Output → Bool
  | .callback cb => cb.terminal
  | _ => false

def Output.ordinary : Output → Bool
  | .callback cb => !cb.terminal
  | .closed | .unregistered => false
  | _ => true

theorem Output.ordinary_iff {o : Output} :
    o.ordinary=true ↔ o.terminal=false ∧ o ≠ .closed ∧ o ≠ .unregistered := by
  cases o <;> simp [ordinary,terminal]

inductive Core.Course (c d : Core) : Prop
  | goesOn {new : List Output} (log : d.log = c.log ++ new) (ordinary : ∀ o∈new, o.ordinary=true)
      (silent : c.state = .closed → ∀ o∈new, o.outward=false)
      (state : d.state = .closed ↔ c.state = .closed)
      (posted : d.posted.count .flowUnregister = c.posted.count .flowUnregister)
  | ends {new : List Output} (live : c.state ≠ .closed) (state : d.state = .closed)
      (log : d.log = c.log ++ new ++ [.closed]) (last : new.countP Output.terminal ≤ 1)
      (others : ∀ o∈new, o ≠ .closed ∧ o ≠ .unregistered)
      (posted : d.posted = c.posted ++ [.flowUnregister])
  | unregisters (state : d.state=c.state) (log : d.log = c.log ++ [.unregistered])
      (posted : c.posted = .flowUnregister :: d.posted)

namespace Core

section
variable {c d : Core}

theorem Course.quiet (log : d.log=c.log) (state : d.state = .closed ↔ c.state = .closed)
    (posted : d.posted.count .flowUnregister = c.posted.count .flowUnregister) : Course c d :=
  .goesOn (log.trans (append_nil _).symm) (fun _ h => absurd h not_mem_nil)
    (fun _ _ h => absurd h not_mem_nil) state posted

theorem Course.sends {new : List Output} (live : c.state ≠ .closed) (opened : d.state ≠ .closed)
    (log : d.log = c.log ++ new) (ordinary : ∀ o∈new, o.ordinary=true)
    (posted : d.posted=c.posted) : Course c d :=
  .goesOn log ordinary (fun hc => absurd hc live) (iff_of_false opened live) (by rw [posted])

theorem Headers.ordinary {segs : List SSegment} {hs : List ReliableHeader} {dst : Endpoint}
    (hh : c.Headers segs hs) :
    ∀ o ∈ List.zipWith (fun seg h => datagram dst (.reliable h seg.buf)) segs hs,
      o.ordinary = true := by
  intro o ho
  obtain ⟨seg,-,h,-,rfl⟩ := hh.mem_zipWith ho
  rfl

end
end Core

open Urdp.Core in
theorem Micro.course {strict trusted : Prop} {rx : Option Arrival} {c d : Core} (hl : c.Local)
    (h : Micro strict trusted rx c d) : c.Course d := by
  have single {o : Output} (ho : o.ordinary=true) : ∀ o' ∈ [o], o'.ordinary=true := by simpa
  have live {s : TcpState} (hs : c.state=s) (hne : s ≠ .closed) : c.state ≠ .closed := hs ▸ hne
  cases h with
  | note o noted =>
    cases o with
    | callback cb =>
      have hlive : c.state ≠ .closed := fun hs =>
        Bool.noConfusion (noted.1.symm.trans (hl.detached (.inr hs)))
      exact .sends hlive hlive rfl (single (by simp [ordinary,noted.2])) rfl
    | closeCalled | timedOut =>
      exact .goesOn rfl (single rfl) (fun _ => by simp [outward]) Iff.rfl rfl
    | _ => exact noted.elim
  | attempted => exact .goesOn rfl (single rfl) (fun _ => by simp [outward]) Iff.rfl rfl
  | ack fits | finAck fits | rst fits | retransmit _ _ fits =>
    exact .sends fits.live fits.live rfl (single rfl) rfl
  | unreliable _ _ _ hlive => exact .sends hlive hlive rfl (single rfl) rfl
  | ackDue | unreliableDue | detectWritable | accept | dupAcks | insert | skip | cancel | accepted
  | punch | faultSending | faultReading => exact .quiet rfl Iff.rfl rfl
  | post p ordinary =>
    refine .quiet rfl Iff.rfl ?_
    rw [count_append,count_singleton,if_neg (by simpa using ordinary),Nat.add_zero]
  | unpost hp ordinary =>
    refine .quiet rfl Iff.rfl ?_
    rw [hp,count_cons_of_ne ordinary]
  | unregister hp => exact .unregisters rfl rfl hp
  | send established _ _ headers =>
    have hlive := live established nofun
    refine .sends hlive hlive (append_assoc _ _ _) (fun o ho => ?_) rfl
    rcases mem_cons.mp ho with rfl | ho
    · rfl
    · exact headers.ordinary o ho
  | ping established _ headers =>
    exact .sends (live established nofun) (live established nofun) rfl headers.ordinary rfl
  | connect fresh _ asked headers =>
    subst asked
    exact .sends (live fresh nofun) nofun rfl headers.ordinary rfl
  | listened _ _ listening called headers =>
    subst called
    exact .sends (live listening nofun) nofun rfl headers.ordinary rfl
  | established waiting | synced _ _ waiting | syncedEarly _ _ waiting
  | acceptFirst _ _ _ _ _ waiting =>
    exact .quiet rfl (iff_of_false nofun (live waiting nofun)) rfl
  | closing _ hlive => exact .quiet rfl (iff_of_false nofun hlive) rfl
  | fin waiting =>
    exact .sends (live waiting nofun) nofun rfl (single rfl) rfl
  | abort fits => exact .ends fits.live rfl rfl (by simp [Output.terminal]) (by simp) rfl
  | closed hlive =>
    have hlog : c.toClosed.log = c.log ++ [] ++ [.closed] := by simp [toClosed]
    exact .ends hlive rfl hlog (by simp) (by simp) rfl
  | report cb _ _ hlive =>
    exact .ends hlive rfl rfl countP_le_length (by simp) rfl

structure Core.Final (c : Core) : Prop where
  closed : c.state = .closed ↔ .closed ∈ c.log
  silent : ∀ pre post, c.log = pre ++ .closed :: post → ∀ o∈post, o.outward=false
  told : c.log.countP Output.terminal ≤ if c.state = .closed then 1 else 0
  unregistered : c.log.count .unregistered + c.posted.count .flowUnregister =
    if c.state = .closed then 1 else 0

namespace Core.Final
variable {c d : Core}

theorem silent_append (h : c.Final) {new : List Output} (others : ∀ o∈new, o ≠ .closed)
    (quiet : c.state = .closed → ∀ o∈new, o.outward=false) :
    ∀ pre post, c.log ++ new = pre ++ .closed :: post → ∀ o∈post, o.outward=false := by
  intro pre post hlog o ho
  rcases append_eq_append_iff.mp hlog with ⟨rest,-,hnew⟩ | ⟨rest,hold,hnew⟩
  · exact absurd rfl (others .closed (hnew ▸ by simp))
  · cases rest with
    | nil => exact absurd rfl (others .closed (by rw [← nil_append new,← hnew]; simp))
    | cons x rest =>
      obtain ⟨rfl,rfl⟩ := List.cons.inj hnew
      rcases mem_append.mp ho with ho | ho
      · exact h.silent pre rest hold o ho
      · exact quiet (h.closed.mpr (hold ▸ by simp)) o ho

theorem silent_end {log : List Output} (live : .closed ∉ log) :
    ∀ pre post, log ++ [.closed] = pre ++ .closed :: post → ∀ o∈post, o.outward=false := by
  intro pre post hlog
  have hpost : post=[] := by
    rcases append_eq_append_iff.mp hlog with ⟨rest,-,hnew⟩ | ⟨rest,hold,hnew⟩
    · have hlength := congrArg List.length hnew
      simp at hlength
      exact eq_nil_of_length_eq_zero (by omega)
    · cases rest with
      | nil => exact (List.cons.inj hnew).2
      | cons x rest => exact absurd (hold ▸ by simp [(List.cons.inj hnew).1]) live
  simp [hpost]

theorem step (h : c.Final) (hstep : c.Course d) : d.Final := by
  cases hstep with
  | @goesOn new log ordinary silent state posted =>
    have hterminal : new.countP Output.terminal = 0 := by
      rw [countP_eq_zero]
      intro o ho
      simp [(ordinary_iff.mp (ordinary o ho)).1]
    have hcount : new.count .unregistered = 0 :=
      count_eq_zero.mpr fun hm => (ordinary_iff.mp (ordinary _ hm)).2.2 rfl
    have hclosed (o) (ho : o∈new) : o ≠ .closed := (ordinary_iff.mp (ordinary o ho)).2.1
    refine ⟨?_,?_,?_,?_⟩
    · rw [state,h.closed,log,mem_append]
      exact ⟨.inl,fun hm => hm.resolve_right fun hn => hclosed _ hn rfl⟩
    · rw [log]
      exact h.silent_append hclosed silent
    · simp only [log,countP_append,hterminal,state,Nat.add_zero]
      exact h.told
    · simp only [log,count_append,hcount,posted,state,Nat.add_zero]
      exact h.unregistered
  | @ends new live state log last others posted =>
    have hmem : .closed ∉ c.log ++ new := fun hm => (mem_append.mp hm).elim
      (fun hm => live (h.closed.mpr hm)) fun hm => (others _ hm).1 rfl
    have hcount : new.count .unregistered = 0 :=
      count_eq_zero.mpr fun hm => (others _ hm).2 rfl
    have htold := h.told
    have hunregistered := h.unregistered
    rw [if_neg live] at htold hunregistered
    refine ⟨?_,?_,?_,?_⟩
    · simp [state,log]
    · rw [log]
      exact silent_end hmem
    · have hend : [Output.closed].countP Output.terminal = 0 := rfl
      rw [if_pos state,log,countP_append,countP_append,hend]
      omega
    · have hend : [Output.closed].count .unregistered = 0 := by decide
      rw [if_pos state,log,posted,count_append,count_append,count_append,hcount,
        hend,count_singleton_self]
      omega
  | unregisters state log posted =>
    have hunregistered := h.unregistered
    rw [posted,count_cons_self] at hunregistered
    refine ⟨?_,?_,?_,?_⟩
    · simp [state,h.closed,log]
    · rw [log]
      exact h.silent_append (by simp) (by simp [outward])
    · simpa [state,log,Output.terminal] using h.told
    · rw [state,log,count_append,count_singleton_self]
      omega

end Core.Final

theorem Core.Local.closing {c : Core} (hl : c.Local) (hc : c.canceled=true) : .closing ≤ c.state := by
  by_contra hs
  exact Bool.noConfusion (hc.symm.trans (hl.unclosed hs).1)

theorem Core.Delivery.final {c d : Core} {buf : List Byte} (h : c.Delivery buf d) (hc : c.Final) :
    d.Final := by
  have hlive : c.state ≠ .closed := by rw [h.established]; decide
  obtain ⟨-,-,_,_,_,-,-,-,-,rfl⟩ := h
  exact hc.step (.sends hlive hlive rfl (by simp [ordinary]) rfl)

namespace Flow

variable {f : Flow}

theorem Created.final (h : f.Created) : f.core.Final := by
  have start (hlog : f.log=[]) (hposted : f.posted=[]) (hlive : f.ctl.state ≠ .closed) :
      f.core.Final := by
    refine ⟨?_,?_,?_,?_⟩ <;> simp [core,hlog,hposted,hlive]
  rcases h with ⟨p,now,rfl⟩ | ⟨p,remoteEdp,now,rfl⟩
  · exact start rfl rfl (show TcpState.init ≠ .closed by decide)
  · exact start rfl rfl (show TcpState.listen ≠ .closed by decide)

/-- What can happen to a flow, and calls through a connection that still holds a flow which has
let go of it. -/
inductive Occurrence where
  | event (ev : Event)
  | lateCall (op : AppOp)

def occur (f : Flow) (env : Env) : Occurrence → Flow
  | .event ev => f.step env ev
  | .lateCall op => if f.fault.isSome ∨ !f.ctl.canceled then f else f.perform env op

def course (f : Flow) (os : List (Env × Occurrence)) : Flow :=
  os.foldl (fun f o => f.occur o.1 o.2) f

theorem core_lateCall (hl : f.core.Local) (hc : f.ctl.canceled=true) (env : Env)
    (op : AppOp) : ∃ ps : List Posted, .flowUnregister ∉ ps ∧
      (f.perform env op).core = { f.core with posted := f.core.posted ++ ps } := by
  have hclosing : TcpState.closing≤f.ctl.state := hl.closing hc
  have hest : f.ctl.state ≠ .established := fun hs => absurd (hs ▸ hclosing) (by decide)
  have hsocket : f.ctl.socket=false := hl.detached (.inl hc)
  have same {g : Flow} (hg : g.core=f.core) : ∃ ps : List Posted, .flowUnregister ∉ ps ∧
      g.core = { f.core with posted := f.core.posted ++ ps } := ⟨[],by simp,by rw [hg,append_nil]⟩
  cases op with
  | send buf msgType mode =>
    have hsend : f.send env buf msgType mode = (f, some .notConnected) :=
      if_pos (.inl (by simp [hsocket]))
    refine ⟨[.allertDisconnected .notConnected],by simp,?_⟩
    rw [perform,asyncSend,hsend]
    rfl
  | ping => exact same (congrArg core (if_pos hest))
  | close graceful => exact same (congrArg core (if_pos hc))
  | keepReceiving =>
    by_cases hk : f.ctl.keepRecving=true
    · exact same (congrArg core (if_pos hk))
    · refine ⟨[.asyncReceive],by simp,?_⟩
      rw [perform,keepAsyncReceiving,if_neg hk]
      rfl
  | blockReceiving | pingInterval => exact same rfl

theorem occur_keeps (hl : f.core.Local) (hf : f.core.Final) (env : Env) (o : Occurrence) :
    (f.occur env o).core.Local ∧ (f.occur env o).core.Final ∧ f.log <+: (f.occur env o).log := by
  cases o with
  | event ev =>
    have hmoves := step_moves env (f.admits_loose env ev)
    obtain ⟨hl',hf'⟩ := hmoves.keeps Core.Final (fun _ _ hl h hc => hc.step (h.course hl))
      (fun _ _ _ _ h hc => h.final hc) hl hf
    exact ⟨hl',hf',(hmoves.grows hl).log⟩
  | lateCall op =>
    rw [occur]
    split
    · exact ⟨hl,hf,prefix_rfl⟩
    rename_i hlate
    have hc : f.ctl.canceled=true := by simpa using (not_or.mp hlate).2
    obtain ⟨ps,hps,hcore⟩ := core_lateCall hl hc env op
    have hlog : (f.perform env op).log = f.log := congrArg Core.log hcore
    refine ⟨?_,?_,hlog ▸ prefix_rfl⟩
    · rw [hcore]
      have hest : TcpState.established≤f.ctl.state := le_trans (by decide) (hl.closing hc)
      exact ⟨hl.1,hl.2,hl.3,hl.4,hl.5,hl.6,hl.7,hl.8,fun _ => .inr hest,hl.10,hl.11⟩
    · refine hf.step (.quiet hlog ?_ ?_)
      · rw [hcore]
      · rw [hcore,count_append,count_eq_zero.mpr hps,Nat.add_zero]

theorem course_keeps (hl : f.core.Local) (hf : f.core.Final) (os : List (Env × Occurrence)) :
    (f.course os).core.Local ∧ (f.course os).core.Final ∧ f.log <+: (f.course os).log := by
  refine invariant_of_run (P := fun _ _ => True)
    (fun g : Flow => g.core.Local ∧ g.core.Final ∧ f.log <+: g.log) (fun g o _ hg => ?_)
    (alongRun_of_forall (fun _ _ => trivial) f os) ⟨hl,hf,prefix_rfl⟩
  obtain ⟨hl',hf',hlog⟩ := occur_keeps hg.1 hg.2.1 o.1 o.2
  exact ⟨hl',hf',hg.2.2.trans hlog⟩

/-- Once closed, a flow stays closed and silent, whatever happens to it; it reports its end at
most once and is unregistered once. -/
theorem closed_is_final {f : Flow} (created : f.Created) (os os' : List (Env × Occurrence)) :
    let g := f.course os
    let h := g.course os'
    (g.ctl.state = .closed → h.ctl.state = .closed ∧
      h.log.filter outward = g.log.filter outward) ∧
    (∀ pre post, h.log = pre ++ .closed :: post → ∀ o∈post, o.outward=false) ∧
    h.log.countP Output.terminal ≤ 1 ∧
    h.log.count .unregistered + h.posted.count .flowUnregister =
      if h.ctl.state = .closed then 1 else 0 := by
  intro g h
  obtain ⟨hlg,hfg,-⟩ := course_keeps created.local created.final os
  obtain ⟨-,hfh,new,hnew⟩ := course_keeps hlg hfg os'
  replace hnew : h.log = g.log ++ new := hnew.symm
  refine ⟨fun hclosed => ?_,hfh.silent,hfh.told.trans (by split <;> omega),hfh.unregistered⟩
  have hmem : .closed ∈ g.log := hfg.closed.mp hclosed
  refine ⟨hfh.closed.mpr (show _ ∈ h.log from hnew ▸ mem_append_left _ hmem),?_⟩
  -- everything new stands behind the entry for the end
  obtain ⟨pre,post,hsplit⟩ := append_of_mem hmem
  have hsilent : ∀ o∈new, o.outward=false := fun o ho =>
    hfh.silent pre (post++new) (hnew.trans (by rw [hsplit]; simp)) o (mem_append_right _ ho)
  have hfilter : new.filter outward = [] :=
    filter_eq_nil_iff.mpr (by simpa using hsilent)
  rw [hnew,filter_append,hfilter,append_nil]

def resetPacket : Packet :=
  .reliable
    { control := .rst, peerId := 7, lostrateRecving := 0, idForLostDetect := 1, sessionId := 5,
      window := 1000, timeSending := 1, timeEcho := 1, seqno := 44, ackno := 11 }
    []

def resetCourse : List (Env × Occurrence) :=
  [(stillEnv, .event (.connect ⟨2,2⟩ [1] 0)),
    (stillEnv, .event (.received connectAckPacket.encode ⟨2,2⟩)),
    (stillEnv, .event (.received resetPacket.encode ⟨2,2⟩))]

/-- Its application sends, its handlers run and its timer fires, to no effect. -/
def afterReset : List (Env × Occurrence) :=
  [(stillEnv, .lateCall (.send [1] 2 .reliable)),(stillEnv, .event .posted),
    (stillEnv, .event .posted),(stillEnv, .event .posted),(stillEnv, .event .clock)]

theorem reset_flow_is_silent :
    let g := (createForActiveConnect ⟨10,0,5,7,0,0,0⟩ 0).course resetCourse
    let h := g.course afterReset
    g.ctl.state = .closed ∧
      g.callbacks = [.onConnected none,.onDisconnected (some .connectionReset)] ∧
      h.log.filter outward = g.log.filter outward ∧
      h.posted = [] ∧ h.log.count .unregistered = 1 := by
  have hclosed : ((createForActiveConnect ⟨10,0,5,7,0,0,0⟩ 0).course resetCourse).ctl.state =
    .closed := by decide +kernel
  have hfinal := closed_is_final (.inl ⟨⟨10,0,5,7,0,0,0⟩,0,rfl⟩) resetCourse afterReset
  exact ⟨hclosed,by decide +kernel,(hfinal.1 hclosed).2,by decide +kernel,by decide +kernel⟩

end Flow
end P2Streaming.Urdp
