import P2Streaming.PacketBuffer
import P2Streaming.TransitionRuns

/-!
# `interprocess_server`: commands that wait for their replies

A command is kept in `unconfirmed_msg_` under the id and type of the process it is for, and
posted again at every tick of the resend timer, until a reply from that process comes or thirty
seconds have passed. Beside the server stands what it is for: every command on its own is
outstanding until it is answered or has timed out.
-/
namespace P2Streaming
open TransitionRuns WrappableInteger List

def internalSessionId : String := "INTERNAL_SESSION_ID"

/-- A command as it was posted: to which process, in which session, its number among all commands
and the time. -/
structure ControlCmd where
  id : String
  type : ℤ
  sessionId : String
  number : ℕ
  posted : ℕ
  deriving DecidableEq

namespace ControlCmd

/-- `__id` as far as it is compared. -/
def key (c : ControlCmd) : String × ℤ := (c.id, c.type)

/-- `__id::send_time`, on the 32-bit clock. -/
def sendTime (c : ControlCmd) : BitVec 32 := BitVec.ofNat 32 c.posted

end ControlCmd

/-- What a call finds outside: whether the control object exists, and which processes are
connected. -/
structure ControlEnv where
  ctrl : Bool
  connected : String × ℤ → Bool

/-- `interprocess_server`. `sent` are the commands passed to a connection, `timedOut` those passed
to `on_session_time_out`. -/
structure InterprocessServer where
  clock : ℕ
  unconfirmed : List ControlCmd
  distinct : (unconfirmed.map ControlCmd.key).Nodup
  sent : List ControlCmd
  timedOut : List ControlCmd

structure HashOrder where
  order : List ControlCmd → List ControlCmd
  perm : ∀ cmds, (order cmds).Perm cmds

namespace InterprocessServer

variable (s : InterprocessServer)

def contains (key : String × ℤ) : Bool := s.unconfirmed.any fun c => c.key = key

def insert (c : ControlCmd) (h : ¬ s.contains c.key = true) : InterprocessServer :=
  { s with
    unconfirmed := s.unconfirmed ++ [c]
    distinct := by
      have hnew : ∀ c'∈s.unconfirmed, c'.key≠c.key := by simpa [contains] using h
      rw [map_append,map_singleton]
      refine nodup_append.mpr ⟨s.distinct,nodup_singleton _,?_⟩
      rintro k hk k' hk' rfl
      obtain ⟨c',hc',rfl⟩ := mem_map.mp hk
      exact hnew c' hc' (mem_singleton.mp hk') }

def erase (key : String × ℤ) : InterprocessServer :=
  { s with
    unconfirmed := s.unconfirmed.filter fun c => c.key ≠ key
    distinct := s.distinct.sublist (filter_sublist.map _) }

/-- The part of `__post_cmd` that makes an entry, if the key has none. -/
def keepCmd (c : ControlCmd) : InterprocessServer :=
  if h : s.contains c.key = true then s else s.insert { c with posted := s.clock } h

def postCmd (env : ControlEnv) (s : InterprocessServer) (c : ControlCmd) : InterprocessServer :=
  let s := s.keepCmd c
  if env.connected c.key then { s with sent := s.sent ++ [c] } else s

/-- `on_recvd_cmd_reply`; the reply names the process it comes from, not the command. -/
def onRecvdCmdReply (c : ControlCmd) : InterprocessServer := s.erase c.key

/-- The command has waited for thirty seconds, by the 32-bit clock. -/
def isOverdue (clock : ℕ) (c : ControlCmd) : Bool := isTimePassed 30000 c.sendTime (BitVec.ofNat 32 clock)

/-- The loop of `on_post_waiting_msg` over the copy of the table. Without the control object it
ends at the first command whose session has timed out. -/
def waitLoop (env : ControlEnv) : List ControlCmd → InterprocessServer → InterprocessServer
  | [], s => s
  | c :: rest, s =>
    if ¬ isOverdue s.clock c then waitLoop env rest (s.postCmd env c)
    else if internalSessionId≠c.sessionId then
      if env.ctrl then waitLoop env rest (erase { s with timedOut := s.timedOut ++ [c] } c.key) else s
    else waitLoop env rest s

def onPostWaitingMsg (hash : HashOrder) (env : ControlEnv) (s : InterprocessServer) :
    InterprocessServer :=
  waitLoop env (hash.order s.unconfirmed) s

end InterprocessServer

/-- What the server is for: the commands that are neither answered nor timed out, and what has
been sent and reported for them. -/
structure OutstandingCmds where
  outstanding : List ControlCmd
  sent : List ControlCmd
  timedOut : List ControlCmd

namespace OutstandingCmds

def post (env : ControlEnv) (o : OutstandingCmds) (c : ControlCmd) : OutstandingCmds :=
  { o with
    outstanding := o.outstanding ++ [c]
    sent := if env.connected c.key then o.sent ++ [c] else o.sent }

def answer (o : OutstandingCmds) (c : ControlCmd) : OutstandingCmds :=
  { o with outstanding := o.outstanding.filter fun c' => c' ≠ c }

/-- A tick: what waits for less than thirty seconds is sent again, what waits for longer is
reported, unless its session is the internal one, and dropped. -/
def tick (env : ControlEnv) (clock : ℕ) (o : OutstandingCmds) : OutstandingCmds where
  outstanding := o.outstanding.filter fun c => clock < c.posted+30000
  sent := o.sent ++ o.outstanding.filter fun c => clock < c.posted+30000 ∧ env.connected c.key
  timedOut := o.timedOut ++ o.outstanding.filter fun c => c.posted+30000 ≤ clock ∧
    internalSessionId≠c.sessionId

end OutstandingCmds

/-- The table holds the outstanding commands, and what was sent and reported is what had to be. -/
def InterprocessServer.Agrees (s : InterprocessServer) (o : OutstandingCmds) : Prop :=
  s.unconfirmed.Perm o.outstanding ∧ s.sent.Perm o.sent ∧ s.timedOut.Perm o.timedOut

/-- Every command that has waited for thirty seconds is of an external session, there is someone
to report it to, and the 32-bit clock shows the time: it has not waited for half a round of it. -/
def InterprocessServer.Reportable (env : ControlEnv) (s : InterprocessServer) : Prop :=
  ∀ c∈s.unconfirmed, c.posted + 30000 ≤ s.clock →
    internalSessionId≠c.sessionId ∧ env.ctrl=true ∧ (s.clock - (c.posted+30000)) % 2^32 ≤ 2^31

inductive ControlCall where
  | post (id : String) (type : ℤ) (sessionId : String)
  | reply (c : ControlCmd)
  | tick

structure ControlEvent where
  elapsed : ℕ
  env : ControlEnv
  call : ControlCall

/-- The server with the outstanding commands, and the number of commands posted so far. -/
structure ControlRun where
  server : InterprocessServer
  expected : OutstandingCmds
  count : ℕ

namespace ControlRun

def create (now : ℕ) : ControlRun := ⟨⟨now,[],nodup_nil,[],[]⟩,⟨[],[],[]⟩,0⟩

def step (hash : HashOrder) (r : ControlRun) (e : ControlEvent) : ControlRun :=
  let server := { r.server with clock := r.server.clock + e.elapsed }
  match e.call with
  | .post id type sessionId =>
    let c := ⟨id,type,sessionId,r.count,server.clock⟩
    ⟨server.postCmd e.env c,r.expected.post e.env c,r.count+1⟩
  | .reply c => ⟨server.onRecvdCmdReply c,r.expected.answer c,r.count⟩
  | .tick => ⟨server.onPostWaitingMsg hash e.env,r.expected.tick e.env server.clock,r.count⟩

def Answered (r : ControlRun) : Prop := r.server.Agrees r.expected

/-- A call that keeps every command answered for: no command is posted to a process for which one
waits, and no reply comes while another command for its process waits. -/
def Careful (r : ControlRun) (e : ControlEvent) : Prop :=
  match e.call with
  | .post id type _ => ∀ c∈r.server.unconfirmed, c.key ≠ (id, type)
  | .reply c => ∀ c'∈r.server.unconfirmed, c'.key=c.key → c'=c
  | .tick => InterprocessServer.Reportable e.env { r.server with clock := r.server.clock + e.elapsed }

end ControlRun

namespace InterprocessServer

variable {env : ControlEnv} {s : InterprocessServer} {c : ControlCmd}

theorem isOverdue_iff {clock : ℕ} (h : c.posted ≤ clock) : isOverdue clock c = true ↔
      c.posted + 30000 ≤ clock ∧ (clock - (c.posted+30000)) % 2^32 ≤ 2^31 := by
  unfold isOverdue isTimePassed ControlCmd.sendTime
  have hwait : (30000 : BitVec (31+1)).toNat = 30000 := rfl
  rw [wrappableLessEqual_iff]
  simp only [BitVec.toNat_sub,BitVec.toNat_add,BitVec.toNat_ofNat,hwait]
  omega

theorem contains_iff {key : String × ℤ} : s.contains key = true ↔ ∃ c∈s.unconfirmed, c.key=key := by
  simp [contains]

theorem postCmd_of_contains (h : s.contains c.key = true) :
    s.postCmd env c = { s with sent := if env.connected c.key then s.sent ++ [c] else s.sent } := by
  have hkeep : s.keepCmd c = s := dif_pos h
  unfold postCmd
  rw [hkeep]
  split_ifs <;> rfl

theorem postCmd_of_not_contains (h : ¬ s.contains c.key = true) (hposted : c.posted=s.clock) :
    s.postCmd env c =
      { s.insert c h with sent := if env.connected c.key then s.sent ++ [c] else s.sent } := by
  obtain ⟨id,type,sessionId,number,posted⟩ := c
  subst hposted
  have hkeep : s.keepCmd ⟨id,type,sessionId,number,s.clock⟩ =
      s.insert ⟨id,type,sessionId,number,s.clock⟩ h :=
    dif_neg h
  unfold postCmd
  rw [hkeep]
  split_ifs <;> rfl

theorem waitLoop_eq {cmds : List ControlCmd} (hstored : ∀ c∈cmds, c∈s.unconfirmed)
    (hkeys : (cmds.map ControlCmd.key).Nodup)
    (hreport : ∀ c∈cmds, isOverdue s.clock c = true → internalSessionId≠c.sessionId ∧ env.ctrl=true) :
    (waitLoop env cmds s).unconfirmed =
        s.unconfirmed.filter (fun c => ∀ c'∈cmds, isOverdue s.clock c' = true → c.key≠c'.key) ∧
      (waitLoop env cmds s).sent =
          s.sent ++ cmds.filter (fun c => ¬ isOverdue s.clock c = true ∧ env.connected c.key) ∧
        (waitLoop env cmds s).timedOut = s.timedOut ++ cmds.filter (isOverdue s.clock) := by
  induction cmds generalizing s with
  | nil => simp [waitLoop]
  | cons c rest ih =>
    obtain ⟨hfirst,hrest⟩ := forall_mem_cons.mp hstored
    rw [map_cons,nodup_cons] at hkeys
    unfold waitLoop
    by_cases hoverdue : isOverdue s.clock c = true
    · obtain ⟨hsession,hctrl⟩ := hreport c mem_cons_self hoverdue
      rw [if_neg (not_not.mpr hoverdue),if_pos hsession,if_pos hctrl]
      have hothers : ∀ c'∈rest, c'.key≠c.key := fun c' hc' heq => hkeys.1 (mem_map.mpr ⟨c',hc',heq⟩)
      obtain ⟨hunconfirmed,hsent,htimedOut⟩ := @ih (erase { s with timedOut := s.timedOut ++ [c] } c.key)
        (fun c' hc' => mem_filter.mpr ⟨hrest c' hc',by simpa using hothers c' hc'⟩) hkeys.2
        (fun c' hc' => hreport c' (mem_cons_of_mem _ hc'))
      refine ⟨hunconfirmed.trans ?_,hsent.trans ?_,htimedOut.trans ?_⟩
      · unfold erase
        rw [filter_filter]
        refine filter_congr fun x _ => ?_
        rw [Bool.and_comm]
        simp [hoverdue]
      · simp [erase,hoverdue]
      · simp [erase,hoverdue]
    · rw [if_pos hoverdue,postCmd_of_contains (contains_iff.mpr ⟨c,hfirst,rfl⟩)]
      obtain ⟨hunconfirmed,hsent,htimedOut⟩ := @ih
        { s with sent := if env.connected c.key then s.sent ++ [c] else s.sent } hrest hkeys.2
        (fun c' hc' => hreport c' (mem_cons_of_mem _ hc'))
      refine ⟨hunconfirmed.trans ?_,hsent.trans ?_,htimedOut.trans ?_⟩
      · simp [hoverdue]
      · split_ifs with hconnected
        · simp [hoverdue,hconnected]
        · simp [hconnected]
      · simp [hoverdue]

theorem mem_postCmd (h : c∈s.unconfirmed) (c' : ControlCmd) : c ∈ (s.postCmd env c').unconfirmed := by
  have hkeep : c ∈ (s.keepCmd c').unconfirmed := by
    unfold keepCmd
    split_ifs
    · exact h
    · exact mem_append_left _ h
  unfold postCmd
  split_ifs <;> exact hkeep

variable (env) in
theorem clock_postCmd (s : InterprocessServer) (c : ControlCmd) : (s.postCmd env c).clock = s.clock := by
  have hkeep : (s.keepCmd c).clock = s.clock := by
    unfold keepCmd
    split_ifs <;> rfl
  unfold postCmd
  dsimp only
  split_ifs <;> exact hkeep

theorem clock_waitLoop (cmds : List ControlCmd) (s : InterprocessServer) :
    (waitLoop env cmds s).clock = s.clock := by
  induction cmds generalizing s with
  | nil => rfl
  | cons c rest ih =>
    unfold waitLoop
    split_ifs
    · exact ih _
    · rfl
    · exact ih _
    · exact (ih _).trans (s.clock_postCmd env c)

theorem mem_waitLoop {cmds : List ControlCmd} (h : c∈s.unconfirmed) (hkept : env.ctrl=false ∨
      ∀ c'∈cmds, isOverdue s.clock c' = true → internalSessionId≠c'.sessionId → c'.key≠c.key) :
    c ∈ (waitLoop env cmds s).unconfirmed := by
  induction cmds generalizing s with
  | nil => exact h
  | cons c' rest ih =>
    have hrest := hkept.imp_right fun hall c'' hc'' => hall c'' (mem_cons_of_mem _ hc'')
    unfold waitLoop
    split_ifs with hoverdue hsession hctrl
    · have hkey : c'.key≠c.key := by
        rcases hkept with hgone | hall
        · exact nomatch hctrl.symm.trans hgone
        · exact hall c' mem_cons_self hoverdue hsession
      exact ih (mem_filter.mpr ⟨h,by simpa using hkey.symm⟩) hrest
    · exact h
    · exact ih h hrest
    · exact ih (mem_postCmd h c') (by rw [clock_postCmd]; exact hrest)

variable {o : OutstandingCmds}

theorem agrees_postCmd_iff (h : s.Agrees o) (hposted : c.posted=s.clock) :
    (s.postCmd env c).Agrees (o.post env c) ↔ ∀ c'∈s.unconfirmed, c'.key≠c.key := by
  have hiff : (∀ c'∈s.unconfirmed, c'.key≠c.key) ↔ ¬ s.contains c.key = true := by simp [contains]
  rw [hiff]
  by_cases hcontains : s.contains c.key = true
  · -- the command is not stored, although it is outstanding
    refine iff_of_false (fun hagrees => ?_) (not_not.mpr hcontains)
    have hlength := hagrees.1.length_eq
    rw [postCmd_of_contains hcontains] at hlength
    have hbefore := h.1.length_eq
    simp only [OutstandingCmds.post,length_append,length_singleton] at hlength
    omega
  · refine iff_of_true ?_ hcontains
    rw [postCmd_of_not_contains hcontains hposted]
    unfold OutstandingCmds.post
    refine ⟨h.1.append_right _,?_,h.2.2⟩
    split_ifs
    · exact h.2.1.append_right _
    · exact h.2.1

theorem agrees_onRecvdCmdReply_iff (h : s.Agrees o) :
    (s.onRecvdCmdReply c).Agrees (o.answer c) ↔ ∀ c'∈s.unconfirmed, c'.key=c.key → c'=c := by
  constructor
  · intro hagrees c' hc' hkey
    by_contra hother
    -- the other command is erased, although it is outstanding
    have hexpected : c' ∈ (o.answer c).outstanding :=
      mem_filter.mpr ⟨h.1.mem_iff.mp hc',by simpa using hother⟩
    have hkept := (mem_filter.mp (hagrees.1.mem_iff.mpr hexpected)).2
    simp [hkey] at hkept
  · intro honly
    have hfilter : s.unconfirmed.filter (fun c' => c'.key ≠ c.key) =
      s.unconfirmed.filter (fun c' => c' ≠ c) := by
      refine filter_congr fun c' hc' => ?_
      have hiff : c'.key=c.key ↔ c'=c := ⟨honly c' hc',congrArg ControlCmd.key⟩
      simp [hiff]
    refine ⟨?_,h.2⟩
    unfold onRecvdCmdReply erase OutstandingCmds.answer
    dsimp only
    rw [hfilter]
    exact h.1.filter _

theorem agrees_onPostWaitingMsg (h : s.Agrees o) (hpast : ∀ c∈s.unconfirmed, c.posted ≤ s.clock)
    (hash : HashOrder) (hreport : s.Reportable env) :
    (s.onPostWaitingMsg hash env).Agrees (o.tick env s.clock) := by
  have hoverdue : ∀ c∈s.unconfirmed, (isOverdue s.clock c = true ↔ c.posted+30000 ≤ s.clock) :=
    fun c hc => by
    rw [isOverdue_iff (hpast c hc)]
    exact ⟨And.left,fun hwaited => ⟨hwaited,(hreport c hc hwaited).2.2⟩⟩
  have hmem (c : ControlCmd) : c ∈ hash.order s.unconfirmed ↔ c∈s.unconfirmed := (hash.perm _).mem_iff
  obtain ⟨hunconfirmed,hsent,htimedOut⟩ := waitLoop_eq (fun c hc => (hmem c).mp hc)
    (((hash.perm s.unconfirmed).map _).nodup_iff.mpr s.distinct) (fun c hc hover => by
      obtain ⟨hsession,hctrl,-⟩ := hreport c ((hmem c).mp hc) ((hoverdue c ((hmem c).mp hc)).mp hover)
      exact (⟨hsession,hctrl⟩ : internalSessionId≠c.sessionId ∧ env.ctrl=true))
  -- what the loop does to the commands it walks is what is expected of the outstanding ones
  have hperm {p q : ControlCmd → Bool} (hpq : ∀ c∈s.unconfirmed, p c = q c) :
      ((hash.order s.unconfirmed).filter p).Perm (o.outstanding.filter q) := by
    refine ((hash.perm s.unconfirmed).filter p).trans ?_
    rw [filter_congr hpq]
    exact h.1.filter q
  have hwaiting : ∀ c∈s.unconfirmed, (¬ isOverdue s.clock c = true ↔ s.clock<c.posted+30000) :=
    fun c hc => (not_congr (hoverdue c hc)).trans Nat.not_le
  unfold onPostWaitingMsg OutstandingCmds.tick
  refine ⟨?_,?_,?_⟩
  · rw [hunconfirmed]
    have hfilter : ∀ c∈s.unconfirmed,
        ((∀ c' ∈ hash.order s.unconfirmed, isOverdue s.clock c' = true → c.key≠c'.key) ↔
          s.clock < c.posted+30000) := by
      intro c hc
      rw [← hwaiting c hc]
      refine ⟨fun hall hover => hall c ((hmem c).mpr hc) hover rfl,fun hnot c' hc' hover hkey => hnot ?_⟩
      have hsame : c=c' := inj_on_of_nodup_map s.distinct hc ((hmem c').mp hc') hkey
      rwa [hsame]
    rw [filter_congr fun c hc => decide_eq_decide.mpr (hfilter c hc)]
    exact h.1.filter _
  · rw [hsent]
    refine h.2.1.append (hperm fun c hc => ?_)
    rw [decide_eq_decide,hwaiting c hc]
  · rw [htimedOut]
    refine h.2.2.append (hperm fun c hc => ?_)
    rw [Bool.eq_iff_iff,decide_eq_true_eq,hoverdue c hc]
    exact ⟨fun hwaited => ⟨hwaited,(hreport c hc hwaited).1⟩,And.left⟩

theorem reportable_of_agrees (hpast : ∀ c∈s.unconfirmed, c.posted ≤ s.clock) {hash : HashOrder}
    (hagrees : (s.onPostWaitingMsg hash env).Agrees (o.tick env s.clock)) : s.Reportable env := by
  intro c hc hwaited
  have hgone : c ∉ (s.onPostWaitingMsg hash env).unconfirmed := fun hstays => by
    have hexpected := (mem_filter.mp (hagrees.1.mem_iff.mp hstays)).2
    exact absurd (of_decide_eq_true hexpected) (Nat.not_lt.mpr hwaited)
  have hdue (c' : ControlCmd) (hc' : c' ∈ hash.order s.unconfirmed) (hkey : c'.key=c.key) : c'=c :=
    inj_on_of_nodup_map s.distinct ((hash.perm _).mem_iff.mp hc') hc hkey
  have hctrl : env.ctrl=true := by
    by_contra hnone
    exact hgone (mem_waitLoop hc (Or.inl (Bool.eq_false_iff.mpr hnone)))
  have hover : isOverdue s.clock c = true ∧ internalSessionId≠c.sessionId := by
    by_contra hnot
    refine hgone (mem_waitLoop hc (Or.inr fun c' hc' hover hsession hkey => hnot ?_))
    rw [← hdue c' hc' hkey]
    exact ⟨hover,hsession⟩
  exact ⟨hover.2,hctrl,((isOverdue_iff (hpast c hc)).mp hover.1).2⟩

end InterprocessServer

namespace ControlRun

open InterprocessServer

def Past (r : ControlRun) : Prop := ∀ c∈r.expected.outstanding, c.posted ≤ r.server.clock

theorem clock_step (hash : HashOrder) (r : ControlRun) (e : ControlEvent) :
    (r.step hash e).server.clock = r.server.clock+e.elapsed := by
  obtain ⟨elapsed,env,call⟩ := e
  cases call with
  | post id type sessionId => exact clock_postCmd env _ _
  | reply c => rfl
  | tick => exact clock_waitLoop _ _

theorem past_step (hash : HashOrder) (r : ControlRun) (e : ControlEvent) (h : r.Past) :
    (r.step hash e).Past := by
  have hlater : ∀ c∈r.expected.outstanding, c.posted ≤ r.server.clock+e.elapsed :=
    fun c hc => Nat.le_add_right_of_le (h c hc)
  intro c hc
  rw [clock_step]
  obtain ⟨elapsed,env,call⟩ := e
  cases call with
  | post id type sessionId =>
    rcases mem_append.mp hc with hold | hnew
    · exact hlater c hold
    · rw [mem_singleton.mp hnew]
  | reply c' => exact hlater c (mem_filter.mp hc).1
  | tick => exact hlater c (mem_filter.mp hc).1

theorem answered_step_iff (hash : HashOrder) (r : ControlRun) (e : ControlEvent) (h : r.Answered)
    (hpast : r.Past) : (r.step hash e).Answered ↔ r.Careful e := by
  obtain ⟨elapsed,env,call⟩ := e
  have hlater : Agrees { r.server with clock := r.server.clock + elapsed } r.expected := h
  cases call with
  | post id type sessionId => exact agrees_postCmd_iff hlater rfl
  | reply c => exact agrees_onRecvdCmdReply_iff hlater
  | tick =>
    have hposted : ∀ c∈r.server.unconfirmed, c.posted ≤ r.server.clock+elapsed :=
      fun c hc => Nat.le_add_right_of_le (hpast c (h.1.mem_iff.mp hc))
    exact ⟨reportable_of_agrees hposted,agrees_onPostWaitingMsg hlater hposted hash⟩

/-- In a run from a new server every command is answered for just when every call is careful. -/
theorem commands_answered_iff (hash : HashOrder) (now : ℕ) (es : List ControlEvent) :
    (∀ n, ((es.take n).foldl (step hash) (create now)).Answered) ↔
    AlongRun (step hash) Careful (create now) es := by
  refine alongRun_iff_of_invariant (fun r => r.Answered ∧ r.Past) Answered (fun _ h => h.1) ?_ ?_
    (alongRun_of_forall (fun _ _ => trivial) _ _ : AlongRun (step hash) (fun _ _ => True)
      (create now) es) ⟨?_,nofun⟩
  · rintro r e ⟨h,hpast⟩ - hcareful
    exact ⟨(answered_step_iff hash r e h hpast).mpr hcareful,past_step hash r e hpast⟩
  · rintro r e ⟨h,hpast⟩ - hnext
    exact (answered_step_iff hash r e h hpast).mp hnext
  · exact ⟨.refl _,.refl _,.refl _⟩

def twoCommands : List ControlEvent :=
  [.post "mds" (-1) "first",.post "mds" (-1) "second"].map fun call => ⟨1000,⟨true,fun _ => true⟩,call⟩

/-- The second command is not kept, and an internal one is kept for ever. -/
theorem commands_not_answered : ¬ (twoCommands.foldl (step ⟨id,fun _ => .refl _⟩) (create 0)).Answered ∧
      ¬ ([.post "mds" (-1) internalSessionId,.tick].foldl
        (fun r call => step ⟨id,fun _ => .refl _⟩ r ⟨30000,⟨true,fun _ => true⟩,call⟩)
          (create 0)).Answered :=
  ⟨fun h => absurd h.1.length_eq (by decide),fun h => absurd h.1.length_eq (by decide)⟩

end ControlRun

end P2Streaming
