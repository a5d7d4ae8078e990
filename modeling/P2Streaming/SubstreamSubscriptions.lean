import P2Streaming.PacketBuffer
import P2Streaming.TransitionRuns

/-!
# Subscriptions of substreams

`stream_scheduling` keeps, for every substream, the connection it is subscribed from. When it
unsubscribes, the slot stays as it is for a while, so that packets under way are still taken as
subscribed ones; a record in `unsubscrips_` tells `on_unsubscrip_timer` which slot to clear. The
record holds the connection it was made for, but the timer clears the slot without looking at
what is in it.
-/
namespace P2Streaming
open TransitionRuns Function

def substreamCnt : ℕ := 64

instance : NeZero substreamCnt := ⟨nofun⟩

def unsubcripDelay : BitVec 32 := 600

inductive LinkStatus where
  | connected | disconnected | destroyed
  deriving DecidableEq

structure UnsubscriptElm (Conn : Type*) where
  conn : Conn
  substreamId : Fin substreamCnt
  t : BitVec 32

/-- What a call finds outside: the time, the connections and their peers, and the connection of
the stream seed. -/
structure SchedulingEnv (Conn Peer : Type*) where
  now : BitVec 32
  status : Conn → LinkStatus
  getPeer : Conn → Option Peer
  seed : Option Conn

/-- The part of `stream_scheduling` that is about incoming substreams. A slot holds a weak
pointer, so what it names may be destroyed. -/
structure Subscriptions (Conn Peer : Type*) where
  inSubstream : Fin substreamCnt → Option Conn
  unsubscrips : List (UnsubscriptElm Conn)
  lastUnsubscriptionTime : Peer → Fin substreamCnt → BitVec 32
  subscriptionCount : Peer → ℤ

namespace Subscriptions

variable {Conn Peer : Type*} [DecidableEq Conn] [DecidableEq Peer]

/-- `in_substream_[i].lock()`. -/
def lock (env : SchedulingEnv Conn Peer) (s : Subscriptions Conn Peer) (i : Fin substreamCnt) :
    Option Conn :=
  (s.inSubstream i).filter fun conn => env.status conn ≠ .destroyed

variable (s : Subscriptions Conn Peer)

def setSlot (i : Fin substreamCnt) (conn : Option Conn) : Subscriptions Conn Peer :=
  { s with inSubstream := update s.inSubstream i conn }

def addCount (p : Peer) (n : ℤ) : Subscriptions Conn Peer :=
  { s with subscriptionCount := update s.subscriptionCount p (s.subscriptionCount p + n) }

def setLastUnsubscriptionTime (p : Peer) (i : Fin substreamCnt) (now : BitVec 32) :
    Subscriptions Conn Peer :=
  { s with
    lastUnsubscriptionTime :=
      update s.lastUnsubscriptionTime p (update (s.lastUnsubscriptionTime p) i now) }

def subscribe (env : SchedulingEnv Conn Peer) (s : Subscriptions Conn Peer) (conn : Conn)
    (i : Fin substreamCnt) : Subscriptions Conn Peer :=
  match env.getPeer conn with
  | none => s
  | some p => (s.setSlot i (some conn)).addCount p 1

/-- The part of `unsubscribe` for a connected peer: the slot is left for `on_unsubscrip_timer`. -/
def deferUnsubscribe (env : SchedulingEnv Conn Peer) (s : Subscriptions Conn Peer) (conn : Conn)
    (p : Peer) (i : Fin substreamCnt) : Subscriptions Conn Peer :=
  let s := (s.setLastUnsubscriptionTime p i env.now).addCount p (-1)
  if s.lock env i = some conn then { s with unsubscrips := s.unsubscrips ++ [⟨conn,i,env.now⟩] } else s

def unsubscribe (env : SchedulingEnv Conn Peer) (s : Subscriptions Conn Peer) (conn : Option Conn)
    (i : Fin substreamCnt) : Subscriptions Conn Peer :=
  match conn with
  | none => s
  | some conn =>
    if env.seed = some conn then s
    else
      match env.getPeer conn with
      | none => s
      | some p =>
        if ¬ isTimePassed 1000 (s.lastUnsubscriptionTime p i) env.now then s
        else if env.status conn = .connected then s.deferUnsubscribe env conn p i
        else if s.lock env i = some conn then s.setSlot i none
        else s

/-- The turn of `unsubscription` for one substream. -/
def unsubscribeSlot (env : SchedulingEnv Conn Peer) (s : Subscriptions Conn Peer) (i : Fin substreamCnt) :
    Subscriptions Conn Peer :=
  match s.lock env i with
  | none => s
  | some conn => if env.status conn = .connected then s.unsubscribe env
    (some conn) i else s.setSlot i none

def unsubscription (env : SchedulingEnv Conn Peer) (s : Subscriptions Conn Peer) :
    Subscriptions Conn Peer :=
  (List.finRange substreamCnt).foldl (unsubscribeSlot env) s

/-- The loop of `on_unsubscrip_timer`, which stops at the first record that is not due. -/
def clearDue (env : SchedulingEnv Conn Peer) (slots : Fin substreamCnt → Option Conn) :
    List (UnsubscriptElm Conn) → (Fin substreamCnt → Option Conn) × List (UnsubscriptElm Conn)
  | [] => (slots, [])
  | elm :: rest =>
    if env.status elm.conn = .destroyed then clearDue env slots rest
    else if isTimePassed unsubcripDelay elm.t env.now then
      clearDue env (update slots elm.substreamId none) rest
    else (slots, elm::rest)

def onUnsubscripTimer (env : SchedulingEnv Conn Peer) (s : Subscriptions Conn Peer) :
    Subscriptions Conn Peer :=
  { s with
    inSubstream := (clearDue env s.inSubstream s.unsubscrips).1
    unsubscrips := (clearDue env s.inSubstream s.unsubscrips).2 }

end Subscriptions

namespace Subscriptions

variable {Conn Peer : Type*} {env : SchedulingEnv Conn Peer}

/-- The record does not stop the loop of `on_unsubscrip_timer`. -/
def due (env : SchedulingEnv Conn Peer) (elm : UnsubscriptElm Conn) : Bool :=
  env.status elm.conn = .destroyed || isTimePassed unsubcripDelay elm.t env.now

theorem clearDue_eq_none {slots : Fin substreamCnt → Option Conn} {elms : List (UnsubscriptElm Conn)}
    {elm : UnsubscriptElm Conn} (helm : elm ∈ elms.takeWhile (due env))
    (halive : env.status elm.conn ≠ .destroyed) :
    (clearDue env slots elms).1 elm.substreamId = none := by
  have hcleared : ∀ (elms : List (UnsubscriptElm Conn)) (slots : Fin substreamCnt → Option Conn),
      slots elm.substreamId = none → (clearDue env slots elms).1 elm.substreamId = none := by
    intro elms
    induction elms with
    | nil => exact fun _ h => h
    | cons first rest ih =>
      intro slots h
      unfold clearDue
      split_ifs
      · exact ih slots h
      · refine ih _ ?_
        rw [update_apply]
        split_ifs
        · rfl
        · exact h
      · exact h
  induction elms generalizing slots with
  | nil => exact absurd helm List.not_mem_nil
  | cons first rest ih =>
    rw [List.takeWhile_cons] at helm
    split at helm
    · rename_i hdue
      unfold clearDue
      rcases List.mem_cons.mp helm with rfl | hrest
      · rw [if_neg halive,if_pos ((Bool.or_eq_true_iff.mp hdue).resolve_left (by simpa using halive))]
        exact hcleared rest _ (update_self _ _ _)
      · split_ifs with hdestroyed htime
        · exact ih hrest
        · exact ih hrest
        · exact absurd hdue (by simp [due,hdestroyed,htime])
    · exact absurd helm List.not_mem_nil

theorem clearDue_of_not_mem {slots : Fin substreamCnt → Option Conn} {elms : List (UnsubscriptElm Conn)}
    {i : Fin substreamCnt}
    (h : ∀ elm ∈ elms.takeWhile (due env), env.status elm.conn ≠ .destroyed → elm.substreamId≠i) :
    (clearDue env slots elms).1 i = slots i := by
  induction elms generalizing slots with
  | nil => rfl
  | cons first rest ih =>
    unfold clearDue
    split_ifs with hdestroyed htime
    · have hdue : due env first = true := by simp [due,hdestroyed]
      rw [List.takeWhile_cons_of_pos hdue] at h
      exact ih fun elm helm => h elm (List.mem_cons_of_mem _ helm)
    · have hdue : due env first = true := by simp [due,htime]
      rw [List.takeWhile_cons_of_pos hdue] at h
      rw [ih fun elm helm => h elm (List.mem_cons_of_mem _ helm)]
      exact update_of_ne (h first List.mem_cons_self hdestroyed).symm _ _
    · rfl

variable [DecidableEq Conn] [DecidableEq Peer]

omit [DecidableEq Conn] [DecidableEq Peer] in
theorem lock_eq_some {s : Subscriptions Conn Peer} {i : Fin substreamCnt} {conn : Conn} :
    s.lock env i = some conn ↔ s.inSubstream i = some conn ∧ env.status conn ≠ .destroyed := by
  simp [lock,Option.filter_eq_some_iff]

variable (env) in
theorem inSubstream_unsubscribe (s : Subscriptions Conn Peer) (conn : Option Conn)
    (j i : Fin substreamCnt) : (s.unsubscribe env conn j).inSubstream i = s.inSubstream i ∨
      ∃ lost, s.inSubstream i = some lost ∧ env.status lost ≠ .connected := by
  cases conn with
  | none => exact .inl rfl
  | some conn =>
    unfold unsubscribe
    dsimp only
    by_cases hseed : env.seed = some conn
    · rw [if_pos hseed]
      exact .inl rfl
    · rw [if_neg hseed]
      cases env.getPeer conn with
      | none => exact .inl rfl
      | some p =>
        dsimp only
        split_ifs with hpassed hconnected hslot
        · unfold deferUnsubscribe
          dsimp only
          split_ifs <;> exact .inl rfl
        · by_cases hij : i=j
          · subst hij
            exact .inr ⟨conn,(lock_eq_some.mp hslot).1,hconnected⟩
          · exact .inl (update_of_ne hij _ _)
        · exact .inl rfl
        · exact .inl rfl

end Subscriptions

inductive SchedulingCall (Conn : Type*) where
  | subscribe (conn : Conn) (i : Fin substreamCnt)
  | unsubscribe (conn : Option Conn) (i : Fin substreamCnt)
  | unsubscription
  | onUnsubscripTimer
  | wait

structure SchedulingEvent (Conn Peer : Type*) where
  env : SchedulingEnv Conn Peer
  call : SchedulingCall Conn

namespace Subscriptions

variable {Conn Peer : Type*} [DecidableEq Conn] [DecidableEq Peer]

def step (s : Subscriptions Conn Peer) (e : SchedulingEvent Conn Peer) : Subscriptions Conn Peer :=
  match e.call with
  | .subscribe conn i => s.subscribe e.env conn i
  | .unsubscribe conn i => s.unsubscribe e.env conn i
  | .unsubscription => s.unsubscription e.env
  | .onUnsubscripTimer => s.onUnsubscripTimer e.env
  | .wait => s

end Subscriptions

/-- The scheduling together with the subscriptions in force: for a substream, the connection last
passed to `subscribe`, while it has stayed connected and has not been passed to `unsubscribe`. -/
structure WatchedSubscriptions (Conn Peer : Type*) where
  scheduling : Subscriptions Conn Peer
  inForce : Fin substreamCnt → Option Conn

namespace WatchedSubscriptions

variable {Conn Peer : Type*} [DecidableEq Conn] [DecidableEq Peer]

/-- The connection is in force no longer if it is not connected any more. -/
def stillConnected (env : SchedulingEnv Conn Peer) (conn : Option Conn) : Option Conn :=
  conn.filter fun conn => env.status conn = .connected

variable (w : WatchedSubscriptions Conn Peer)

/-- What is in force behind a call. `unsubscription` calls `unsubscribe` with what the slots hold. -/
def watch (e : SchedulingEvent Conn Peer) : Fin substreamCnt → Option Conn :=
  let kept := fun i => stillConnected e.env (w.inForce i)
  match e.call with
  | .subscribe conn i => update kept i (stillConnected e.env (some conn))
  | .unsubscribe conn i => if kept i = conn then update kept i none else kept
  | .unsubscription => fun i => if kept i = w.scheduling.lock e.env i then none else kept i
  | _ => kept

def step (e : SchedulingEvent Conn Peer) : WatchedSubscriptions Conn Peer :=
  ⟨w.scheduling.step e,w.watch e⟩

/-- The slot of every subscription in force refers to its connection. -/
def Kept : Prop :=
  ∀ i conn, w.inForce i = some conn → w.scheduling.inSubstream i = some conn

/-- A call that keeps the subscriptions in force: the timer comes to no record of a substream that
has one, and `subscribe` is given a connection that has its peer, or that the slot holds already. -/
def Careful (e : SchedulingEvent Conn Peer) : Prop :=
  match e.call with
  | .subscribe conn i =>
    e.env.status conn = .connected → e.env.getPeer conn = none → w.scheduling.inSubstream i = some conn
  | .onUnsubscripTimer =>
    ∀ elm ∈ w.scheduling.unsubscrips.takeWhile (Subscriptions.due e.env),
      e.env.status elm.conn ≠ .destroyed → stillConnected e.env (w.inForce elm.substreamId) = none
  | _ => True

variable {w} {env : SchedulingEnv Conn Peer}

omit [DecidableEq Conn] [DecidableEq Peer] in
theorem stillConnected_eq_some {o : Option Conn} {conn : Conn} :
    stillConnected env o = some conn ↔ o = some conn ∧ env.status conn = .connected := by
  simp [stillConnected,Option.filter_eq_some_iff]

omit [DecidableEq Conn] [DecidableEq Peer] in
theorem Kept.slot (h : w.Kept) {i : Fin substreamCnt} {conn : Conn}
    (hforce : stillConnected env (w.inForce i) = some conn) :
    w.scheduling.inSubstream i = some conn ∧ env.status conn = .connected :=
  ⟨h i conn (stillConnected_eq_some.mp hforce).1,(stillConnected_eq_some.mp hforce).2⟩

theorem kept_subscribe (h : w.Kept) (conn : Conn) (i : Fin substreamCnt) :
    (w.step ⟨env,.subscribe conn i⟩).Kept ↔ w.Careful ⟨env,.subscribe conn i⟩ := by
  have hother {s : Subscriptions Conn Peer} (hs : ∀ j, j≠i → s.inSubstream j = w.scheduling.inSubstream j)
      (hi : env.status conn = .connected → s.inSubstream i = some conn) :
      Kept ⟨s,w.watch ⟨env,.subscribe conn i⟩⟩ := by
    intro j kept hforce
    unfold watch at hforce
    dsimp only at hforce ⊢
    by_cases hij : j=i
    · subst hij
      rw [update_self] at hforce
      obtain ⟨heq,hconnected⟩ := stillConnected_eq_some.mp hforce
      cases heq
      exact hi hconnected
    · rw [update_of_ne hij] at hforce
      exact (hs j hij).trans (h.slot hforce).1
  unfold step Subscriptions.step Subscriptions.subscribe Careful
  dsimp only
  cases env.getPeer conn with
  | none =>
    refine ⟨fun hkept hconnected _ => hkept i conn ?_,
      fun hslot => hother (fun _ _ => rfl) fun hc => hslot hc rfl⟩
    unfold watch
    dsimp only
    rw [update_self]
    exact stillConnected_eq_some.mpr ⟨rfl,hconnected⟩
  | some p =>
    refine iff_of_true (hother (fun j hij => ?_) fun _ => ?_) nofun
    · exact update_of_ne hij _ _
    · exact update_self _ _ _

theorem kept_unsubscribe (h : w.Kept) (conn : Option Conn) (i : Fin substreamCnt) :
    (w.step ⟨env,.unsubscribe conn i⟩).Kept := by
  intro j kept hforce
  have hstill : stillConnected env (w.inForce j) = some kept := by
    unfold step watch at hforce
    dsimp only at hforce
    split_ifs at hforce
    · by_cases hij : j=i
      · subst hij
        rw [update_self] at hforce
        exact nomatch hforce
      · rwa [update_of_ne hij] at hforce
    · exact hforce
  obtain ⟨hslot,hconnected⟩ := h.slot hstill
  rcases w.scheduling.inSubstream_unsubscribe env conn i j with hsame | ⟨lost,hlost,hgone⟩
  · exact hsame.trans hslot
  · exact absurd (Option.some.inj (hslot.symm.trans hlost) ▸ hconnected) hgone

theorem kept_unsubscription (h : w.Kept) : (w.step ⟨env,.unsubscription⟩).Kept := by
  intro i conn hforce
  change (if stillConnected env (w.inForce i) = w.scheduling.lock env i then none
    else stillConnected env (w.inForce i)) = some conn at hforce
  split_ifs at hforce with hslot
  -- what is in force is in its slot, so it has been passed to `unsubscribe`
  obtain ⟨hin,hconnected⟩ := h.slot hforce
  refine absurd (hforce.trans (Subscriptions.lock_eq_some.mpr ⟨hin,?_⟩).symm) hslot
  rw [hconnected]
  nofun

theorem kept_onUnsubscripTimer (h : w.Kept) :
    (w.step ⟨env,.onUnsubscripTimer⟩).Kept ↔ w.Careful ⟨env,.onUnsubscripTimer⟩ := by
  constructor
  · intro hkept elm helm halive
    refine Option.eq_none_iff_forall_ne_some.mpr fun conn hforce => ?_
    have hslot := hkept elm.substreamId conn hforce
    have hnone : (w.step ⟨env,.onUnsubscripTimer⟩).scheduling.inSubstream elm.substreamId = none :=
      Subscriptions.clearDue_eq_none helm halive
    exact nomatch hnone.symm.trans hslot
  · intro hcareful i conn hforce
    replace hforce : stillConnected env (w.inForce i) = some conn := hforce
    refine (Subscriptions.clearDue_of_not_mem fun elm helm halive heq => ?_).trans (h.slot hforce).1
    subst heq
    exact nomatch (hcareful elm helm halive).symm.trans hforce

theorem kept_step (w : WatchedSubscriptions Conn Peer) (e : SchedulingEvent Conn Peer) (h : w.Kept) :
    (w.step e).Kept ↔ w.Careful e := by
  obtain ⟨env,call⟩ := e
  cases call with
  | subscribe conn i => exact kept_subscribe h conn i
  | unsubscribe conn i => exact iff_of_true (kept_unsubscribe h conn i) trivial
  | unsubscription => exact iff_of_true (kept_unsubscription h) trivial
  | onUnsubscripTimer => exact kept_onUnsubscripTimer h
  | wait => exact iff_of_true (fun i conn hforce => (h.slot hforce).1) trivial

/-- In a run from any state of the scheduling, every slot refers to the connection whose
subscription is in force, just when every call is careful. -/
theorem subscriptions_kept_iff (s : Subscriptions Conn Peer) (es : List (SchedulingEvent Conn Peer)) :
    (∀ n, ((es.take n).foldl step ⟨s,fun _ => none⟩).Kept) ↔ AlongRun step Careful ⟨s,fun _ => none⟩ es :=
  alongRun_iff Kept kept_step es nofun

/-- A substream changes over from connection 1 to connection 2; the timer runs 600 ms later. -/
def changeOver : List (SchedulingEvent ℕ ℕ) :=
  [(5000, .subscribe 1 0),(9000, .unsubscribe (some 1) 0),(9000, .subscribe 2 0),
    (9600, .onUnsubscripTimer)].map
    fun e => ⟨⟨e.1,fun _ => .connected,some,none⟩,e.2⟩

/-- The timer clears the slot of the new connection. -/
theorem changeOver_cleared :
    ¬ (changeOver.foldl step ⟨⟨fun _ => none,[],fun _ _ => 0,fun _ => 0⟩,fun _ => none⟩).Kept :=
  fun h => absurd (h 0 2 (by decide)) (by decide)

end WatchedSubscriptions

end P2Streaming
