import P2Streaming.CircularWalks
import Mathlib.Algebra.Order.BigOperators.Group.Finset

/-! The smoother: what is pushed waits in one queue for each connection, and a timer walks round
the connections and sends as much as the speed allows. -/
namespace P2Streaming

open CircularWalks Function

/-- An `element`; `number` is its place among all pushes and stands for its handler. -/
structure SmoothElement where
  number : ℕ
  conn : ℤ
  l : ℕ
  t : ℤ
  deriving DecidableEq

/-- `task_map`. Each entry lives in a node of the tree, and every node made gets a new number, so
that an iterator into an erased entry is told from one into a later entry of the same key. -/
structure TaskMap where
  conns : Finset ℤ
  queue : ℤ → List SmoothElement
  node : ℤ → ℕ
  nodes : ℕ
  absent : ∀ k, k ∉ conns → queue k = []

/-- `task_map::iterator`, where it is not the end. -/
structure TaskPosition where
  conn : ℤ
  node : ℕ
  deriving DecidableEq

namespace TaskMap

def empty : TaskMap where
  conns := ∅
  queue _ := []
  node _ := 0
  nodes := 0
  absent _ _ := rfl

variable (m : TaskMap)

def clear : TaskMap := { empty with nodes := m.nodes }

def position (k : ℤ) : TaskPosition := ⟨k,m.node k⟩

def Current (p : TaskPosition) : Prop := p.conn ∈ m.conns ∧ p = m.position p.conn

instance (p : TaskPosition) : Decidable (m.Current p) :=
  inferInstanceAs (Decidable (_ ∧ _))

/-- `send_handler_list_[k].push_back(e)`: a key that is not there gets a node. -/
def pushBack (k : ℤ) (e : SmoothElement) : TaskMap where
  conns := insert k m.conns
  queue := update m.queue k (m.queue k ++ [e])
  node := if k∈m.conns then m.node else update m.node k m.nodes
  nodes := if k∈m.conns then m.nodes else m.nodes + 1
  absent j hj := by
    obtain ⟨hjk,hj⟩ := not_or.mp (Finset.mem_insert.not.mp hj)
    rw [update_of_ne hjk]
    exact m.absent j hj

/-- `elementQue.pop_front()`. -/
def popFront (k : ℤ) : TaskMap where
  conns := m.conns
  queue := update m.queue k (m.queue k).tail
  node := m.node
  nodes := m.nodes
  absent j hj := by
    by_cases hjk : j=k
    · subst hjk
      simp [m.absent j hj]
    · rw [update_of_ne hjk]
      exact m.absent j hj

/-- `send_handler_list_.erase(itr)`. -/
def erase (k : ℤ) : TaskMap where
  conns := m.conns.erase k
  queue := update m.queue k []
  node := m.node
  nodes := m.nodes
  absent j hj := by
    by_cases hjk : j=k
    · subst hjk
      simp
    · rw [update_of_ne hjk]
      exact m.absent j fun hm => hj (Finset.mem_erase.mpr ⟨hjk,hm⟩)

def queued : ℕ := ∑ k ∈ m.conns, (m.queue k).length

variable {m}

theorem queued_eq_add {k : ℤ} (hk : k∈m.conns) :
    m.queued = (m.queue k).length + ∑ j ∈ m.conns.erase k, (m.queue j).length :=
  (Finset.add_sum_erase _ _ hk).symm

theorem sum_update_erase (m : TaskMap) (k : ℤ) (q : List SmoothElement) (s : Finset ℤ) :
    ∑ j ∈ s.erase k, (update m.queue k q j).length = ∑ j ∈ s.erase k, (m.queue j).length := by
  refine Finset.sum_congr rfl fun j hj => ?_
  rw [update_of_ne (Finset.ne_of_mem_erase hj)]

theorem queued_pushBack (m : TaskMap) (k : ℤ) (e : SmoothElement) :
    (m.pushBack k e).queued = m.queued+1 := by
  have hnew : k ∈ (m.pushBack k e).conns := Finset.mem_insert_self k _
  rw [queued_eq_add hnew]
  simp only [pushBack,update_self,List.length_append,List.length_singleton,
    sum_update_erase]
  by_cases hk : k∈m.conns
  · rw [Finset.insert_eq_of_mem hk,queued_eq_add hk]
    omega
  · rw [Finset.erase_insert hk,m.absent k hk]
    simp only [queued,List.length_nil]
    omega

theorem queued_popFront {k : ℤ} {e : SmoothElement} {q : List SmoothElement}
    (hk : k∈m.conns) (hq : m.queue k = e :: q) : (m.popFront k).queued + 1 = m.queued := by
  rw [queued_eq_add hk,queued_eq_add (m := m.popFront k) hk]
  simp only [popFront,update_self,sum_update_erase,hq,List.tail_cons,
    List.length_cons]
  omega

theorem queued_erase {k : ℤ} (hk : k∈m.conns) (hq : m.queue k = []) : (m.erase k).queued = m.queued := by
  rw [queued_eq_add hk,hq]
  simp only [queued,erase,sum_update_erase,List.length_nil,Nat.zero_add]

theorem Current.pushBack {p : TaskPosition} (h : m.Current p) (k : ℤ)
    (e : SmoothElement) : (m.pushBack k e).Current p := by
  obtain ⟨hp,heq⟩ := h
  refine ⟨Finset.mem_insert_of_mem hp,heq.trans ?_⟩
  unfold position TaskMap.pushBack
  by_cases hk : k∈m.conns
  · simp only [hk,if_true]
  · have hne : p.conn≠k := by
      rintro rfl
      exact hk hp
    simp only [hk,if_false,update_of_ne hne]

theorem popFront_pushBack {k : ℤ} (hk : m.queue k ≠ []) (j : ℤ)
    (e : SmoothElement) : (m.pushBack j e).popFront k = (m.popFront k).pushBack j e := by
  have hqueue : ((m.pushBack j e).popFront k).queue = ((m.popFront k).pushBack j e).queue := by
    simp only [popFront,pushBack]
    by_cases hjk : j=k
    · subst hjk
      simp only [update_self,update_idem,List.tail_append_of_ne_nil hk]
    · simp only [update_of_ne hjk,update_of_ne (Ne.symm hjk)]
      exact update_comm hjk _ _ _
  unfold popFront pushBack at hqueue ⊢
  simp only [TaskMap.mk.injEq]
  exact ⟨trivial,hqueue,trivial,trivial⟩

end TaskMap

structure SmootherConfig where
  startTimeDelay : ℤ
  maxTimePre : ℤ
  maxTimeDelay : ℤ

/-- The local variables of `on_timer` between two turns of the inner loop. -/
structure TimerWalk where
  now : ℤ
  maxSendLen : ℤ
  sendLen : ℤ
  stopmark : Finset ℤ
  itr : TaskPosition

/-- A call of `push`: its moment, connection and length. -/
structure PushCall where
  now : ℤ
  conn : ℤ
  len : ℕ

/-- The tests of the speed meters, which are computed in floating point: whether one of the two
bounds on `currSpeed` holds, and whether `currSpeed` exceeds an eighth of the threshold. -/
structure SpeedTests where
  slow : Bool
  fast : Bool

/-- `walk` is the call of `on_timer` that is under way. A `last_iterator_` of `some none` is the
end of the list. The logs `pushed` and `invoked` and the number of elements `dropped` by `reset`
are not variables of the program. -/
structure Smoother where
  sendHandlerList : TaskMap
  size : ℤ
  lastIterator : Option (Option TaskPosition)
  firstPushTime : Option ℤ
  lastPushTime : Option ℤ
  walk : Option TimerWalk
  pushed : List SmoothElement
  invoked : List SmoothElement
  dropped : ℕ

namespace Smoother

def init : Smoother where
  sendHandlerList := .empty
  size := 0
  lastIterator := none
  firstPushTime := none
  lastPushTime := none
  walk := none
  pushed := []
  invoked := []
  dropped := 0

/-- `reset`, and `stop`, which calls it. -/
def reset (s : Smoother) : Smoother :=
  { s with
    size := 0
    firstPushTime := none
    lastPushTime := none
    sendHandlerList := s.sendHandlerList.clear
    lastIterator := none
    dropped := s.dropped + s.sendHandlerList.queued }

variable (cfg : SmootherConfig)

def element (s : Smoother) (c : PushCall) : SmoothElement :=
  ⟨s.pushed.length,c.conn,c.len,c.now + cfg.startTimeDelay + cfg.maxTimeDelay⟩

def push (s : Smoother) (c : PushCall) : Smoother :=
  { s with
    sendHandlerList := s.sendHandlerList.pushBack c.conn (s.element cfg c)
    size := s.size+1
    firstPushTime := some (s.firstPushTime.getD c.now)
    lastPushTime := if s.firstPushTime.isNone then none else s.lastPushTime
    pushed := s.pushed ++ [s.element cfg c] }

/-- The iterator `on_timer` starts from. -/
def startPosition (s : Smoother) : Option TaskPosition :=
  s.lastIterator.join.or ((first s.sendHandlerList.conns).map s.sendHandlerList.position)

/-- `on_timer` up to its loop; `maxSendLen` comes from the speed meters. -/
def startTimer (s : Smoother) (now maxSendLen : ℤ) : Smoother :=
  match s.firstPushTime with
  | none => s
  | some f =>
    if now < f + cfg.startTimeDelay then s
    else
      { s with
        lastPushTime := some now
        walk :=
          if s.sendHandlerList.conns = ∅ then none
          else s.startPosition.map (⟨now,maxSendLen,0,∅,·⟩) }

/-- The list after a visit of `k`: an empty queue is erased. -/
def visited (m : TaskMap) (k : ℤ) : TaskMap := if m.queue k = [] then m.erase k else m

/-- The marks after a visit: a connection that still waits and may not send is marked. -/
def marks (m : TaskMap) (w : TimerWalk) (canSend : Bool) : Finset ℤ :=
  if m.queue w.itr.conn = [] ∨ canSend then w.stopmark else insert w.itr.conn w.stopmark

def endVisit (s : Smoother) (w : TimerWalk) (canSend : Bool) : Smoother :=
  let tasks := visited s.sendHandlerList w.itr.conn
  let stopmark := marks s.sendHandlerList w canSend
  let itr := (around tasks.conns w.itr.conn).map tasks.position
  { s with
    sendHandlerList := tasks
    lastIterator := some itr
    walk :=
      if w.maxSendLen≤w.sendLen ∨ tasks.conns.card ≤ stopmark.card then none
      else itr.map ({ w with stopmark := stopmark, itr := · }) }

/-- `ele.handler(timeOut)` and the lines around it: `size_` no longer counts the element, the
handler may push, and then the element leaves the queue of the visited connection `k`. -/
def invoke (calls : List PushCall) (s : Smoother) (k : ℤ)
    (e : SmoothElement) : Smoother :=
  let s := { s with size := s.size - 1, invoked := s.invoked ++ [e] }
  let s := calls.foldl (push cfg) s
  { s with sendHandlerList := s.sendHandlerList.popFront k }

/-- `timeOut`, an `int`. -/
def timeOut (w : TimerWalk) (e : SmoothElement) : ℤ :=
  (w.now - (e.t - cfg.maxTimeDelay)).bmod (2^32)

/-- One turn of the inner loop; the loop is left through `endVisit`. -/
def turn (d : SpeedTests) (calls : List PushCall) (s : Smoother)
    (w : TimerWalk) : Smoother :=
  match s.sendHandlerList.queue w.itr.conn with
  | [] => s.endVisit w true
  | e :: _ =>
    if w.itr.conn∈w.stopmark then s.endVisit w true
    else if timeOut cfg w e ≤ -cfg.maxTimePre then s.endVisit w false
    else if d.slow ∨ e.t≤w.now then
      let s := s.invoke cfg calls w.itr.conn e
      let w := { w with sendLen := (w.sendLen+e.l).bmod (2^32) }
      if w.maxSendLen<w.sendLen ∧ w.now<e.t ∧ d.fast then s.endVisit w false
      else if 1<s.sendHandlerList.conns.card then s.endVisit w true
      else { s with walk := some w }
    else s.endVisit w false

end Smoother

/-- What happens to a smoother: calls from outside, which are made while no `on_timer` runs, and
the turns of an `on_timer` that runs, with what the invoked handler pushes. -/
inductive SmootherEvent where
  | push (c : PushCall)
  | reset
  | timer (now maxSendLen : ℤ)
  | turn (d : SpeedTests) (calls : List PushCall)

namespace Smoother

def step (cfg : SmootherConfig) (s : Smoother) (e : SmootherEvent) : Smoother :=
  match s.walk, e with
  | none, .push c => s.push cfg c
  | none, .reset => s.reset
  | none, .timer now maxSendLen => s.startTimer cfg now maxSendLen
  | some w, .turn d calls => s.turn cfg d calls w
  | _, _ => s

def run (cfg : SmootherConfig) (es : List SmootherEvent) : Smoother := es.foldl (step cfg) init

/-- `on_timer` for `n` turns with handlers that push nothing. -/
def quietTurns (cfg : SmootherConfig) : ℕ → (ℕ → SpeedTests) → Smoother → Smoother
  | 0, _, s => s
  | n + 1, d, s => quietTurns cfg n (d <| · + 1) (s.step cfg (.turn (d 0) []))

def ofConn (k : ℤ) (log : List SmoothElement) : List SmoothElement :=
  log.filter (·.conn = k)

end Smoother

end P2Streaming
