import P2Streaming.Smoother
import P2Streaming.TransitionRuns
import Mathlib.Data.Prod.Lex

/-! The smoother keeps the order of each connection, sends nothing twice and comes to the end of
every tick. The invariant has two parts: the books of what was pushed and invoked, and where the
iterators stand. -/
namespace P2Streaming.Smoother

open CircularWalks TransitionRuns Finset Function TaskMap List

/-- What is invoked and what waits of a connection is what was pushed on it, in that order. -/
structure Books (s : Smoother) : Prop where
  numbered : s.pushed.map (·.number) = List.range s.pushed.length
  ordered : ∀ k, (ofConn k s.invoked ++ s.sendHandlerList.queue k).Sublist (ofConn k s.pushed)
  size_eq : s.size=s.sendHandlerList.queued
  counted : s.pushed.length = s.invoked.length + s.sendHandlerList.queued + s.dropped

/-- `on_timer` may visit: its iterator is one into the list, only the visited queue may be empty,
and some connection is not marked. -/
structure Visiting (m : TaskMap) (w : TimerWalk) : Prop where
  current : m.Current w.itr
  marked : w.stopmark ⊆ m.conns
  unmarked : w.stopmark.card < m.conns.card
  waiting : ∀ k∈w.stopmark, m.queue k ≠ []
  others : ∀ k∈m.conns, m.queue k = [] → k=w.itr.conn

structure Valid (s : Smoother) : Prop extends Books s where
  last : ∀ p, s.lastIterator = some (some p) → s.sendHandlerList.Current p
  idle : s.walk=none → ∀ k∈s.sendHandlerList.conns, s.sendHandlerList.queue k ≠ []
  visiting : ∀ w, s.walk = some w → Visiting s.sendHandlerList w

@[simp] theorem ofConn_append (k : ℤ) (a b : List SmoothElement) :
    ofConn k (a++b) = ofConn k a ++ ofConn k b := List.filter_append ..

theorem ofConn_singleton (k : ℤ) (e : SmoothElement) : ofConn k [e] = if e.conn=k then [e] else [] := by
  simp [ofConn,List.filter_cons]

variable {s : Smoother} {e : SmoothElement}

theorem Books.conn_eq (h : Books s) {k : ℤ} (he : e ∈ s.sendHandlerList.queue k) : e.conn=k := by
  have : e ∈ ofConn k s.pushed := (h.ordered k).subset (mem_append_right _ he)
  simpa using (mem_filter.mp this).2

theorem Books.push (h : Books s) (cfg : SmootherConfig) (c : PushCall) : Books (s.push cfg c) where
  numbered := by
    simp [Smoother.push,h.numbered,element,range_succ]
  ordered k := by
    have hk := h.ordered k
    simp only [Smoother.push,TaskMap.pushBack,ofConn_append,ofConn_singleton]
    by_cases hc : c.conn=k
    · subst hc
      simp only [element,if_true,update_self,← append_assoc]
      exact hk.append (List.Sublist.refl _)
    · simp only [element,hc,if_false,append_nil,update_of_ne (Ne.symm hc)]
      exact hk
  size_eq := by
    simp only [Smoother.push,queued_pushBack,h.size_eq]
    push_cast
    rfl
  counted := by
    simp only [Smoother.push,queued_pushBack,length_append,length_singleton,
      h.counted]
    omega

variable {w : TimerWalk} {m : TaskMap}

theorem Visiting.pushBack (h : Visiting m w) (k : ℤ) (e : SmoothElement) :
    Visiting (m.pushBack k e) w where
  current := h.current.pushBack k e
  marked := h.marked.trans (subset_insert k _)
  unmarked := h.unmarked.trans_le (card_le_card (subset_insert k _))
  waiting j hj := by
    by_cases hjk : j=k
    · simp [TaskMap.pushBack,hjk]
    · simpa only [TaskMap.pushBack,update_of_ne hjk] using h.waiting j hj
  others j hj hq := by
    by_cases hjk : j=k
    · simp [TaskMap.pushBack,hjk] at hq
    · simp only [TaskMap.pushBack,update_of_ne hjk] at hq
      exact h.others j (mem_of_mem_insert_of_ne hj hjk) hq

theorem Valid.push (h : Valid s) (cfg : SmootherConfig) (c : PushCall) : Valid (s.push cfg c) where
  toBooks := h.toBooks.push cfg c
  last p hp := (h.last p hp).pushBack ..
  idle hw j hj := by
    by_cases hjc : j=c.conn
    · simp [Smoother.push,TaskMap.pushBack,hjc]
    · have := h.idle hw j (mem_of_mem_insert_of_ne hj hjc)
      simpa only [Smoother.push,TaskMap.pushBack,update_of_ne hjc] using this
  visiting w hw := (h.visiting w hw).pushBack ..

/-- The element `e` of the connection `k` leaves its queue and is invoked. -/
def sent (s : Smoother) (k : ℤ) (e : SmoothElement) : Smoother :=
  { s with
    size := s.size - 1
    invoked := s.invoked ++ [e]
    sendHandlerList := s.sendHandlerList.popFront k }

variable (cfg : SmootherConfig)

theorem invoke_eq (calls : List PushCall) (s : Smoother) (k : ℤ)
    (e : SmoothElement) (hk : s.sendHandlerList.queue k ≠ []) :
    s.invoke cfg calls k e = calls.foldl (push cfg) (s.sent k e) := by
  suffices ∀ s : Smoother, s.sendHandlerList.queue k ≠ [] →
      ({ calls.foldl (push cfg) s with
        sendHandlerList := (calls.foldl (push cfg) s).sendHandlerList.popFront k } : Smoother) =
      calls.foldl (push cfg) { s with sendHandlerList := s.sendHandlerList.popFront k } by
    exact this { s with size := s.size - 1, invoked := s.invoked ++ [e] } hk
  intro s hs
  induction calls generalizing s with
  | nil => rfl
  | cons c calls ih =>
    have hpush : (s.push cfg c).sendHandlerList.queue k ≠ [] := by
      by_cases hck : k=c.conn
      · simp [push,TaskMap.pushBack,hck]
      · simpa only [push,TaskMap.pushBack,update_of_ne hck] using hs
    refine (ih _ hpush).trans ?_
    simp only [foldl_cons]
    congr 1
    simp only [push,element,popFront_pushBack hs]

theorem Books.sent (h : Books s) {k : ℤ} {q : List SmoothElement} (hk : k∈s.sendHandlerList.conns)
    (hq : s.sendHandlerList.queue k = e :: q) : Books (s.sent k e) where
  numbered := h.numbered
  ordered j := by
    have hconn : e.conn=k := h.conn_eq (hq ▸ mem_cons_self)
    have hj := h.ordered j
    simp only [Smoother.sent,TaskMap.popFront,ofConn_append,ofConn_singleton,hconn]
    by_cases hjk : j=k
    · subst hjk
      simpa [hq] using hj
    · simpa only [update_of_ne hjk,if_neg (Ne.symm hjk),append_nil] using hj
  size_eq := by
    have := queued_popFront hk hq
    have := h.size_eq
    simp only [Smoother.sent]
    omega
  counted := by
    have := queued_popFront hk hq
    have := h.counted
    simp only [Smoother.sent,length_append,length_singleton]
    omega

theorem Visiting.popFront (h : Visiting m w)
    (hw : w.itr.conn ∉ w.stopmark) : Visiting (m.popFront w.itr.conn) w where
  current := h.current
  marked := h.marked
  unmarked := h.unmarked
  waiting k hk := by
    have hne : k≠w.itr.conn := fun heq => hw (heq ▸ hk)
    simpa only [TaskMap.popFront,update_of_ne hne] using h.waiting k hk
  others k hk hq := by
    by_contra hne
    simp only [TaskMap.popFront,update_of_ne hne] at hq
    exact hne (h.others k hk hq)

theorem Valid.sent (h : Valid s) (hw : s.walk = some w) {q : List SmoothElement}
    (hm : w.itr.conn ∉ w.stopmark)
    (hq : s.sendHandlerList.queue w.itr.conn = e :: q) : Valid (s.sent w.itr.conn e) where
  toBooks := h.toBooks.sent (h.visiting w hw).current.1 hq
  last := h.last
  idle hnone := absurd (hw.symm.trans hnone) (Option.some_ne_none w)
  visiting v hv := by
    obtain rfl := Option.some.inj (hw.symm.trans hv)
    exact (h.visiting w hw).popFront hm

theorem Valid.foldl_push (h : Valid s) (cfg : SmootherConfig) (calls : List PushCall) :
    Valid (calls.foldl (Smoother.push cfg) s) ∧
      (calls.foldl (Smoother.push cfg) s).walk = s.walk := by
  induction calls generalizing s with
  | nil => exact ⟨h,rfl⟩
  | cons c calls ih => exact ih (h.push cfg c)

theorem visited_cases (m : TaskMap) (k : ℤ) :
    (m.queue k = [] ∧ visited m k = m.erase k) ∨ (m.queue k ≠ [] ∧ visited m k = m) := by
  unfold visited
  split_ifs with h
  · exact .inl ⟨h,rfl⟩
  · exact .inr ⟨h,rfl⟩

theorem queued_visited {k : ℤ} (hk : k∈m.conns) : (visited m k).queued = m.queued := by
  rcases visited_cases m k with ⟨hq,heq⟩ | ⟨-,heq⟩
  · rw [heq,queued_erase hk hq]
  · rw [heq]

theorem queue_visited (m : TaskMap) (k : ℤ) : (visited m k).queue = m.queue := by
  rcases visited_cases m k with ⟨hq,heq⟩ | ⟨-,heq⟩
  · rw [heq]
    simp only [TaskMap.erase,← hq,update_eq_self]
  · rw [heq]

theorem Visiting.visited_ne_nil (h : Visiting m w) {j : ℤ}
    (hj : j ∈ (visited m w.itr.conn).conns) : m.queue j ≠ [] := by
  intro hq
  rcases visited_cases m w.itr.conn with ⟨-,heq⟩ | ⟨hne,heq⟩
  · rw [heq] at hj
    obtain ⟨hne,hj⟩ := mem_erase.mp hj
    exact hne (h.others j hj hq)
  · rw [heq] at hj
    exact hne (h.others j hj hq ▸ hq)

theorem Visiting.marks_subset (h : Visiting m w) (canSend : Bool) :
    marks m w canSend ⊆ (visited m w.itr.conn).conns := by
  intro j hj
  have hmarked : j∈w.stopmark → j ∈ (visited m w.itr.conn).conns := by
    intro hj
    rcases visited_cases m w.itr.conn with ⟨hq,heq⟩ | ⟨-,heq⟩
    · rw [heq]
      refine mem_erase.mpr ⟨?_,h.marked hj⟩
      rintro rfl
      exact h.waiting _ hj hq
    · rw [heq]
      exact h.marked hj
  unfold marks at hj
  split_ifs at hj with hc
  · exact hmarked hj
  · rcases mem_insert.mp hj with rfl | hj
    · rw [((visited_cases m w.itr.conn).resolve_left fun he => hc (.inl he.1)).2]
      exact h.current.1
    · exact hmarked hj

theorem current_around {k : ℤ} {p : TaskPosition}
    (hp : (around m.conns k).map m.position = some p) : m.Current p := by
  obtain ⟨j,hj,rfl⟩ := Option.map_eq_some_iff.mp hp
  exact ⟨mem_of_around hj,rfl⟩

variable {w w' : TimerWalk}

theorem endVisit_walk {canSend : Bool}
    (h : (s.endVisit w canSend).walk = some w') :
    ∃ j, around (visited s.sendHandlerList w.itr.conn).conns w.itr.conn = some j ∧
      (marks s.sendHandlerList w canSend).card < (visited s.sendHandlerList w.itr.conn).conns.card ∧
      w' = { w with
        stopmark := marks s.sendHandlerList w canSend
        itr := (visited s.sendHandlerList w.itr.conn).position j } := by
  obtain ⟨hend,h⟩ := (Option.ite_none_left_eq_some).mp h
  obtain ⟨p,hp,rfl⟩ := Option.map_eq_some_iff.mp h
  obtain ⟨j,hj,rfl⟩ := Option.map_eq_some_iff.mp hp
  exact ⟨j,hj,not_le.mp (not_or.mp hend).2,rfl⟩

theorem Books.endVisit (h : Books s) (hw : w.itr.conn∈s.sendHandlerList.conns) (canSend : Bool) :
    Books (s.endVisit w canSend) where
  numbered := h.numbered
  ordered k := by
    have := h.ordered k
    rw [← queue_visited s.sendHandlerList w.itr.conn] at this
    exact this
  size_eq := h.size_eq.trans (congrArg Nat.cast (queued_visited hw).symm)
  counted := by
    have := h.counted
    rw [← queued_visited hw] at this
    exact this

theorem Visiting.endVisit (hb : Books s)
    (hv : Visiting s.sendHandlerList w) (canSend : Bool) : Valid (s.endVisit w canSend) where
  toBooks := hb.endVisit hv.current.1 canSend
  last p hp := current_around (Option.some.inj hp)
  idle _ k hk := by
    have hne := hv.visited_ne_nil hk
    rw [← queue_visited s.sendHandlerList w.itr.conn] at hne
    exact hne
  visiting w' hw' := by
    obtain ⟨j,hj,hcard,rfl⟩ := endVisit_walk hw'
    refine ⟨⟨mem_of_around hj,rfl⟩,hv.marks_subset canSend,hcard,fun k hk => ?_,
      fun k hk hq => ?_⟩
    · have hne := hv.visited_ne_nil (hv.marks_subset canSend hk)
      rw [← queue_visited s.sendHandlerList w.itr.conn] at hne
      exact hne
    · have hne := hv.visited_ne_nil hk
      rw [← queue_visited s.sendHandlerList w.itr.conn] at hne
      exact absurd hq hne

/-- The cases of a turn: a visit ends with nothing sent, because the queue is empty, its
connection marked or not allowed to send, or the first element is sent and the visit ends or goes
on. -/
inductive TurnCase (cfg : SmootherConfig) (calls : List PushCall) (s : Smoother) (w : TimerWalk) :
    Smoother → Prop where
  | spent (h : s.sendHandlerList.queue w.itr.conn = []) : TurnCase cfg calls s w (s.endVisit w true)
  | passed (h : w.itr.conn∈w.stopmark) : TurnCase cfg calls s w (s.endVisit w true)
  | held (h : w.itr.conn ∉ w.stopmark) (hq : s.sendHandlerList.queue w.itr.conn ≠ []) :
      TurnCase cfg calls s w (s.endVisit w false)
  | sent (e : SmoothElement) (q : List SmoothElement) (sendLen : ℤ) (canSend : Bool)
      (h : w.itr.conn ∉ w.stopmark) (hq : s.sendHandlerList.queue w.itr.conn = e :: q) :
      TurnCase cfg calls s w ((calls.foldl (push cfg) (s.sent w.itr.conn e)).endVisit
        { w with sendLen := sendLen } canSend)
  | goesOn (e : SmoothElement) (q : List SmoothElement) (sendLen : ℤ)
      (h : w.itr.conn ∉ w.stopmark) (hq : s.sendHandlerList.queue w.itr.conn = e :: q) :
      TurnCase cfg calls s w { calls.foldl (push cfg) (s.sent w.itr.conn e) with
        walk := some { w with sendLen := sendLen } }

theorem turn_cases (d : SpeedTests) (calls : List PushCall) (s : Smoother)
    (w : TimerWalk) : TurnCase cfg calls s w (s.turn cfg d calls w) := by
  unfold turn
  cases hq : s.sendHandlerList.queue w.itr.conn with
  | nil => exact .spent hq
  | cons e q =>
    have hne : s.sendHandlerList.queue w.itr.conn ≠ [] := by simp [hq]
    dsimp only
    rw [invoke_eq cfg calls s w.itr.conn e hne]
    by_cases hm : w.itr.conn∈w.stopmark
    · rw [if_pos hm]
      exact .passed hm
    split_ifs
    · exact .held hm hne
    · exact .sent e q _ false hm hq
    · exact .sent e q _ true hm hq
    · exact .goesOn e q _ hm hq
    · exact .held hm hne

theorem Valid.turn (h : Valid s) (hw : s.walk = some w)
    (cfg : SmootherConfig) (d : SpeedTests) (calls : List PushCall) : Valid (s.turn cfg d calls w) := by
  have hv := h.visiting w hw
  -- The state once the handler has returned, with any length sent so far.
  have hsent : ∀ e q (sendLen : ℤ), w.itr.conn ∉ w.stopmark →
      s.sendHandlerList.queue w.itr.conn = e :: q →
      Valid (calls.foldl (Smoother.push cfg) (s.sent w.itr.conn e)) ∧
        Visiting (calls.foldl (Smoother.push cfg) (s.sent w.itr.conn e)).sendHandlerList
          { w with sendLen := sendLen } := by
    intro e q sendLen hm hq
    obtain ⟨hvalid,hwalk⟩ := (h.sent hw hm hq).foldl_push cfg calls
    have hv' := hvalid.visiting w (hwalk.trans hw)
    exact ⟨hvalid,hv'.current,hv'.marked,hv'.unmarked,hv'.waiting,hv'.others⟩
  generalize hs : s.turn cfg d calls w = s'
  cases hs ▸ turn_cases cfg d calls s w with
  | spent hq => exact hv.endVisit h.toBooks true
  | passed hm => exact hv.endVisit h.toBooks true
  | held hm hq => exact hv.endVisit h.toBooks false
  | sent e q sendLen canSend hm hq =>
    obtain ⟨hvalid,hv'⟩ := hsent e q sendLen hm hq
    exact hv'.endVisit hvalid.toBooks canSend
  | goesOn e q sendLen hm hq =>
    obtain ⟨hvalid,hv'⟩ := hsent e q sendLen hm hq
    refine ⟨⟨hvalid.numbered,hvalid.ordered,hvalid.size_eq,hvalid.counted⟩,hvalid.last,
      fun hnone => absurd hnone (Option.some_ne_none _),fun v hv => ?_⟩
    obtain rfl := Option.some.inj hv
    exact hv'

theorem Valid.reset (h : Valid s) (hw : s.walk=none) : Valid s.reset where
  numbered := h.numbered
  ordered k := by
    refine List.Sublist.trans ?_ (h.ordered k)
    simp [Smoother.reset,clear,empty]
  size_eq := by simp [Smoother.reset,clear,empty,queued]
  counted := by
    have := h.counted
    simp only [Smoother.reset,clear,empty,queued,
      sum_empty] at this ⊢
    omega
  last _ hp := nomatch hp
  idle _ k hk := by simp [Smoother.reset,clear,empty] at hk
  visiting w hsome := absurd (hw.symm.trans hsome) (Option.some_ne_none w).symm

theorem Valid.startPosition (h : Valid s) {p : TaskPosition}
    (hp : s.startPosition = some p) : s.sendHandlerList.Current p := by
  rcases Option.or_eq_some_iff.mp hp with hl | ⟨-,hfirst⟩
  · exact h.last p (Option.join_eq_some_iff.mp hl)
  · obtain ⟨k,hk,rfl⟩ := Option.map_eq_some_iff.mp hfirst
    exact ⟨mem_of_first hk,rfl⟩

theorem Valid.startTimer (h : Valid s) (hw : s.walk=none) (cfg : SmootherConfig)
    (now maxSendLen : ℤ) : Valid (s.startTimer cfg now maxSendLen) := by
  unfold Smoother.startTimer
  split
  · exact h
  rename_i f _
  by_cases hearly : now<f+cfg.startTimeDelay
  · rw [if_pos hearly]
    exact h
  rw [if_neg hearly]
  refine ⟨⟨h.numbered,h.ordered,h.size_eq,h.counted⟩,h.last,fun _ => h.idle hw,
    fun w hw' => ?_⟩
  obtain ⟨hlist,hw'⟩ := Option.ite_none_left_eq_some.mp hw'
  obtain ⟨p,hp,rfl⟩ := Option.map_eq_some_iff.mp hw'
  exact ⟨h.startPosition hp,empty_subset _,
    card_pos.mpr (nonempty_iff_ne_empty.mpr hlist),
    fun k hk => absurd hk (notMem_empty k),fun k hk hq => absurd hq (h.idle hw k hk)⟩

theorem valid_init : Valid init where
  numbered := rfl
  ordered _ := List.Sublist.refl _
  size_eq := rfl
  counted := rfl
  last _ hp := nomatch hp
  idle _ k hk := absurd hk (notMem_empty k)
  visiting _ hw := nomatch hw

theorem valid_step (s : Smoother) (e : SmootherEvent) (h : Valid s) :
    Valid (s.step cfg e) := by
  unfold step
  split
  · exact h.push cfg _
  · exact h.reset ‹_›
  · exact h.startTimer ‹_› cfg _ _
  · exact h.turn ‹_› cfg _ _
  · exact h

theorem valid_run (es : List SmootherEvent) : Valid (run cfg es) :=
  invariant_of_run Valid (fun s e _ hs => valid_step cfg s e hs)
    (alongRun_of_forall (P := fun _ _ => True) (fun _ _ => trivial) init es) valid_init

theorem Books.nodup_invoked (h : Books s) : (s.invoked.map (·.number)).Nodup := by
  have hnumbers : (s.pushed.map (·.number)).Nodup := h.numbered ▸ nodup_range
  have hsub : ∀ k, (ofConn k s.invoked).Sublist (ofConn k s.pushed) := fun k =>
    (sublist_append_left _ _).trans (h.ordered k)
  have hmem : ∀ e∈s.invoked, e∈s.pushed := fun e he =>
    mem_of_mem_filter ((hsub e.conn).subset (mem_filter.mpr ⟨he,by simp⟩))
  have hnodup : s.invoked.Nodup := by
    refine nodup_iff_count_le_one.mpr fun e => ?_
    calc s.invoked.count e = (ofConn e.conn s.invoked).count e :=
          (count_filter (by simp)).symm
      _ ≤ (ofConn e.conn s.pushed).count e := (hsub e.conn).count_le e
      _ = s.pushed.count e := count_filter (by simp)
      _ ≤ 1 := nodup_iff_count_le_one.mp hnumbers.of_map e
  exact hnodup.map_on fun a ha b hb hab =>
    inj_on_of_nodup_map hnumbers (hmem a ha) (hmem b hb) hab

/-! Termination: a turn that sends takes an element out of the queues, one that does not marks or
erases a connection, and one that passes a marked connection comes nearer to an unmarked one. -/

def unmarked (m : TaskMap) (w : TimerWalk) : Finset ℤ := m.conns \ w.stopmark

def remaining (m : TaskMap) (w : TimerWalk) : ℕ ×ₗ ℕ ×ₗ ℕ :=
  toLex (m.queued, toLex ((unmarked m w).card, distance m.conns (unmarked m w) w.itr.conn))

theorem remaining_lt_of_queued {m m' : TaskMap} (h : m'.queued < m.queued) :
    remaining m' w' < remaining m w :=
  Prod.Lex.toLex_lt_toLex.mpr (.inl h)

theorem remaining_lt_of_unmarked {m m' : TaskMap} (hq : m'.queued=m.queued)
    (h : unmarked m' w' ⊂ unmarked m w) : remaining m' w' < remaining m w :=
  Prod.Lex.toLex_lt_toLex.mpr
    (.inr ⟨hq,Prod.Lex.toLex_lt_toLex.mpr (.inl (card_lt_card h))⟩)

theorem remaining_lt_of_distance (hu : unmarked m w' = unmarked m w)
    (h : distance m.conns (unmarked m w) w'.itr.conn <
      distance m.conns (unmarked m w) w.itr.conn) : remaining m w' < remaining m w := by
  refine Prod.Lex.toLex_lt_toLex.mpr (.inr ⟨rfl,Prod.Lex.toLex_lt_toLex.mpr (.inr ?_)⟩)
  dsimp only
  rw [hu]
  exact ⟨rfl,h⟩

theorem Visiting.remaining_passed (h : Visiting s.sendHandlerList w) (hm : w.itr.conn∈w.stopmark)
    (hw' : (s.endVisit w true).walk = some w') :
    remaining (s.endVisit w true).sendHandlerList w' < remaining s.sendHandlerList w := by
  have hsame : visited s.sendHandlerList w.itr.conn = s.sendHandlerList :=
    if_neg (h.waiting _ hm)
  obtain ⟨j,hj,-,rfl⟩ := endVisit_walk hw'
  rw [hsame] at hj
  change remaining (visited s.sendHandlerList w.itr.conn) _ < _
  rw [hsame]
  have hmarks : marks s.sendHandlerList w true = w.stopmark := if_pos (.inr rfl)
  refine remaining_lt_of_distance (congrArg (s.sendHandlerList.conns \ ·) hmarks)
    (distance_around_lt sdiff_subset ?_ h.current.1 ?_ hj)
  · -- There are fewer marks than connections.
    obtain ⟨k,hk,hkm⟩ := exists_mem_notMem_of_card_lt_card h.unmarked
    exact ⟨k,mem_sdiff.mpr ⟨hk,hkm⟩⟩
  · exact fun hu => (mem_sdiff.mp hu).2 hm

theorem Visiting.remaining_endVisit {canSend : Bool}
    (h : Visiting s.sendHandlerList w) (hm : w.itr.conn ∉ w.stopmark)
    (hstop : s.sendHandlerList.queue w.itr.conn = [] ∨ canSend=false)
    (hw' : (s.endVisit w canSend).walk = some w') :
    remaining (s.endVisit w canSend).sendHandlerList w' < remaining s.sendHandlerList w := by
  obtain ⟨j,-,-,rfl⟩ := endVisit_walk hw'
  refine remaining_lt_of_unmarked (queued_visited h.current.1) ?_
  change (visited s.sendHandlerList w.itr.conn).conns \ marks s.sendHandlerList w canSend ⊂
    s.sendHandlerList.conns \ w.stopmark
  have hmem : w.itr.conn ∈ s.sendHandlerList.conns \ w.stopmark :=
    mem_sdiff.mpr ⟨h.current.1,hm⟩
  have herase : (visited s.sendHandlerList w.itr.conn).conns \ marks s.sendHandlerList w canSend =
      (s.sendHandlerList.conns \ w.stopmark).erase w.itr.conn := by
    rcases visited_cases s.sendHandlerList w.itr.conn with ⟨hq,heq⟩ | ⟨hq,heq⟩
    · rw [heq,show marks s.sendHandlerList w canSend = w.stopmark from if_pos (.inl hq)]
      exact erase_sdiff_comm ..
    · have hfalse := hstop.resolve_left hq
      have hmarks : marks s.sendHandlerList w canSend = insert w.itr.conn w.stopmark :=
        if_neg (by simp [hq,hfalse])
      rw [heq,hmarks,sdiff_insert]
  rw [herase]
  exact erase_ssubset hmem

theorem Valid.remaining_turn (h : Valid s) (hw : s.walk = some w) (cfg : SmootherConfig) (d : SpeedTests)
    (hw' : (s.turn cfg d [] w).walk = some w') :
    remaining (s.turn cfg d [] w).sendHandlerList w' < remaining s.sendHandlerList w := by
  have hv := h.visiting w hw
  generalize hs : s.turn cfg d [] w = s' at hw' ⊢
  cases hs ▸ turn_cases cfg d [] s w with
  | spent hq => exact hv.remaining_endVisit (fun hm => hv.waiting _ hm hq) (.inl hq) hw'
  | passed hm => exact hv.remaining_passed hm hw'
  | held hm hq => exact hv.remaining_endVisit hm (.inr rfl) hw'
  | sent e q sendLen canSend hm hq =>
    have hpop := queued_popFront hv.current.1 hq
    have hvisited : ((s.sent w.itr.conn e).endVisit { w with sendLen := sendLen }
        canSend).sendHandlerList.queued = (s.sendHandlerList.popFront w.itr.conn).queued :=
      queued_visited hv.current.1
    refine remaining_lt_of_queued (lt_of_eq_of_lt hvisited ?_)
    omega
  | goesOn e q sendLen hm hq =>
    have hpop := queued_popFront hv.current.1 hq
    refine remaining_lt_of_queued (lt_of_eq_of_lt rfl ?_)
    change (s.sendHandlerList.popFront w.itr.conn).queued < s.sendHandlerList.queued
    omega

theorem Valid.exists_quietTurns (h : Valid s) (cfg : SmootherConfig)
    (d : ℕ → SpeedTests) : ∃ n, (quietTurns cfg n d s).walk = none := by
  cases hw : s.walk with
  | none => exact ⟨0,hw⟩
  | some w =>
    -- Induction on what remains, for every state and every sequence of tests.
    induction hr : remaining s.sendHandlerList w using WellFoundedLT.induction
      generalizing s w d with
    | _ r ih =>
      have hstep : s.step cfg (.turn (d 0) []) = s.turn cfg (d 0) [] w := by
        simp only [step,hw]
      have hvalid := h.turn hw cfg (d 0) []
      cases hw' : (s.turn cfg (d 0) [] w).walk with
      | none => exact ⟨1,(congrArg walk hstep).trans hw'⟩
      | some w' =>
        obtain ⟨n,hn⟩ := ih _ (hr ▸ h.remaining_turn hw cfg (d 0) hw') hvalid (d <| · + 1) w' hw' rfl
        refine ⟨n+1,?_⟩
        rw [quietTurns,hstep]
        exact hn

/-- Sending is first in, first out for each connection and happens once. In every run, no element
is invoked twice; what is invoked of a connection, followed by what waits, is what was pushed on
it in that order, and only `reset` loses any; `size_` counts what waits; no empty queue remains
after a tick; `last_iterator_` is the end or stands on an entry of the list; and a tick whose
handlers push nothing returns. -/
theorem smoothed_in_order_once (cfg : SmootherConfig) (es : List SmootherEvent) :
    let s := run cfg es
    s.pushed.map (·.number) = List.range s.pushed.length ∧
    (s.invoked.map (·.number)).Nodup ∧
    (∀ k, (ofConn k s.invoked ++ s.sendHandlerList.queue k).Sublist (ofConn k s.pushed)) ∧
    s.pushed.length = s.invoked.length + s.sendHandlerList.queued + s.dropped ∧
    s.size=s.sendHandlerList.queued ∧
    (s.walk=none → ∀ k∈s.sendHandlerList.conns, s.sendHandlerList.queue k ≠ []) ∧
    (∀ p, s.lastIterator = some (some p) → s.sendHandlerList.Current p) ∧
    ∀ d, ∃ n, (quietTurns cfg n d s).walk = none := by
  have h := valid_run cfg es
  exact ⟨h.numbered,h.nodup_invoked,h.ordered,h.counted,h.size_eq,h.idle,h.last,
    h.exists_quietTurns cfg⟩

end P2Streaming.Smoother
