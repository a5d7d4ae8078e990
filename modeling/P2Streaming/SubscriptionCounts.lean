import P2Streaming.SubstreamSubscriptions

/-!
# Counts of subscriptions

Every neighbor has a count of the substreams it is subscribed to, by which the scheduling chooses
whom to subscribe to next. `subscribe` and `unsubscribe` change it without looking at what has been
subscribed, and the constructor of `neighbor_info` does not set it. The `neighbor_info` of a peer
lives as long as a connection object holds it. Beside the scheduling the model keeps what is
subscribed to each peer according to the calls.
-/
namespace P2Streaming
open TransitionRuns Function

/-- The scheduling, the connections, the connections that hold the `neighbor_info` of a peer, and
the substreams a peer has been subscribed to and not been unsubscribed from since. A peer is stale
once a subscribed substream has been unsubscribed through a connection that was lost. -/
structure CountedSubscriptions (Conn Peer : Type*) where
  scheduling : Subscriptions Conn Peer
  status : Conn → LinkStatus
  holdSockets : Peer → Finset Conn
  subscribed : Peer → Finset (Fin substreamCnt)
  stale : Peer → Bool

inductive CountedCall (Conn Peer : Type*) where
  | subscribe (conn : Conn) (i : Fin substreamCnt)
  | unsubscribe (conn : Option Conn) (i : Fin substreamCnt)
  | unsubscribeSlot (i : Fin substreamCnt)
  | onUnsubscripTimer
  | lose (conn : Conn)
  | beNeighbor (p : Peer) (conn : Conn) (uninitialised : ℤ)
  | beMember (p : Peer) (conn : Conn)

structure CountedEvent (Conn Peer : Type*) where
  now : BitVec 32
  getPeer : Conn → Option Peer
  seed : Option Conn
  call : CountedCall Conn Peer

namespace CountedSubscriptions

variable {Conn Peer : Type*} [DecidableEq Conn] [DecidableEq Peer]

variable (w : CountedSubscriptions Conn Peer) (e : CountedEvent Conn Peer)

def env : SchedulingEnv Conn Peer :=
  ⟨e.now,w.status,e.getPeer,e.seed⟩

/-- The `neighbor_info` that the constructor makes; the count is what the memory held. -/
def newNeighborInfo (s : Subscriptions Conn Peer) (p : Peer) (now : BitVec 32) (uninitialised : ℤ) :
    Subscriptions Conn Peer :=
  { s with
    lastUnsubscriptionTime := update s.lastUnsubscriptionTime p fun _ => now - 10 * 1000
    subscriptionCount := update s.subscriptionCount p uninitialised }

def subscribe (conn : Conn)
    (i : Fin substreamCnt) : CountedSubscriptions Conn Peer :=
  { w with
    scheduling := w.scheduling.subscribe (w.env e) conn i
    subscribed := fun p =>
      if e.getPeer conn = some p then insert i (w.subscribed p) else w.subscribed p }

/-- `unsubscribe` for a connection of the peer does not return at once: it is not the connection of
the seed, and a second has passed since the peer was unsubscribed from the substream before. -/
def letThrough (conn : Conn) (p : Peer)
    (i : Fin substreamCnt) : Bool :=
  e.getPeer conn = some p && e.seed ≠ some conn &&
    isTimePassed 1000 (w.scheduling.lastUnsubscriptionTime p i) e.now

def unsubscribe (conn : Option Conn)
    (i : Fin substreamCnt) : CountedSubscriptions Conn Peer :=
  { w with
    scheduling := w.scheduling.unsubscribe (w.env e) conn i
    subscribed := fun p =>
      if conn.any (w.letThrough e · p i) then (w.subscribed p).erase i else w.subscribed p
    stale := fun p =>
      w.stale p || conn.any fun c =>
        w.letThrough e c p i && w.status c ≠ .connected && decide (i ∈ w.subscribed p) }

/-- The turn of `unsubscription` for a substream. -/
def unsubscribeSlot (i : Fin substreamCnt) :
    CountedSubscriptions Conn Peer :=
  match w.scheduling.lock (w.env e) i with
  | none => w
  | some conn =>
      if w.status conn = .connected then w.unsubscribe e (some conn) i
      else { w with scheduling := w.scheduling.setSlot i none }

def step : CountedSubscriptions Conn Peer :=
  match e.call with
  | .subscribe conn i => w.subscribe e conn i
  | .unsubscribe conn i => w.unsubscribe e conn i
  | .unsubscribeSlot i => w.unsubscribeSlot e i
  | .onUnsubscripTimer => { w with scheduling := w.scheduling.onUnsubscripTimer (w.env e) }
  | .lose conn => { w with status := update w.status conn .disconnected }
  | .beNeighbor p conn uninitialised =>
      if w.holdSockets p = ∅ then
        { w with
          scheduling := newNeighborInfo w.scheduling p e.now uninitialised
          holdSockets := update w.holdSockets p {conn}
          subscribed := update w.subscribed p ∅
          stale := update w.stale p false }
      else { w with holdSockets := update w.holdSockets p (insert conn (w.holdSockets p)) }
  | .beMember p conn =>
      { w with
        status := update w.status conn .destroyed
        holdSockets := update w.holdSockets p ((w.holdSockets p).erase conn) }

def Linked (p : Peer) : Prop :=
  ∃ conn ∈ w.holdSockets p, w.status conn = .connected

/-- The count of every connected peer is the number of its substreams. -/
def CountsExact : Prop :=
  ∀ p, w.Linked p → w.scheduling.subscriptionCount p = (w.subscribed p).card

/-- What `unsubscribe` needs to be let through for: through a connected connection the peer is
subscribed to the substream; through a lost one it is not, or the peer has no other connection. -/
def MayUnsubscribe (conn : Conn)
    (i : Fin substreamCnt) : Prop :=
  ∀ p, (w.holdSockets p).Nonempty → w.letThrough e conn p i = true →
    if w.status conn = .connected then i ∈ w.subscribed p else i ∈ w.subscribed p → ¬ w.Linked p

def Careful : Prop :=
  match e.call with
  | .subscribe conn i => ∀ p, e.getPeer conn = some p → (w.holdSockets p).Nonempty → i ∉ w.subscribed p
  | .unsubscribe conn i => ∀ c, conn = some c → w.MayUnsubscribe e c i
  | .unsubscribeSlot i => ∀ c, w.scheduling.lock (w.env e) i = some c → w.status c = .connected →
      w.MayUnsubscribe e c i
  | .beNeighbor p _ uninitialised => if w.holdSockets p = ∅ then uninitialised = 0 else w.stale p = false
  | _ => True

variable {w} {e}

omit [DecidableEq Conn] in
theorem subscriptionCount_subscribe (conn : Conn) (i : Fin substreamCnt) (p : Peer) :
    (w.scheduling.subscribe (w.env e) conn i).subscriptionCount p =
      if e.getPeer conn = some p then w.scheduling.subscriptionCount p + 1
      else w.scheduling.subscriptionCount p := by
  unfold Subscriptions.subscribe env
  dsimp only
  cases e.getPeer conn with
  | none => simp
  | some q =>
    simp only [Subscriptions.addCount,Subscriptions.setSlot,update_apply,Option.some.injEq]
    by_cases h : p=q
    · simp [h]
    · simp [h,Ne.symm h]

variable {i : Fin substreamCnt} {conn : Conn} {p : Peer}

theorem letThrough_iff : w.letThrough e conn p i = true ↔ e.getPeer conn = some p ∧ e.seed ≠ some conn ∧
      isTimePassed 1000 (w.scheduling.lastUnsubscriptionTime p i) e.now = true := by
  simp only [letThrough,Bool.and_eq_true,decide_eq_true_eq,and_assoc]

theorem subscriptionCount_deferUnsubscribe (s : Subscriptions Conn Peer) (env : SchedulingEnv Conn Peer)
    (conn : Conn) (p : Peer) (i : Fin substreamCnt) :
    (s.deferUnsubscribe env conn p i).subscriptionCount =
      update s.subscriptionCount p (s.subscriptionCount p - 1) := by
  unfold Subscriptions.deferUnsubscribe
  dsimp only
  split_ifs <;> rfl

theorem subscriptionCount_of_letThrough
    (h : w.letThrough e conn p i = true) (hconn : w.status conn = .connected) :
    (w.scheduling.unsubscribe (w.env e) (some conn) i).subscriptionCount p =
      w.scheduling.subscriptionCount p - 1 := by
  obtain ⟨hpeer,hseed,htime⟩ := letThrough_iff.mp h
  unfold Subscriptions.unsubscribe env
  dsimp only
  rw [if_neg hseed,hpeer]
  dsimp only
  rw [if_neg (not_not.mpr htime),if_pos hconn,subscriptionCount_deferUnsubscribe,update_self]

theorem subscriptionCount_of_not_letThrough
    (h : w.letThrough e conn p i = true → w.status conn ≠ .connected) :
    (w.scheduling.unsubscribe (w.env e) (some conn) i).subscriptionCount p =
      w.scheduling.subscriptionCount p := by
  rw [letThrough_iff] at h
  unfold Subscriptions.unsubscribe env
  dsimp only
  by_cases hseed : e.seed = some conn
  · rw [if_pos hseed]
  rw [if_neg hseed]
  cases hpeer : e.getPeer conn with
  | none => rfl
  | some q =>
    dsimp only
    split_ifs with htime hconn
    · by_cases hq : p=q
      · subst hq
        exact absurd hconn (h ⟨hpeer,hseed,htime⟩)
      · rw [subscriptionCount_deferUnsubscribe,update_of_ne hq]
    · rfl
    · rfl
    · rfl

theorem subscriptionCount_unsubscribe (conn : Conn) (i : Fin substreamCnt) (p : Peer) :
    (w.scheduling.unsubscribe (w.env e) (some conn) i).subscriptionCount p =
      if w.letThrough e conn p i = true ∧ w.status conn = .connected then
        w.scheduling.subscriptionCount p - 1
      else w.scheduling.subscriptionCount p := by
  split_ifs with h
  · exact subscriptionCount_of_letThrough h.1 h.2
  · exact subscriptionCount_of_not_letThrough fun ht hc => h ⟨ht,hc⟩

/-- Unless a peer is stale its count is exact, and a stale peer is not connected. -/
def CountsKept (w : CountedSubscriptions Conn Peer) : Prop :=
  ∀ p, (w.holdSockets p).Nonempty → (w.stale p = true → ¬ w.Linked p) ∧
    (w.stale p = false → w.scheduling.subscriptionCount p = (w.subscribed p).card)

omit [DecidableEq Conn] [DecidableEq Peer] in
theorem CountsKept.countsExact (h : w.CountsKept) : w.CountsExact := by
  intro p hlinked
  have hlinked' := hlinked
  obtain ⟨conn,hconn,-⟩ := hlinked
  obtain ⟨hstale,hexact⟩ := h p ⟨conn,hconn⟩
  apply hexact
  rw [← Bool.not_eq_true]
  exact fun hs => hstale hs hlinked'

omit [DecidableEq Conn] [DecidableEq Peer] in
theorem CountsKept.of_linked {w' : CountedSubscriptions Conn Peer} (h : w.CountsKept)
    (hcount : w'.scheduling.subscriptionCount=w.scheduling.subscriptionCount)
    (hsub : w'.subscribed=w.subscribed) (hstale : w'.stale=w.stale)
    (hhold : ∀ p, w'.holdSockets p ⊆ w.holdSockets p)
    (hlinked : ∀ p, w'.Linked p → w.Linked p) : w'.CountsKept := by
  intro p hp
  obtain ⟨hnot,hexact⟩ := h p (hp.mono (hhold p))
  rw [hcount,hsub,hstale]
  exact ⟨fun hs => mt (hlinked p) (hnot hs),hexact⟩

omit [DecidableEq Conn] in
theorem CountsKept.subscribe (h : w.CountsKept)
    (hcareful : ∀ p, e.getPeer conn = some p → (w.holdSockets p).Nonempty → i ∉ w.subscribed p) :
    (w.subscribe e conn i).CountsKept := by
  intro p hp
  obtain ⟨hnot,hexact⟩ := h p hp
  refine ⟨hnot,fun hstale => ?_⟩
  change (w.scheduling.subscribe (w.env e) conn i).subscriptionCount p =
    (if e.getPeer conn = some p then insert i (w.subscribed p) else w.subscribed p).card
  rw [subscriptionCount_subscribe]
  split_ifs with hpeer
  · rw [hexact hstale,Finset.card_insert_of_notMem (hcareful p hpeer hp)]
    push_cast
    rfl
  · exact hexact hstale

theorem CountsKept.unsubscribe (h : w.CountsKept)
    (hmay : w.MayUnsubscribe e conn i) : (w.unsubscribe e (some conn) i).CountsKept := by
  intro p hp
  obtain ⟨hnot,hexact⟩ := h p hp
  change ((w.stale p || (w.letThrough e conn p i && w.status conn ≠ .connected &&
    decide (i ∈ w.subscribed p)))
      = true → ¬ w.Linked p) ∧
    ((w.stale p || (w.letThrough e conn p i && w.status conn ≠ .connected && decide (i ∈ w.subscribed p)))
      = false → (w.scheduling.unsubscribe (w.env e) (some conn) i).subscriptionCount p =
        (if w.letThrough e conn p i = true then (w.subscribed p).erase i else w.subscribed p).card)
  rw [subscriptionCount_unsubscribe]
  by_cases hthrough : w.letThrough e conn p i = true
  swap
  · simpa [hthrough] using ⟨hnot,hexact⟩
  have hmay := hmay p hp hthrough
  rw [hthrough,if_pos rfl]
  by_cases hconn : w.status conn = .connected
  · rw [if_pos hconn] at hmay
    rw [if_pos ⟨rfl,hconn⟩]
    have hcard := Finset.card_erase_add_one hmay
    simp only [hconn,ne_eq,not_true_eq_false,decide_false,Bool.and_false,Bool.false_and,Bool.or_false]
    refine ⟨hnot,fun hstale => ?_⟩
    rw [hexact hstale]
    omega
  · rw [if_neg hconn] at hmay
    simp only [hconn,ne_eq,not_false_eq_true,decide_true,Bool.and_true,Bool.true_and,Bool.or_eq_true,
      decide_eq_true_eq,Bool.or_eq_false_iff,decide_eq_false_iff_not]
    constructor
    · rintro (hstale | hmem)
      · exact hnot hstale
      · exact hmay hmem
    · rintro ⟨hstale,hmem⟩
      rw [Finset.erase_eq_of_notMem hmem]
      exact hexact hstale

theorem CountsKept.unsubscribeSlot (h : w.CountsKept)
    (hmay : ∀ c, w.scheduling.lock (w.env e) i = some c → w.status c = .connected →
      w.MayUnsubscribe e c i) :
    (w.unsubscribeSlot e i).CountsKept := by
  unfold CountedSubscriptions.unsubscribeSlot
  cases hlock : w.scheduling.lock (w.env e) i with
  | none => exact h
  | some conn =>
    dsimp only
    split_ifs with hconn
    · exact h.unsubscribe (hmay conn hlock hconn)
    · exact h.of_linked rfl rfl rfl (fun _ => Finset.Subset.refl _) fun _ hl => hl

theorem linked_of_down {status : Conn → LinkStatus} {holdSockets : Finset Conn} {down : LinkStatus}
    (hdown : down ≠ .connected) (h : ∃ c∈holdSockets, update status conn down c = .connected) :
    ∃ c∈holdSockets, status c = .connected := by
  obtain ⟨c,hc,hstatus⟩ := h
  refine ⟨c,hc,?_⟩
  rw [update_apply] at hstatus
  split_ifs at hstatus
  · exact absurd hstatus hdown
  · exact hstatus

omit [DecidableEq Conn] in
theorem CountsKept.newNeighbor (h : w.CountsKept) (p : Peer) (conn : Conn) (now : BitVec 32) :
    CountsKept { w with
      scheduling := newNeighborInfo w.scheduling p now 0
      holdSockets := update w.holdSockets p {conn}
      subscribed := update w.subscribed p ∅
      stale := update w.stale p false } := by
  intro q hq
  dsimp only [newNeighborInfo,Linked] at hq ⊢
  by_cases hpq : q=p
  · subst hpq
    simp
  · simp only [update_of_ne hpq] at hq ⊢
    exact h q hq

theorem CountsKept.addSocket (h : w.CountsKept) (conn : Conn) (hne : w.holdSockets p ≠ ∅)
    (hstale : w.stale p = false) :
    CountsKept { w with holdSockets := update w.holdSockets p (insert conn (w.holdSockets p)) } := by
  intro q hq
  dsimp only [Linked] at hq ⊢
  by_cases hpq : q=p
  · subst hpq
    refine ⟨fun hs => ?_,(h q (Finset.nonempty_iff_ne_empty.mpr hne)).2⟩
    rw [hstale] at hs
    exact absurd hs (by decide)
  · rw [update_of_ne hpq] at hq ⊢
    exact h q hq

theorem CountsKept.removeSocket (h : w.CountsKept) (p : Peer) (conn : Conn) :
    CountsKept { w with
      status := update w.status conn .destroyed
      holdSockets := update w.holdSockets p ((w.holdSockets p).erase conn) } := by
  have hsub : ∀ q, update w.holdSockets p ((w.holdSockets p).erase conn) q ⊆ w.holdSockets q := by
    intro q
    by_cases hpq : q=p
    · subst hpq
      rw [update_self]
      exact Finset.erase_subset _ _
    · rw [update_of_ne hpq]
  refine h.of_linked rfl rfl rfl hsub fun q hlinked => ?_
  obtain ⟨c,hc,hstatus⟩ := linked_of_down (by decide) hlinked
  exact ⟨c,hsub q hc,hstatus⟩

theorem CountsKept.step (h : w.CountsKept) (hcareful : w.Careful e) : (w.step e).CountsKept := by
  obtain ⟨now,getPeer,seed,call⟩ := e
  cases call with
  | subscribe conn i => exact h.subscribe hcareful
  | unsubscribe conn i =>
    cases conn with
    | none =>
      refine h.of_linked rfl rfl ?_ (fun _ => Finset.Subset.refl _) fun _ hl => hl
      funext p
      exact Bool.or_false _
    | some conn => exact h.unsubscribe (hcareful conn rfl)
  | unsubscribeSlot i => exact h.unsubscribeSlot hcareful
  | onUnsubscripTimer => exact h.of_linked rfl rfl rfl (fun _ => Finset.Subset.refl _) fun _ hl => hl
  | lose conn =>
    exact h.of_linked rfl rfl rfl (fun _ => Finset.Subset.refl _) fun _ hl =>
      linked_of_down (by decide) hl
  | beNeighbor p conn uninitialised =>
    unfold Careful at hcareful
    unfold CountedSubscriptions.step
    dsimp only at hcareful ⊢
    split_ifs at hcareful ⊢ with hempty
    · rw [hcareful]
      exact h.newNeighbor p conn now
    · exact h.addSocket conn hempty hcareful
  | beMember p conn => exact h.removeSocket p conn

/-- Any state of the scheduling before the first peer becomes a neighbor. -/
def start (s : Subscriptions Conn Peer) (status : Conn → LinkStatus) : CountedSubscriptions Conn Peer :=
  ⟨s,status,fun _ => ∅,fun _ => ∅,fun _ => false⟩

omit [DecidableEq Conn] [DecidableEq Peer] in
theorem countsKept_start (s : Subscriptions Conn Peer) (status : Conn → LinkStatus) :
    (start s status).CountsKept := by
  intro p hp
  exact absurd hp Finset.not_nonempty_empty

instance (w : CountedSubscriptions Conn Peer) (p : Peer) : Decidable (w.Linked p) :=
  inferInstanceAs (Decidable (∃ conn ∈ w.holdSockets p, _))

instance [Fintype Peer] (w : CountedSubscriptions Conn Peer) (e : CountedEvent Conn Peer) (conn : Conn)
    (i : Fin substreamCnt) : Decidable (w.MayUnsubscribe e conn i) := by
  unfold MayUnsubscribe
  infer_instance

instance [Fintype Conn] [Fintype Peer] (w : CountedSubscriptions Conn Peer) (e : CountedEvent Conn Peer) :
    Decidable (w.Careful e) := by
  unfold Careful
  cases e.call <;> infer_instance

/-- In a run of careful calls the counts of the connected peers are exact at every point. -/
theorem subscription_counts_exact (s : Subscriptions Conn Peer) (status : Conn → LinkStatus)
    (es : List (CountedEvent Conn Peer)) (h : AlongRun step Careful (start s status) es) (n : ℕ) :
    ((es.take n).foldl step (start s status)).CountsExact := by
  rw [← List.take_append_drop n es,alongRun_append] at h
  have hkept := invariant_of_run CountsKept (fun w e he hw => hw.step he) h.1 (countsKept_start s status)
  exact hkept.countsExact

/-- Connections and peers are the numbers 0 and 1, each connection one of the peer of its number. -/
def twoPeers (calls : List (BitVec 32 × CountedCall (Fin 2) (Fin 2))) :
    List (CountedEvent (Fin 2) (Fin 2)) :=
  calls.map fun c => ⟨c.1,some,none,c.2⟩

def twoConnected : CountedSubscriptions (Fin 2) (Fin 2) :=
  start ⟨fun _ => none,[],fun _ _ => 0,fun _ => 0⟩ fun _ => .connected

/-- A substream changes over from connection 0 to connection 1, and the latter is lost. -/
def changeOverAndLoss : List (CountedEvent (Fin 2) (Fin 2)) :=
  let a : Fin 2 := ⟨0,Nat.zero_lt_two⟩
  let b : Fin 2 := ⟨1,Nat.one_lt_two⟩
  twoPeers [(20000, .beNeighbor a a 0),(20000, .beNeighbor b b 0),(21000, .subscribe a 3),
    (21000, .subscribe a 5),(25000, .unsubscribe (some a) 3),(25000, .subscribe b 3),
    (25700, .onUnsubscripTimer),(30000, .lose b),(30000, .unsubscribe (some b) 3)]

theorem changeOver_counts_exact : (changeOverAndLoss.foldl step twoConnected).CountsExact :=
  subscription_counts_exact _ _ changeOverAndLoss (by decide) 9

/-- The count of a new neighbor is what the memory held, and unsubscribing a peer that pushes
without having been subscribed makes it negative. -/
theorem counts_not_exact : ¬ ((twoPeers [(20000, .beNeighbor 0 0 7)]).foldl step
    twoConnected).CountsExact ∧
      ¬ ((twoPeers [(20000, .beNeighbor 0 0 0),(21000, .unsubscribe (some 0) 3)]).foldl step
        twoConnected).CountsExact := by
  constructor
  · intro h
    exact absurd (h 0 (by decide)) (by decide)
  · intro h
    exact absurd (h 0 (by decide)) (by decide)

end CountedSubscriptions

end P2Streaming
