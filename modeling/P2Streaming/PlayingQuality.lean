import P2Streaming.TextBroadcasts
import Mathlib.Algebra.Order.Field.Basic
import Mathlib.Data.Rat.Cast.Order

/-!
# The playing quality

`stream_monitor` keeps the numbers of the packets pushed to the player in a queue and takes the
quality to be the size of the queue over the width of the window the numbers lie in. The queue
is trimmed at its front only, so this rests on the numbers coming in rising order. The media
loops push them so; a text broadcast is pushed out of order by the text loop, and once more by
the media loop.
-/
namespace P2Streaming
open WrappableInteger BoundedLoops SerialMaps TransitionRuns List

/-- The part of `stream_monitor` that watches the player. A ratio of two small integers is
at most one as a `double` just when it is as a fraction. -/
structure StreamMonitor where
  bigestPushToPlayeSeq : Option (BitVec 32)
  smallestPushToPlayeSeq : Option (BitVec 32)
  pushToPlayerSeq : List (BitVec 32)
  playingQuality : ℚ

namespace StreamMonitor

/-- `MaxSize` in `push_to_player`. -/
def maxSize : ℤ := 256

variable (m : StreamMonitor)

def resetToPlayer : StreamMonitor :=
  { m with bigestPushToPlayeSeq := none, smallestPushToPlayeSeq := none, pushToPlayerSeq := [] }

/-- The bounds of the window once `seq` is pushed. -/
def bigestWith (seq : BitVec 32) : BitVec 32 :=
  if m.bigestPushToPlayeSeq.all fun b => decide (wrappableMinus b seq < 0) then seq
  else m.bigestPushToPlayeSeq.getD seq

def smallestWith (seq : BitVec 32) : BitVec 32 :=
  let smallest := m.smallestPushToPlayeSeq.getD seq
  if maxSize < wrappableMinus (m.bigestWith seq) smallest then m.bigestWith seq - 256 else smallest

def pushToPlayer (seq : BitVec 32) (good : Bool) : StreamMonitor :=
  let bigest := m.bigestWith seq
  let smallest := m.smallestWith seq
  let pushed := if good then m.pushToPlayerSeq ++ [seq] else m.pushToPlayerSeq
  let kept := pushed.dropWhile fun s => decide (wrappableMinus s smallest < 0)
  { bigestPushToPlayeSeq := some bigest
    smallestPushToPlayeSeq := some smallest
    pushToPlayerSeq := kept
    playingQuality :=
      if kept=[] then 0 else kept.length / ((wrappableMinus bigest smallest + 1 : ℤ) : ℚ) }

/-- The queue is no longer than the window, which is no wider than 257, and so the quality is at
most one. -/
def Fair : Prop :=
  (∀ b∈m.bigestPushToPlayeSeq, ∀ s∈m.smallestPushToPlayeSeq,
    (m.pushToPlayerSeq.length : ℤ) ≤ wrappableMinus b s + 1 ∧ wrappableMinus b s + 1 ≤ 257) ∧
    m.playingQuality≤1

theorem wrappableMinus_of_ahead {a b : BitVec 32} (h : ahead b a < 2^31) :
    wrappableMinus a b = ahead b a := by
  unfold wrappableMinus ahead at *
  rw [BitVec.toInt_eq_toNat_of_lt (by omega)]

theorem wrappableMinus_neg_iff {a b : BitVec 32} : wrappableMinus a b < 0 ↔ 2^31 ≤ ahead b a := by
  unfold wrappableMinus ahead
  rw [BitVec.toInt_neg_iff]
  omega

theorem wrappableMinus_neg_iff_ahead_lt {o a b : BitVec 32} (ha : ahead o a < 2^31)
    (hb : ahead o b < 2^31) : wrappableMinus a b < 0 ↔ ahead o a < ahead o b := by
  rw [wrappableMinus_neg_iff]
  unfold ahead at *
  bv_omega

/-- The state behind pushes in rising order: the queue rises from the smallest number to the
bigest, which are 256 apart at most. -/
structure Rising (m : StreamMonitor) (b s : BitVec 32) : Prop where
  bigest : m.bigestPushToPlayeSeq = some b
  smallest : m.smallestPushToPlayeSeq = some s
  width : ahead s b ≤ 256
  window : Window id s (ahead s b + 1) m.pushToPlayerSeq
  quality : m.playingQuality≤1

variable {m}

theorem Rising.fair {b s : BitVec 32} (h : Rising m b s) : Fair m := by
  refine ⟨fun b' hb s' hs => ?_,h.quality⟩
  obtain rfl : b=b' := by simpa [h.bigest] using hb
  obtain rfl : s=s' := by simpa [h.smallest] using hs
  have hlen := h.window.length_le
  have hwidth := h.width
  rw [wrappableMinus_of_ahead (by omega)]
  omega

theorem quality_le_one {q : List (BitVec 32)} {width : ℤ} (h : (q.length : ℤ) ≤ width+1) :
    (if q=[] then 0 else q.length / ((width+1 : ℤ) : ℚ) : ℚ) ≤ 1 := by
  split_ifs with hq
  · exact zero_le_one
  · have hpos : 0<q.length := length_pos_iff.mpr hq
    have hden : (0 : ℚ) < ((width+1 : ℤ) : ℚ) := by exact_mod_cast (by omega : 0<width+1)
    rw [div_le_one hden]
    exact_mod_cast h

theorem rising_pushToPlayer {seq s : BitVec 32}
    (hb : m.bigestWith seq = seq) (hs : m.smallestWith seq = s) (hwidth : ahead s seq ≤ 256)
    {o : BitVec 32} (ho : ahead o s ≤ ahead o seq) (hfar : ahead o seq < 2^31)
    (hw : Window id o (ahead o seq + 1) (m.pushToPlayerSeq ++ [seq])) :
    Rising (m.pushToPlayer seq true) seq s := by
  have hkept : Window id s (ahead s seq + 1)
      ((m.pushToPlayerSeq ++ [seq]).dropWhile fun x => decide (wrappableMinus x s < 0)) := by
    -- Within half the ring the comparison is that of the places above `o`.
    have hbelow : ∀ x ∈ m.pushToPlayerSeq ++ [seq],
        decide (wrappableMinus x s < 0) = true ↔ ahead o (id x) < ahead o s := by
      intro x hx
      have hlt : ahead o x < ahead o seq + 1 := hw.bounded x hx
      rw [decide_eq_true_iff]
      exact wrappableMinus_neg_iff_ahead_lt (by omega) (by omega)
    rw [ahead_of_ahead_le ho]
    have hdrop := hw.dropWhile (by omega) hbelow
    rwa [show ahead o seq + 1 - ahead o s = ahead o seq - ahead o s + 1 by omega] at hdrop
  refine ⟨congrArg some hb,congrArg some hs,hwidth,?_,?_⟩
  · simpa only [pushToPlayer,hs,if_true] using hkept
  · have hlen := hkept.length_le
    simp only [pushToPlayer,hs,hb,if_true]
    refine quality_le_one ?_
    rw [wrappableMinus_of_ahead (by omega)]
    exact_mod_cast hlen

theorem rising_first (m : StreamMonitor) (seq : BitVec 32) :
    Rising (m.resetToPlayer.pushToPlayer seq true) seq seq := by
  have hb : m.resetToPlayer.bigestWith seq = seq := rfl
  have hs : m.resetToPlayer.smallestWith seq = seq := by
    simp [smallestWith,resetToPlayer,bigestWith,wrappableMinus,maxSize]
  refine rising_pushToPlayer hb hs (by simp) (Nat.le_refl (ahead seq seq)) (by simp) ?_
  exact ⟨pairwise_singleton _ _,by simp [resetToPlayer]⟩

theorem Rising.push {b s seq : BitVec 32} (h : Rising m b s)
    (hless : 0 < ahead b seq) (hfar : ahead b seq + 256 < 2^31) :
    ∃ s', Rising (m.pushToPlayer seq true) seq s' := by
  have hwidth := h.width
  have hseq : ahead s seq = ahead s b + ahead b seq := by
    unfold ahead at *
    bv_omega
  have hb : m.bigestWith seq = seq := by
    have hneg : wrappableMinus b seq < 0 := by
      rw [wrappableMinus_neg_iff_ahead_lt (o := s) (by omega) (by omega)]
      omega
    simp [bigestWith,h.bigest,hneg]
  have hminus : wrappableMinus seq s = ahead s seq := wrappableMinus_of_ahead (by omega)
  have hw : Window id s (ahead s seq + 1) (m.pushToPlayerSeq ++ [seq]) := by
    refine ⟨pairwise_append.mpr ⟨h.window.sorted,pairwise_singleton _ _,?_⟩,?_⟩
    · intro x hx y hy
      have hlt := h.window.bounded x hx
      rw [mem_singleton.mp hy]
      dsimp only [id] at hlt ⊢
      omega
    · intro x hx
      rcases mem_append.mp hx with hx | hx
      · have hlt := h.window.bounded x hx
        omega
      · rw [mem_singleton.mp hx]
        exact Nat.lt_succ_self _
  by_cases hwide : 256 < ahead s seq
  · -- The window is too wide and its lower end moves up.
    have hs : m.smallestWith seq = seq - 256 := by
      simp only [smallestWith,h.smallest,Option.getD_some,hb,hminus,maxSize]
      rw [if_pos (by omega)]
    refine ⟨seq - 256,rising_pushToPlayer hb hs ?_ ?_ (by omega : ahead s seq < 2^31) hw⟩
    · simp [ahead]
    · unfold ahead at *
      bv_omega
  · have hs : m.smallestWith seq = s := by
      simp only [smallestWith,h.smallest,Option.getD_some,hb,hminus,maxSize]
      rw [if_neg (by omega)]
    exact ⟨s,rising_pushToPlayer hb hs (by omega) (by simp) (by omega : ahead s seq < 2^31) hw⟩

def Steps (l : List (BitVec 32)) : Prop :=
  l.IsChain fun a b => 0 < ahead a b ∧ ahead a b + 256 < 2^31

theorem rising_foldl (m : StreamMonitor) {l : List (BitVec 32)} {b : BitVec 32} (h : Steps (l ++ [b])) :
    ∃ s, Rising ((l ++ [b]).foldl (pushToPlayer · · true) m.resetToPlayer) b s := by
  induction l using List.reverseRecOn generalizing b with
  | nil => exact ⟨b,rising_first m b⟩
  | append_singleton l a ih =>
    obtain ⟨hl,-,hlast⟩ := isChain_append.mp h
    obtain ⟨s,hs⟩ := ih hl
    obtain ⟨hless,hfar⟩ := hlast a (by simp) b (by simp)
    rw [foldl_append]
    exact hs.push hless hfar

end StreamMonitor

/-- Numbers in use at one time lie within half the ring, the last 257 pushed to the player
included. -/
def InWindowRange (cursor seqno : BitVec 32) : Prop :=
  ahead cursor seqno + 257 < 2^31 ∨ 2^31 < ahead cursor seqno

instance (cursor seqno : BitVec 32) : Decidable (InWindowRange cursor seqno) :=
  inferInstanceAs (Decidable (_ ∨ _))

theorem InWindowRange.inHalfRange {cursor seqno : BitVec 32} (h : InWindowRange cursor seqno) :
    InHalfRange cursor seqno := by
  unfold InWindowRange at h
  unfold InHalfRange
  omega

def Recovery.Tame (r : Recovery) : Prop := r.Harmless ∧ InWindowRange r.asked r.pkt.seqno

instance (r : Recovery) : Decidable r.Tame := inferInstanceAs (Decidable (_ ∧ _))

namespace MediaDispatcher

variable {n : ℕ} {cfg : DispatchConfig}

/-- The media loops push numbers in rising order, by steps short enough for the monitor. -/
structure Close (d : MediaDispatcher n) : Prop where
  sound : Sound d
  near : Window MediaPacket.seqno d.smallestSeqnoICare (2^31 - 257) d.mediaPktToPlayerCache
  steps : StreamMonitor.Steps (d.dispatched.map MediaPacket.seqno)

variable {d : MediaDispatcher n}

theorem Close.push (h : Close d) (started : d.isPlayerStarted=true)
    {p : MediaPacket} {rest : List MediaPacket} (head : d.mediaPktToPlayerCache = p :: rest) :
    Close (d.push cfg p) := by
  have hw := h.near
  rw [head] at hw
  have hp := hw.bounded p mem_cons_self
  have hcur : (d.push cfg p).smallestSeqnoICare = p.seqno+1 := by
    rw [push_cursor,if_pos (greaterEqual_of_window (by omega))]
  refine ⟨h.sound.push started head,?_,?_⟩
  · rw [hcur,push_cache,head]
    exact hw.advance_behind_head (by decide)
  · unfold StreamMonitor.Steps
    rw [push_dispatched,map_append,isChain_append]
    refine ⟨h.steps,.singleton _,fun a ha b hb => ?_⟩
    obtain rfl : p.seqno=b := by simpa using hb
    obtain ⟨last,hlast,rfl⟩ : ∃ last, d.dispatched.getLast? = some last ∧ last.seqno=a := by
      simpa [List.getLast?_map] using ha
    rw [h.sound.cursor last hlast] at hp
    unfold ahead at *
    bv_omega

theorem Close.doProcess (h : Close d) {pkt : MediaPacket}
    (hr : InWindowRange d.smallestSeqnoICare pkt.seqno) : Close (d.doProcessRecvdMediaPacket pkt) := by
  have hprogress := d.doProcess_progress pkt
  refine ⟨h.sound.doProcess hr.inHalfRange,?_,hprogress.dispatched ▸ h.steps⟩
  rw [hprogress.smallestSeqnoICare,doProcess_cache,keepForPlayer_cache]
  split_ifs with hge
  · refine h.near.insert (by decide) ?_
    rcases hr with hr | hr
    · omega
    · rw [← wrappableLess_origin (w := 31)] at hr
      rw [wrappableGreaterEqual,hr] at hge
      cases hge
  · exact h.near

variable {d d' : MediaDispatcher n}

theorem Close.of_same (h : Close d) (same : SameProgress d d')
    (hc : d'.mediaPktToPlayerCache=d.mediaPktToPlayerCache) : Close d' := by
  refine ⟨h.sound.of_same same hc,?_,same.dispatched ▸ h.steps⟩
  rw [same.smallestSeqnoICare,hc]
  exact h.near

theorem Close.start (h : Close d) {env : CallEnv} (idle : d.isPlayerStarted=false)
    (hd : d.canPlayerStart cfg env = some d') : Close d' := by
  have hsound := h.sound.start idle hd
  rcases canPlayerStart_some hd with rfl | ⟨pkt,rest,head,rfl⟩
  · exact ⟨hsound,h.near,h.steps⟩
  · -- The cursor of a live dispatcher moves to the head of the map.
    have hw := h.near
    rw [head] at hw
    exact ⟨hsound,head ▸ hw.advance_to_head,h.steps⟩

theorem lasting_close : Lasting (n := n) cfg Recovery.Tame Close where
  harmless _ hr := hr.1
  sound _ h := h.sound
  push _ _ _ h started head := h.push started head
  recovered d memory pkt h hr := Close.doProcess (d := d.noted memory pkt)
    ⟨⟨h.sound.window,h.sound.rising,h.sound.cursor,h.sound.idle⟩,h.near,h.steps⟩ hr.2
  of_same _ _ h := h.of_same
  start _ _ _ h := h.start

/-- The dispatcher when the monitor is reset: nothing is recorded, and what waits is in use. -/
structure AtReset (d : MediaDispatcher n) : Prop where
  dispatched : d.dispatched=[]
  recoveries : d.recoveries=[]
  window : Window MediaPacket.seqno d.smallestSeqnoICare (2^31 - 257) d.mediaPktToPlayerCache

theorem AtReset.close (h : AtReset d) : Close d := by
  obtain ⟨hdispatched,-,hw⟩ := h
  refine ⟨⟨⟨hw.sorted,fun x hx => ?_⟩,?_,?_,fun _ => hdispatched⟩,hw,?_⟩
  · have := hw.bounded x hx
    omega
  · rw [hdispatched]
    exact .nil
  · rw [hdispatched]
    exact nofun
  · rw [hdispatched]
    exact .nil

end MediaDispatcher

namespace DispatchWatch
open MediaDispatcher StreamMonitor

variable {n : ℕ} {cfg : DispatchConfig}

def Quiet (w : DispatchWatch n) (e : Event n) : Prop :=
  textLoop w.d e = [] ∧ ∀ pkt ∈ received e, InWindowRange w.d.smallestSeqnoICare pkt.seqno

instance (w : DispatchWatch n) (e : Event n) : Decidable (Quiet w e) :=
  inferInstanceAs (Decidable (_ ∧ _))

def Regular (w : DispatchWatch n) : Prop :=
  w.pushes=w.d.dispatched ∧ ((∀ r∈w.d.recoveries, r.Tame) → Close w.d)

theorem Regular.step {w : DispatchWatch n} {e : Event n} (hq : Quiet w e) (h : Regular w) :
    Regular (w.step cfg e) := by
  obtain ⟨hpushes,hclose⟩ := h
  obtain ⟨htext,hrange⟩ := hq
  refine ⟨?_,?_⟩
  · change w.pushes ++ (textLoop w.d e ++ mediaLoop cfg w.d e) = (w.d.step cfg e).dispatched
    rw [step_dispatched,htext,hpushes,nil_append]
  · refine step_lasting lasting_close e (fun pkt hpkt h => h.doProcess (hrange pkt ?_)) hclose
    simp [hpkt,received]

/-- In every run from a reset of the monitor on in which the text loop has nothing to push, with
numbers in use within half the ring and recoveries that are tame: after every push the queue is
no longer than the window, the window no wider than 257 and the quality at most one. -/
theorem playing_quality_at_most_one (cfg : DispatchConfig) (d : MediaDispatcher n)
    (start : AtReset d) (m : StreamMonitor) (es : List (Event n))
    (quiet : AlongRun (step cfg) Quiet ⟨d,[],[]⟩ es)
    (tame : ∀ r ∈ (es.foldl (step cfg) ⟨d,[],[]⟩).d.recoveries, r.Tame)
    (before after : List (BitVec 32)) (seq : BitVec 32)
    (pushes : (es.foldl (step cfg) ⟨d,[],[]⟩).pushes.map MediaPacket.seqno = before ++ seq :: after) :
    Fair ((before ++ [seq]).foldl (pushToPlayer · · true) m.resetToPlayer) := by
  have hregular : Regular (es.foldl (step cfg) ⟨d,[],[]⟩) :=
    invariant_of_run Regular (fun _ _ he hs => hs.step he) quiet
      ⟨start.dispatched.symm,fun _ => start.close⟩
  obtain ⟨hpushes,hclose⟩ := hregular
  have hsteps := (hclose tame).steps
  rw [← hpushes,pushes,append_cons] at hsteps
  obtain ⟨s,hs⟩ := rising_foldl m (isChain_append.mp hsteps).1
  exact hs.fair

def shortFilm : DispatchConfig := { liveConfig with vodMaxSeqno := some 1, maxSeqno := 1 }

/-- A text broadcast is pushed by the text loop and by the media loop: two numbers in a window of
one. -/
theorem text_broadcast_counted_twice :
    let w := [Event.recvd (textPacket 0),.timer calmEnv].foldl (step shortFilm) (fresh playing 0)
    let m := (w.pushes.map MediaPacket.seqno).foldl (pushToPlayer · · true) ⟨none,none,[],1⟩
    m.pushToPlayerSeq = [0,0] ∧ m.bigestPushToPlayeSeq = some 0 ∧
      m.smallestPushToPlayeSeq = some 0 ∧ m.playingQuality=2 := by
  decide +kernel

theorem two_pieces_fair :
    ([Event.recvd (signedPacket 0),.recvd (signedPacket 1),.timer calmEnv].foldl (step shortFilm)
      (fresh playing 0)).pushes.map MediaPacket.seqno = [0,1] ∧
    Fair ([0,1].foldl (pushToPlayer · · true) (StreamMonitor.mk none none [] 1).resetToPlayer) :=
  ⟨by decide +kernel,
    playing_quality_at_most_one shortFilm (playing.resetTo 0) ⟨rfl,rfl,.nil⟩ ⟨none,none,[],1⟩
      [.recvd (signedPacket 0),.recvd (signedPacket 1),.timer calmEnv] (by decide +kernel)
      (by decide +kernel) [0] [] 1 (by decide +kernel)⟩

end DispatchWatch

end P2Streaming
