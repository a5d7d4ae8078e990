import P2Streaming.MediaDispatcher
import P2Streaming.TransitionRuns
import Mathlib.Data.List.Chain

/-!
# The order in which media is dispatched

The map of waiting packets stays sorted above the cursor, and what leaves it is its head, so
numbers are dispatched in rising order and the cursor stands right behind the last one. This
rests on a recovered packet never landing between the cursor and the packet at hand: then the
loops erase the recovered packet in place of the one they dispatched, and the flush of `stop`
dispatches that one again.
-/
namespace P2Streaming
open WrappableInteger BoundedLoops SerialMaps TransitionRuns MediaPacket

/-- Numbers in use at one time lie within half the ring: a number is either below the cursor, or
so far above it that the number before the cursor still counts as smaller. -/
def InHalfRange (cursor seqno : BitVec 32) : Prop :=
  ahead cursor seqno + 1 < 2^31 ∨ 2^31 < ahead cursor seqno

instance (cursor seqno : BitVec 32) : Decidable (InHalfRange cursor seqno) :=
  inferInstanceAs (Decidable (_ ∨ _))

/-- The recovered packet is not strictly between the cursor and the head of the map. -/
def Recovery.Harmless (r : Recovery) : Prop :=
  InHalfRange r.asked r.pkt.seqno ∧
    (r.pkt.seqno=r.asked ∨ ∀ k∈r.head, ahead r.asked k ≤ ahead r.asked r.pkt.seqno)

instance (r : Recovery) : Decidable r.Harmless := inferInstanceAs (Decidable (_ ∧ _))

namespace MediaDispatcher

variable {n : ℕ} {cfg : DispatchConfig}

section Fields
variable (d : MediaDispatcher n) (pkt : MediaPacket)

theorem keepForPlayer_cache : (d.keepForPlayer pkt).mediaPktToPlayerCache =
    if wrappableGreaterEqual pkt.seqno d.smallestSeqnoICare then
      SerialMaps.insert seqno pkt d.mediaPktToPlayerCache else d.mediaPktToPlayerCache := by
  unfold keepForPlayer
  split_ifs <;> rfl

structure SameProgress (d d' : MediaDispatcher n) : Prop where
  smallestSeqnoICare : d'.smallestSeqnoICare=d.smallestSeqnoICare
  isPlayerStarted : d'.isPlayerStarted=d.isPlayerStarted
  minSeqno : d'.minSeqno=d.minSeqno
  dispatched : d'.dispatched=d.dispatched
  recoveries : d'.recoveries=d.recoveries

theorem keepForPlayer_progress : SameProgress d (d.keepForPlayer pkt) := by
  unfold keepForPlayer
  split_ifs <;> exact ⟨rfl,rfl,rfl,rfl,rfl⟩

theorem doProcess_progress : SameProgress d (d.doProcessRecvdMediaPacket pkt) := by
  obtain ⟨h1,h2,h3,h4,h5⟩ := d.keepForPlayer_progress pkt
  unfold doProcessRecvdMediaPacket
  dsimp only
  split_ifs <;> exact ⟨h1,h2,h3,h4,h5⟩

theorem doProcess_cache : (d.doProcessRecvdMediaPacket pkt).mediaPktToPlayerCache =
      (d.keepForPlayer pkt).mediaPktToPlayerCache := by
  unfold doProcessRecvdMediaPacket
  dsimp only
  split_ifs <;> rfl

theorem length_doProcess_cache_le : (d.doProcessRecvdMediaPacket pkt).mediaPktToPlayerCache.length ≤
      d.mediaPktToPlayerCache.length + 1 := by
  rw [doProcess_cache,keepForPlayer_cache]
  split_ifs
  · exact length_insert_le seqno pkt _
  · omega

@[simp] theorem push_cache : (d.push cfg pkt).mediaPktToPlayerCache = d.mediaPktToPlayerCache.tail := by
  unfold push
  split_ifs <;> rfl

@[simp] theorem push_dispatched : (d.push cfg pkt).dispatched = d.dispatched ++ [pkt] := by
  unfold push
  split_ifs <;> rfl

@[simp] theorem push_started : (d.push cfg pkt).isPlayerStarted = d.isPlayerStarted := by
  unfold push
  split_ifs <;> rfl

@[simp] theorem push_recoveries : (d.push cfg pkt).recoveries = d.recoveries := by
  unfold push
  split_ifs <;> rfl

theorem push_cursor : (d.push cfg pkt).smallestSeqnoICare =
    if wrappableGreaterEqual pkt.seqno d.smallestSeqnoICare then pkt.seqno + 1
    else d.smallestSeqnoICare := by
  unfold push
  split_ifs <;> rfl

end Fields

def recoveryOf (d : MediaDispatcher n) (pkt : MediaPacket) : Recovery :=
  ⟨d.smallestSeqnoICare,d.mediaPktToPlayerCache.head?.map seqno,pkt⟩

def noted (d : MediaDispatcher n) (memory : PacketBuffer n) (pkt : MediaPacket) :
    MediaDispatcher n :=
  { d with memoryPacketCache := memory, recoveries := d.recoveries ++ [d.recoveryOf pkt] }

def recovered (d : MediaDispatcher n) (memory : PacketBuffer n) (pkt : MediaPacket) :
    MediaDispatcher n :=
  (d.noted memory pkt).doProcessRecvdMediaPacket pkt

inductive FecOutcome (d : MediaDispatcher n) : MediaDispatcher n → Prop where
  | nothing : FecOutcome d d
  | recovered (memory : PacketBuffer n) (pkt : MediaPacket)
      (inTime : d.isPlayerStarted=true → wrappableLess pkt.seqno d.smallestSeqnoICare = false) :
      FecOutcome d (d.recovered memory pkt)

theorem fecOutcome_process (d : MediaDispatcher n) (pkt : MediaPacket) (now : BitVec 32) :
    FecOutcome d (d.processMediaPacketFromNonsocket pkt now) := by
  unfold processMediaPacketFromNonsocket
  dsimp only
  split_ifs with _ h
  · exact .nothing
  · exact .nothing
  · refine .recovered _ pkt fun hs => ?_
    rw [Bool.not_eq_true,hs,Bool.true_and] at h
    exact h

theorem fecOutcome_read (d : MediaDispatcher n) (buf : List BigEndianBytes.Byte)
    (seqno now : BitVec 32) : FecOutcome d (d.readMediaPacketFromNosocket cfg buf seqno now) := by
  unfold readMediaPacketFromNosocket
  dsimp only
  split_ifs
  · exact .nothing
  · exact .nothing
  · exact fecOutcome_process d _ now

theorem fecOutcome_tryFec (cfg : DispatchConfig) (env : CallEnv) (s : LoopState n) :
    FecOutcome s.d (tryFec cfg env s).1.d ∧ (tryFec cfg env s).1.fecCnt = s.fecCnt+1 := by
  unfold tryFec
  split_ifs
  · refine ⟨?_,rfl⟩
    dsimp only [fecDecode]
    split
    · exact .nothing
    · exact fecOutcome_read s.d _ _ _
  · exact ⟨.nothing,rfl⟩

variable (env : CallEnv)

theorem tryFec_idle {s : LoopState n} (h : fecMaxCnt ≤ s.fecCnt) :
    (tryFec cfg env s).1.d = s.d ∧ (tryFec cfg env s).2 = false := by
  unfold tryFec
  rw [if_neg (by omega)]
  exact ⟨rfl,rfl⟩

theorem tryFec_eq_of_false {s : LoopState n} (h : (tryFec cfg env s).2 = false) :
    (tryFec cfg env s).1.d = s.d := by
  unfold tryFec at h ⊢
  split_ifs at h ⊢
  · dsimp only [fecDecode] at h ⊢
    split at h
    · rfl
    · cases h
  · rfl

variable {d d' : MediaDispatcher n}

theorem FecOutcome.length_le (h : FecOutcome d d') :
    d'.mediaPktToPlayerCache.length≤d.mediaPktToPlayerCache.length+1 := by
  cases h with
  | nothing => omega
  | recovered memory pkt => exact length_doProcess_cache_le _ pkt

/-- What a turn of either media loop can do with the first packet `p` of the map. -/
inductive Progress (cfg : DispatchConfig) (s t : LoopState n) : Prop where
  | erase {p : MediaPacket} {rest : List MediaPacket} (head : s.d.mediaPktToPlayerCache = p :: rest)
      (older : wrappableLess p.seqno s.d.smallestSeqnoICare = true)
      (hd : t.d = { s.d with mediaPktToPlayerCache := rest }) (hf : t.fecCnt=s.fecCnt)
  | retry {p : MediaPacket} {rest : List MediaPacket} (head : s.d.mediaPktToPlayerCache = p :: rest)
      (gap : wrappableLess s.d.smallestSeqnoICare p.seqno = true) (tries : s.fecCnt<fecMaxCnt)
      (fec : FecOutcome s.d t.d) (hf : t.fecCnt=s.fecCnt+1)
  | skip {p : MediaPacket} {rest : List MediaPacket} {d : MediaDispatcher n}
      (head : s.d.mediaPktToPlayerCache = p :: rest)
      (gap : wrappableLess s.d.smallestSeqnoICare p.seqno = true) (fec : FecOutcome s.d d)
      (idle : fecMaxCnt ≤ s.fecCnt → d=s.d) (missing : d.atCursor=false)
      (hd : t.d = d.push cfg p) (hf : t.fecCnt=s.fecCnt+1)
  | next {p : MediaPacket} {rest : List MediaPacket} (head : s.d.mediaPktToPlayerCache = p :: rest)
      (nogap : wrappableLess s.d.smallestSeqnoICare p.seqno = false)
      (hd : t.d = s.d.push cfg p) (hf : t.fecCnt=s.fecCnt)

variable {d : MediaDispatcher n} {p : MediaPacket} {rest : List MediaPacket}

theorem atCursor_of_gap (head : d.mediaPktToPlayerCache = p :: rest)
    (gap : wrappableLess d.smallestSeqnoICare p.seqno = true) : d.atCursor=false := by
  have hne : p.seqno≠d.smallestSeqnoICare := by
    rintro heq
    rw [heq,wrappableLess_self] at gap
    cases gap
  simp [atCursor,head,hne]

section Gap
variable {env : CallEnv} (s : LoopState n) {p : MediaPacket} {rest : List MediaPacket}

theorem progress_retry (head : s.d.mediaPktToPlayerCache = p :: rest)
    (gap : wrappableLess s.d.smallestSeqnoICare p.seqno = true)
    (h : ((tryFec cfg env s).2 && (tryFec cfg env s).1.d.atCursor) = true) :
    Progress cfg s (tryFec cfg env s).1 := by
  obtain ⟨fec,hf⟩ := fecOutcome_tryFec cfg env s
  refine .retry head gap ?_ fec hf
  by_contra hlt
  rw [(tryFec_idle env (Nat.le_of_not_lt hlt)).2] at h
  exact absurd h (by simp)

theorem progress_skip (head : s.d.mediaPktToPlayerCache = p :: rest)
    (gap : wrappableLess s.d.smallestSeqnoICare p.seqno = true)
    (h : ¬ ((tryFec cfg env s).2 && (tryFec cfg env s).1.d.atCursor) = true) :
    Progress cfg s ((tryFec cfg env s).1.push cfg p) := by
  obtain ⟨fec,hf⟩ := fecOutcome_tryFec cfg env s
  refine .skip head gap fec (fun hle => (tryFec_idle env hle).1) ?_ rfl hf
  rw [Bool.not_eq_true,Bool.and_eq_false_iff] at h
  rcases h with hno | hno
  · rw [tryFec_eq_of_false env hno]
    exact atCursor_of_gap head gap
  · exact hno

end Gap

variable {s t : LoopState n}

theorem Progress.of_asked {answers : List Bool}
    (h : Progress cfg { s with answers } t) : Progress cfg s t := by
  cases h with
  | erase head older hd hf => exact .erase head older hd hf
  | retry head gap tries fec hf => exact .retry head gap tries fec hf
  | skip head gap fec idle missing hd hf => exact .skip head gap fec idle missing hd hf
  | next head nogap hd hf => exact .next head nogap hd hf

theorem pushInTimer_eq (cfg : DispatchConfig) (maxPush : ℤ) (s : LoopState n) (p : MediaPacket) :
    pushInTimer cfg maxPush s p = .again (s.push cfg p) ∨
      pushInTimer cfg maxPush s p = .leave (s.push cfg p) := by
  unfold pushInTimer
  dsimp only
  split_ifs
  · exact .inr rfl
  · exact .inl rfl

/-- A loop turn either makes progress, or leaves the loop with the dispatcher as it is. -/
def Advances (cfg : DispatchConfig) (s : LoopState n) : Turn (LoopState n) → Prop
  | .again t => Progress cfg s t
  | .leave t => t.d = s.d ∨ Progress cfg s t

theorem advances_pushInTimer (maxPush : ℤ) {s r : LoopState n}
    (h : Progress cfg s (r.push cfg p)) : Advances cfg s (pushInTimer cfg maxPush r p) := by
  rcases pushInTimer_eq cfg maxPush r p with he | he
  · rw [he]
    exact h
  · rw [he]
    exact .inr h

theorem timerTurn_advances (maxPush : ℤ) (s : LoopState n) :
    Advances cfg s (timerTurn cfg env maxPush s) := by
  unfold timerTurn
  split
  · exact .inl rfl
  rename_i p rest head
  dsimp only
  split_ifs with _ _ older gap hc
  · exact .inl rfl
  · exact .inl rfl
  · exact Progress.erase head older rfl rfl
  · exact (progress_retry { s with answers := s.answers.tail } head gap hc).of_asked
  · exact advances_pushInTimer maxPush
      (progress_skip { s with answers := s.answers.tail } head gap hc).of_asked
  · exact advances_pushInTimer maxPush (.next head (Bool.eq_false_of_not_eq_true gap) rfl rfl)

theorem flushTurn_advances (s : LoopState n) : Advances cfg s (flushTurn cfg env s) := by
  unfold flushTurn
  split
  · exact .inl rfl
  rename_i p rest head
  dsimp only
  split_ifs with gap older hc
  · exact Progress.erase head older rfl rfl
  · exact progress_retry s head gap hc
  · exact progress_skip s head gap hc
  · exact Progress.next head (Bool.eq_false_of_not_eq_true gap) rfl rfl

def work (s : LoopState n) : ℕ := s.d.mediaPktToPlayerCache.length + 2 * (fecMaxCnt - s.fecCnt)

theorem Progress.work_lt (h : Progress cfg s t) : work t < work s := by
  unfold work
  cases h with
  | erase head older hd hf =>
    rw [hd,hf,head]
    simp
  | retry head gap tries fec hf =>
    have := fec.length_le
    omega
  | @skip p rest d head gap fec idle missing hd hf =>
    have hlen : (d.push cfg p).mediaPktToPlayerCache.length = d.mediaPktToPlayerCache.length - 1 := by
      rw [push_cache,List.length_tail]
    have hpos : 0<s.d.mediaPktToPlayerCache.length := by simp [head]
    have hle := fec.length_le
    rw [hd,hf,hlen]
    rcases Nat.lt_or_ge s.fecCnt fecMaxCnt with htry | hle'
    · omega
    · rw [idle hle']
      omega
  | next head nogap hd hf =>
    rw [hd,hf,push_cache,head]
    simp

section Loops
variable {body : LoopState n → Turn (LoopState n)} (advances : ∀ s, Advances cfg s (body s))
include advances

theorem leaves_of_advances (d : MediaDispatcher n) (env : CallEnv) :
    Leaves body (d.loopStart env) (loop body d.turns (d.loopStart env)) := by
  refine leaves_loop work (fun s t ht => ?_) d.turns _ (Nat.lt_succ_self _)
  have h := advances s
  rw [ht] at h
  exact Progress.work_lt h

theorem loop_keeps (P : MediaDispatcher n → Prop)
    (keeps : ∀ s t : LoopState n, Progress cfg s t → P s.d → P t.d) (d : MediaDispatcher n)
    (env : CallEnv) (h : P d) : P (loop body d.turns (d.loopStart env)).d := by
  refine (leaves_of_advances advances d env).rule (fun s => P s.d) (fun s => P s.d)
    (fun s t hs ht => ?_) (fun s t hs ht => ?_) h
  · have ha := advances s
    rw [ht] at ha
    exact keeps s t ha hs
  · have ha := advances s
    rw [ht] at ha
    rcases ha with he | hp
    · rw [he]
      exact hs
    · exact keeps s t hp hs

end Loops

structure Sound (d : MediaDispatcher n) : Prop where
  window : Window seqno d.smallestSeqnoICare (2^31 - 1) d.mediaPktToPlayerCache
  rising : d.dispatched.IsChain fun p q => wrappableLess p.seqno q.seqno = true
  cursor : ∀ p ∈ d.dispatched.getLast?, d.smallestSeqnoICare=p.seqno+1
  idle : d.isPlayerStarted=false → d.dispatched=[]

theorem less_of_window {k q : BitVec 32} (h : ahead (k+1) q < 2^31 - 1) : wrappableLess k q = true := by
  rw [wrappableLess_iff (w := 31)]
  unfold ahead at h
  bv_omega

theorem greaterEqual_of_window {o k : BitVec 32} (h : ahead o k < 2^31 - 1) :
    wrappableGreaterEqual k o = true := by
  have hno : ¬ wrappableLess k o = true := by
    rw [wrappableLess_origin (w := 31)]
    omega
  rw [wrappableGreaterEqual,Bool.eq_false_of_not_eq_true hno]
  rfl

theorem Sound.push (h : Sound d) (started : d.isPlayerStarted=true)
    (head : d.mediaPktToPlayerCache = p :: rest) : Sound (d.push cfg p) := by
  have hw := h.window
  rw [head] at hw
  have hp := hw.bounded p List.mem_cons_self
  have hcur : (d.push cfg p).smallestSeqnoICare = p.seqno+1 := by
    rw [push_cursor,if_pos (greaterEqual_of_window hp)]
  refine ⟨?_,?_,?_,?_⟩
  · rw [hcur,push_cache,head]
    exact hw.advance_behind_head (by decide)
  · rw [push_dispatched,List.isChain_append]
    refine ⟨h.rising,.singleton p,fun last hlast q hq => ?_⟩
    obtain rfl : p=q := by simpa using hq
    rw [h.cursor last hlast] at hp
    exact less_of_window hp
  · intro q hq
    obtain rfl : p=q := by simpa using hq
    exact hcur
  · intro hno
    rw [push_started,started] at hno
    cases hno

theorem Sound.doProcess (h : Sound d) {pkt : MediaPacket}
    (hr : InHalfRange d.smallestSeqnoICare pkt.seqno) : Sound (d.doProcessRecvdMediaPacket pkt) := by
  obtain ⟨hcur,hstart,-,hdisp,-⟩ := d.doProcess_progress pkt
  refine ⟨?_,hdisp ▸ h.rising,?_,?_⟩
  · rw [hcur,doProcess_cache,keepForPlayer_cache]
    split_ifs with hge
    · refine h.window.insert (by decide) ?_
      rcases hr with hr | hr
      · omega
      · rw [← wrappableLess_origin (w := 31)] at hr
        rw [wrappableGreaterEqual,hr] at hge
        cases hge
    · exact h.window
  · rw [hcur,hdisp]
    exact h.cursor
  · rw [hstart,hdisp]
    exact h.idle

theorem recovered_recoveries (d : MediaDispatcher n) (memory : PacketBuffer n) (pkt : MediaPacket) :
    (d.recovered memory pkt).recoveries = d.recoveries ++ [d.recoveryOf pkt] :=
  (doProcess_progress _ pkt).recoveries

theorem FecOutcome.recoveries_subset (h : FecOutcome d d') : d.recoveries ⊆ d'.recoveries := by
  cases h with
  | nothing => exact fun r hr => hr
  | recovered memory pkt =>
    rw [recovered_recoveries]
    exact fun r hr => List.mem_append_left _ hr

theorem FecOutcome.started (h : FecOutcome d d') : d'.isPlayerStarted=d.isPlayerStarted := by
  cases h with
  | nothing => rfl
  | recovered memory pkt => exact (doProcess_progress _ pkt).isPlayerStarted

theorem Sound.recovered (h : Sound d) (memory : PacketBuffer n) {pkt : MediaPacket}
    (hr : (d.recoveryOf pkt).Harmless) : Sound (d.recovered memory pkt) :=
  Sound.doProcess (d := d.noted memory pkt) ⟨h.window,h.rising,h.cursor,h.idle⟩ hr.1

theorem FecOutcome.head_stays (h : FecOutcome d d')
    (harmless : ∀ r∈d'.recoveries, r.Harmless) (hd : Sound d) (started : d.isPlayerStarted=true)
    (head : d.mediaPktToPlayerCache = p :: rest)
    (gap : wrappableLess d.smallestSeqnoICare p.seqno = true) (missing : d'.atCursor=false) :
    ∃ rest', d'.mediaPktToPlayerCache = p :: rest' := by
  cases h with
  | nothing => exact ⟨rest,head⟩
  | recovered memory pkt inTime =>
    rw [recovered_recoveries] at harmless
    obtain ⟨hrange,hplace⟩ : (d.recoveryOf pkt).Harmless := harmless _ (by simp)
    have hw := hd.window
    rw [head] at hw
    have hge : wrappableGreaterEqual pkt.seqno (d.noted memory pkt).smallestSeqnoICare = true :=
      congrArg (!·) (inTime started)
    have hahead : ahead d.smallestSeqnoICare pkt.seqno < 2^31 - 1 := by
      rcases hrange with hr | hr
      · exact Nat.lt_sub_of_add_lt hr
      · have hless := (wrappableLess_origin (w := 31) d.smallestSeqnoICare pkt.seqno).mpr hr
        rw [inTime started] at hless
        cases hless
    have hcache : (d.recovered memory pkt).mediaPktToPlayerCache =
        SerialMaps.insert seqno pkt (p::rest) := by
      rw [MediaDispatcher.recovered,doProcess_cache,keepForPlayer_cache,if_pos hge]
      exact congrArg _ head
    rcases hplace with (hat : pkt.seqno=d.smallestSeqnoICare) | hplace
    · -- the recovered packet is the missing one, so the map would start at the cursor
      have hne : p.seqno≠d.smallestSeqnoICare := by
        rintro heq
        rw [heq,wrappableLess_self] at gap
        cases gap
      rw [hw.insert_origin (by decide) hat hne] at hcache
      have hcur : (d.recovered memory pkt).smallestSeqnoICare = d.smallestSeqnoICare :=
        (doProcess_progress _ pkt).smallestSeqnoICare
      simp [atCursor,hcache,hcur,hat] at missing
    · rw [hcache]
      refine Window.insert_behind_head (by decide) hahead (hplace p.seqno ?_)
      simp [recoveryOf,head]

theorem dispatchTxt_progress (cfg : DispatchConfig) (d : MediaDispatcher n) :
    SameProgress d (d.dispatchTxt cfg) ∧
      (d.dispatchTxt cfg).mediaPktToPlayerCache = d.mediaPktToPlayerCache := by
  have hfold : ∀ (pkts : List MediaPacket) (e : MediaDispatcher n), SameProgress d e →
      e.mediaPktToPlayerCache = d.mediaPktToPlayerCache →
      let r := pkts.foldl (fun d pkt =>
        ({ d with smallestTxtSeqnoICare := some pkt.seqno }).dispatch cfg pkt) e
      SameProgress d r ∧ r.mediaPktToPlayerCache=d.mediaPktToPlayerCache := by
    intro pkts
    induction pkts with
    | nil => exact fun e he hc => ⟨he,hc⟩
    | cons pkt pkts ih =>
      intro e he hc
      exact ih _ ⟨he.1,he.2,he.3,he.4,he.5⟩ hc
  obtain ⟨h,hc⟩ := hfold d.txtPktCache d ⟨rfl,rfl,rfl,rfl,rfl⟩ rfl
  exact ⟨⟨h.1,h.2,h.3,h.4,h.5⟩,hc⟩

theorem Sound.of_same (h : Sound d) (same : SameProgress d d')
    (hc : d'.mediaPktToPlayerCache=d.mediaPktToPlayerCache) : Sound d' := by
  obtain ⟨hcur,hstart,-,hdisp,-⟩ := same
  refine ⟨?_,hdisp ▸ h.rising,?_,?_⟩
  · rw [hcur,hc]
    exact h.window
  · rw [hcur,hdisp]
    exact h.cursor
  · rw [hstart,hdisp]
    exact h.idle

theorem canPlayerStart_some {env : CallEnv} (hd : d.canPlayerStart cfg env = some d') :
    d' = { d with isPlayerStarted := true, minSeqno := d.smallestSeqnoICare } ∨
      ∃ pkt rest, d.mediaPktToPlayerCache = pkt :: rest ∧
        d' = { d with isPlayerStarted := true, smallestSeqnoICare := pkt.seqno } := by
  unfold canPlayerStart at hd
  split at hd
  · split_ifs at hd
    exact .inl (Option.some.inj hd).symm
  · split at hd
    · cases hd
    rename_i pkt rest head
    split_ifs at hd
    exact .inr ⟨pkt,rest,head,(Option.some.inj hd).symm⟩

theorem Sound.start (h : Sound d) {env : CallEnv} (idle : d.isPlayerStarted=false)
    (hd : d.canPlayerStart cfg env = some d') : Sound d' := by
  rcases canPlayerStart_some hd with rfl | ⟨pkt,rest,head,rfl⟩
  · exact ⟨h.window,h.rising,h.cursor,nofun⟩
  · refine ⟨?_,h.rising,fun p hp => ?_,nofun⟩
    · have hw := h.window
      rw [head] at hw
      exact head ▸ hw.advance_to_head
    · rw [show d.dispatched = [] from h.idle idle] at hp
      cases hp

/-- What makes `I` an invariant as long as all recoveries meet `Q`. -/
structure Lasting (cfg : DispatchConfig) (Q : Recovery → Prop) (I : MediaDispatcher n → Prop) : Prop where
  harmless : ∀ r, Q r → r.Harmless
  sound : ∀ d, I d → Sound d
  push : ∀ d p rest, I d → d.isPlayerStarted=true → d.mediaPktToPlayerCache = p :: rest → I (d.push cfg p)
  recovered : ∀ d memory pkt, I d → Q (d.recoveryOf pkt) → I (d.recovered memory pkt)
  of_same : ∀ d d', I d → SameProgress d d' → d'.mediaPktToPlayerCache=d.mediaPktToPlayerCache → I d'
  start : ∀ d d' env, I d → d.isPlayerStarted=false → d.canPlayerStart cfg env = some d' → I d'

theorem lasting_sound : Lasting (n := n) cfg Recovery.Harmless Sound where
  harmless _ hr := hr
  sound _ h := h
  push _ _ _ h := h.push
  recovered _ memory _ h := h.recovered memory
  of_same _ _ h := h.of_same
  start _ _ _ h := h.start

section Lasting
variable {Q : Recovery → Prop} {I : MediaDispatcher n → Prop} (hl : Lasting cfg Q I)
include hl

theorem FecOutcome.lasts (h : FecOutcome d d') (hQ : ∀ r∈d'.recoveries, Q r) (hd : I d) : I d' := by
  cases h with
  | nothing => exact hd
  | recovered memory pkt =>
    rw [recovered_recoveries] at hQ
    exact hl.recovered d memory pkt hd (hQ _ (by simp))

theorem Progress.lasts (h : Progress cfg s t) (started : s.d.isPlayerStarted=true)
    (hs : (∀ r∈s.d.recoveries, Q r) → I s.d) :
    t.d.isPlayerStarted=true ∧ ((∀ r∈t.d.recoveries, Q r) → I t.d) := by
  cases h with
  | @erase p rest head older hd =>
    rw [hd]
    refine ⟨started,fun hQ => ?_⟩
    -- in a sound state nothing in the map is below the cursor
    have hp := (hl.sound _ (hs hQ)).window.bounded p (by simp [head])
    rw [wrappableLess_origin (w := 31)] at older
    omega
  | retry head gap tries fec =>
    exact ⟨fec.started.trans started,fun hQ =>
      fec.lasts hl hQ (hs fun r hr => hQ r (fec.recoveries_subset hr))⟩
  | skip head gap fec idle missing hd =>
    rw [hd]
    refine ⟨(push_started _ _).trans (fec.started.trans started),fun hQ => ?_⟩
    rw [push_recoveries] at hQ
    have hsd := hs fun r hr => hQ r (fec.recoveries_subset hr)
    obtain ⟨rest',head'⟩ := fec.head_stays (fun r hr => hl.harmless r (hQ r hr))
      (hl.sound _ hsd) started head gap missing
    exact hl.push _ _ _ (fec.lasts hl hQ hsd) (fec.started.trans started) head'
  | next head nogap hd =>
    rw [hd]
    refine ⟨(push_started _ _).trans started,fun hQ => ?_⟩
    rw [push_recoveries] at hQ
    exact hl.push _ _ _ (hs hQ) started head

theorem loop_lasting {body : LoopState n → Turn (LoopState n)} (advances : ∀ s, Advances cfg s (body s))
    (env : CallEnv) (started : d.isPlayerStarted=true) (h : (∀ r∈d.recoveries, Q r) → I d) :
    (∀ r ∈ (loop body d.turns (d.loopStart env)).d.recoveries, Q r) →
      I (loop body d.turns (d.loopStart env)).d :=
  (loop_keeps advances (fun d => d.isPlayerStarted=true ∧ ((∀ r∈d.recoveries, Q r) → I d))
    (fun _ _ hp hs => hp.lasts hl hs.1 hs.2) d env ⟨started,h⟩).2

theorem onDispatchTimer_lasting (env : CallEnv) (h : (∀ r∈d.recoveries, Q r) → I d) :
    (∀ r ∈ (d.onDispatchTimer cfg env).recoveries, Q r) → I (d.onDispatchTimer cfg env) := by
  obtain ⟨same,hcache⟩ := d.dispatchTxt_progress cfg
  have htxt : (∀ r ∈ (d.dispatchTxt cfg).recoveries, Q r) → I (d.dispatchTxt cfg) :=
    fun hQ => hl.of_same _ _ (h (same.recoveries ▸ hQ)) same hcache
  unfold onDispatchTimer
  dsimp only
  split_ifs with _ started
  · exact h
  · exact loop_lasting hl (timerTurn_advances env env.maxPush) env started htxt
  · split
    · exact htxt
    · rename_i d' hd'
      have hstarted : d'.isPlayerStarted=true ∧ d'.recoveries = (d.dispatchTxt cfg).recoveries := by
        rcases canPlayerStart_some hd' with rfl | ⟨_,_,-,rfl⟩ <;> exact ⟨rfl,rfl⟩
      refine loop_lasting hl (timerTurn_advances env 100) env hstarted.1 fun hQ => ?_
      exact hl.start _ _ _ (htxt (hstarted.2 ▸ hQ)) (Bool.eq_false_of_not_eq_true started) hd'

theorem step_lasting (e : Event n)
    (hg : ∀ pkt, e = .recvd pkt → I d → I (d.doProcessRecvdMediaPacket pkt))
    (h : (∀ r∈d.recoveries, Q r) → I d) : (∀ r ∈ (d.step cfg e).recoveries, Q r) → I (d.step cfg e) := by
  cases e with
  | recvd pkt =>
    intro hQ
    rw [step,(d.doProcess_progress pkt).recoveries] at hQ
    exact hg pkt rfl (h hQ)
  | memory cache => exact fun hQ => hl.of_same _ _ (h hQ) ⟨rfl,rfl,rfl,rfl,rfl⟩ rfl
  | setFlush flush => exact fun hQ => hl.of_same _ _ (h hQ) ⟨rfl,rfl,rfl,rfl,rfl⟩ rfl
  | timer env => exact onDispatchTimer_lasting hl env h
  | stop env =>
    rw [step,MediaDispatcher.stop]
    split_ifs with hc
    · simp only [Bool.and_eq_true] at hc
      exact loop_lasting hl (flushTurn_advances env) env hc.1.2 h
    · exact h

end Lasting

/-- A packet given to the dispatcher is in half the ring above the cursor. -/
def Given (d : MediaDispatcher n) : Event n → Prop
  | .recvd pkt => InHalfRange d.smallestSeqnoICare pkt.seqno
  | _ => True

instance (d : MediaDispatcher n) : ∀ e, Decidable (d.Given e)
  | .recvd pkt => inferInstanceAs (Decidable (InHalfRange d.smallestSeqnoICare pkt.seqno))
  | .memory _ => .isTrue trivial
  | .setFlush _ => .isTrue trivial
  | .timer _ => .isTrue trivial
  | .stop _ => .isTrue trivial

/-- A dispatcher about to get a new cursor: nothing is recorded yet, and the numbers in use, the
new cursor among them, lie within half the ring. -/
structure Ready (d : MediaDispatcher n) (seq : BitVec 32) : Prop where
  dispatched : d.dispatched=[]
  recoveries : d.recoveries=[]
  window : ∃ o, Window seqno o (2^31 - 1) d.mediaPktToPlayerCache ∧ ahead o seq < 2^31

theorem Ready.sound {seq : BitVec 32} (h : Ready d seq) : Sound (d.setSmallestSeqnoICare seq) := by
  obtain ⟨hdisp,-,o,hw,hseq⟩ := h
  refine ⟨?_,?_,?_,fun _ => hdisp⟩
  · dsimp only [setSmallestSeqnoICare]
    generalize d.mediaPktToPlayerCache = l at hw
    induction l with
    | nil => exact .nil
    | cons p rest ih =>
      rw [List.dropWhile_cons]
      split_ifs with hless
      · exact ih hw.tail
      · have hp := hw.bounded p List.mem_cons_self
        rw [wrappableLess_iff_ahead_lt (o := o) (by omega) hseq] at hless
        refine hw.advance fun x hx => ?_
        have := hw.head_le hx
        omega
  · rw [show (d.setSmallestSeqnoICare seq).dispatched = [] from hdisp]
    exact .nil
  · rw [show (d.setSmallestSeqnoICare seq).dispatched = [] from hdisp]
    exact nofun

/-- In every run from a new cursor on, live or vod, with any packets, timers and recoveries: if no
recovered packet landed between the cursor and the head of the map, the numbers dispatched by
the media loops rise, and the cursor is one past the last of them. -/
theorem media_dispatched_in_order (cfg : DispatchConfig) (d : MediaDispatcher n) (seq : BitVec 32)
    (ready : d.Ready seq) (es : List (Event n))
    (given : AlongRun (step cfg) Given (d.setSmallestSeqnoICare seq) es)
    (harmless : ∀ r ∈ (es.foldl (step cfg) (d.setSmallestSeqnoICare seq)).recoveries, r.Harmless) :
    (es.foldl (step cfg) (d.setSmallestSeqnoICare seq)).dispatched.IsChain
        (fun p q => wrappableLess p.seqno q.seqno = true) ∧
      ∀ p ∈ (es.foldl (step cfg) (d.setSmallestSeqnoICare seq)).dispatched.getLast?,
        (es.foldl (step cfg) (d.setSmallestSeqnoICare seq)).smallestSeqnoICare = p.seqno+1 := by
  have hs := invariant_of_run (fun d : MediaDispatcher n => (∀ r∈d.recoveries, r.Harmless) → Sound d)
    (fun d e hg => step_lasting lasting_sound e fun pkt hpkt h =>
      h.doProcess (by subst hpkt; exact hg)) given
    (fun _ => ready.sound) harmless
  exact ⟨hs.rising,hs.cursor⟩

def liveConfig : DispatchConfig := ⟨lengthDigest,[1],[1],none,0,0,0,0⟩

def calmEnv : CallEnv := ⟨0,fun _ => 0,true,true,true,List.replicate 40 true,100,0⟩

def signedPacket (seqno : BitVec 32) : MediaPacket :=
  let pkt := { blank with seqno, payload := [7] }
  { pkt with antiPollutionSignature := SecurityPolicy.signatureMediapacket lengthDigest pkt [1] }

/-- A parity packet with number 30, which a server would compute over the numbers 0, 2, .., 28 and
which was computed over these numbers instead. -/
def parityOver (seqnos : List (BitVec 32)) : MediaPacket :=
  let bufs := seqnos.map fun k => (signedPacket k).buffer
  let sum := bufs.foldl PacketFec.addTo []
  let payload := sum ++ BigEndianBytes.beBytes 4 (bufs.foldl
    (fun len b => len ^^^ BitVec.ofNat 32 b.length) (BitVec.ofNat 32 (sum.length+4))).toNat
  SecurityPolicy.casMediapacket lengthDigest
    { FecEncoder.parityPacket payload with seqno := 30 } [1]

def evens : List (BitVec 32) := (List.range 14).map fun i => BitVec.ofNat 32 (2 * i + 2)

/-- The packets 2, 4, .., 28 and a parity packet, as they are received after 0 was lost. -/
def received (parity : MediaPacket) : List MediaPacket := evens.map signedPacket ++ [parity]

def playing : MediaDispatcher 5 :=
  ⟨[],[],[],0,none,true,true,0,.create 5 0 true,[],[],[]⟩

/-- The packets come in, memory packet cache included, and the dispatcher is stopped. -/
def lossRun (parity : MediaPacket) : List (Event 5) :=
  .memory ((received parity).foldl (fun b p => (b.insert p 0 none).1) (.create 5 0 true)) ::
    ((received parity).map Event.recvd ++ [.stop calmEnv])

theorem playing_ready : playing.Ready 0 := ⟨rfl,rfl,0,.nil,by decide⟩

/-- A parity packet over 1, 2, 4, .., 28 lets the attempt to recover 0 bring in 1. The flush then
dispatches 2, erases 1, and dispatches 2 once more. -/
theorem recovered_neighbour_dispatched_twice : playing.Ready 0 ∧
    AlongRun (step liveConfig) Given (playing.setSmallestSeqnoICare 0) (lossRun (parityOver (1::evens))) ∧
    (((lossRun (parityOver (1::evens))).foldl (step liveConfig)
      (playing.setSmallestSeqnoICare 0)).dispatched.map seqno).take 3 = [2,2,4] :=
  ⟨playing_ready,by decide +kernel,by decide +kernel⟩

/-- With the true parity packet 0 is recovered and everything is dispatched in order. -/
theorem loss_recovered_in_order : ((lossRun (parityOver (0::evens))).foldl (step liveConfig)
      (playing.setSmallestSeqnoICare 0)).dispatched.map seqno = 0 :: (evens ++ [30]) ∧
    ((lossRun (parityOver (0::evens))).foldl (step liveConfig)
      (playing.setSmallestSeqnoICare 0)).dispatched.IsChain
        (fun p q => wrappableLess p.seqno q.seqno = true) :=
  ⟨by decide +kernel,(media_dispatched_in_order liveConfig playing 0 playing_ready
    (lossRun (parityOver (0::evens))) (by decide +kernel) (by decide +kernel)).1⟩

end MediaDispatcher
end P2Streaming
