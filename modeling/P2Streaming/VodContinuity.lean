import P2Streaming.MediaDispatchOrder

/-!
# A vod player gets its film without gaps

From the timer a vod dispatcher hands out only the number cared about, so its player gets the
numbers from the start on without omission. The flush of `stop` has no such test. Packets of
the system level or of the text channel take a number of the stream but are handed out in
another way.
-/
namespace P2Streaming
open SecurityPolicy WrappableInteger BoundedLoops SerialMaps TransitionRuns List

/-- The numbers of a list of packets follow each other from `k` on. -/
def Consecutive : BitVec 32 → List MediaPacket → Prop
  | _, [] => True
  | k, p :: rest => p.seqno = k ∧ Consecutive (k+1) rest

instance Consecutive.decidable : ∀ k l, Decidable (Consecutive k l)
  | _, [] => .isTrue trivial
  | k, _ :: rest => @instDecidableAnd _ _ _ (Consecutive.decidable (k+1) rest)

variable {l : List MediaPacket} {k : BitVec 32}

theorem consecutive_concat {p : MediaPacket} :
    Consecutive k (l ++ [p]) ↔ Consecutive k l ∧ p.seqno = k + BitVec.ofNat 32 l.length := by
  induction l generalizing k with
  | nil => simp [Consecutive]
  | cons q rest ih =>
    have hk : k + 1 + BitVec.ofNat 32 rest.length = k + BitVec.ofNat 32 (rest.length+1) := by
      rw [Nat.add_comm rest.length,BitVec.ofNat_add,← BitVec.add_assoc]
      rfl
    rw [cons_append,Consecutive,ih,Consecutive,length_cons,hk,and_assoc]

theorem Consecutive.number (h : Consecutive k l)
    {p : MediaPacket} (hp : p∈l) : ∃ i<l.length, p.seqno = k + BitVec.ofNat 32 i := by
  induction l generalizing k with
  | nil => cases hp
  | cons q rest ih =>
    rcases mem_cons.mp hp with rfl | hp
    · exact ⟨0,by simp,by simp [h.1]⟩
    · obtain ⟨i,hi,hseq⟩ := ih h.2 hp
      refine ⟨i+1,by simpa using hi,?_⟩
      rw [hseq,Nat.add_comm i,BitVec.ofNat_add,← BitVec.add_assoc]
      rfl

def MediaPacket.Plain (p : MediaPacket) : Prop :=
  p.level = .userLevel ∧ p.channelId≠txtBroadcastChannel

instance (p : MediaPacket) : Decidable p.Plain := inferInstanceAs (Decidable (_ ∧ _))

/-- What the player should be called with for a packet of a film that starts at `first`. -/
def filmCalls (cfg : DispatchConfig) (first last : BitVec 32) (p : MediaPacket) : List PlayerCall :=
  let payload := p.dispatchedPayload cfg.md5 cfg.casString
  let data :=
    if p.seqno=first then payload.drop (min (cfg.offset % pieceSize) payload.length) else payload
  .onRecvdMedia data p.srcId32 p.channelId ::
    if p.seqno=last then [.onMediaEnd p.srcId32 p.channelId] else []

def PlayerCall.isMediaEnd : PlayerCall → Bool
  | .onMediaEnd _ _ => true
  | _ => false

theorem countP_filmCalls (cfg : DispatchConfig) (first last : BitVec 32) (p : MediaPacket) :
    (filmCalls cfg first last p).countP PlayerCall.isMediaEnd = if p.seqno=last then 1 else 0 := by
  unfold filmCalls
  by_cases h : p.seqno = last <;> simp [h,PlayerCall.isMediaEnd]

theorem countP_film_le_one (cfg : DispatchConfig) (first last : BitVec 32) (h : Consecutive k l)
    (hlen : l.length<2^32) :
    (l.flatMap (filmCalls cfg first last)).countP PlayerCall.isMediaEnd ≤ 1 := by
  induction l generalizing k with
  | nil => simp
  | cons p rest ih =>
    rw [length_cons] at hlen
    have hrest := ih h.2 (by omega)
    rw [flatMap_cons,countP_append,countP_filmCalls]
    by_cases hp : p.seqno=last
    · have hnone : (rest.flatMap (filmCalls cfg first last)).countP PlayerCall.isMediaEnd = 0 := by
        refine countP_eq_zero.mpr fun x hx => ?_
        obtain ⟨q,hq,hx⟩ := mem_flatMap.mp hx
        obtain ⟨i,hi,hseq⟩ := h.2.number hq
        have hne : q.seqno≠last := by
          rw [hseq,← hp,h.1]
          bv_omega
        have hzero := countP_filmCalls cfg first last q
        rw [if_neg hne] at hzero
        exact countP_eq_zero.mp hzero x hx
      rw [if_pos hp,hnone]
    · rw [if_neg hp]
      omega

namespace MediaDispatcher

variable {n : ℕ} {cfg : DispatchConfig} {first last : BitVec 32} {d : MediaDispatcher n} {p : MediaPacket}

theorem push_calls (vod : cfg.vodMaxSeqno = some last) (hmin : d.minSeqno=first) (plain : p.Plain)
    (hp : ahead first p.seqno < 2^31) : (d.push cfg p).calls = d.calls ++ filmCalls cfg first last p := by
  have hroute : dispatchRoute p = .media := by simp [dispatchRoute,plain.1]
  have hno : ¬ wrappableLess p.seqno first = true := by
    rw [wrappableLess_origin (w := 31)]
    omega
  have hcalls : ∀ e : MediaDispatcher n, e.minSeqno=first →
      dispatchMediaPacket cfg e (casMediapacket cfg.md5 p cfg.casString) =
      filmCalls cfg first last p := by
    intro e he
    unfold dispatchMediaPacket
    rw [vod]
    rw [he]
    exact if_neg hno
  unfold push
  dsimp only [dispatch]
  rw [hroute]
  split_ifs
  · exact congrArg (d.calls ++ ·) (hcalls _ hmin)
  · exact congrArg (d.calls ++ ·) (hcalls _ hmin)

theorem push_rest (cfg : DispatchConfig) (d : MediaDispatcher n) (p : MediaPacket) :
    (d.push cfg p).minSeqno = d.minSeqno ∧ (d.push cfg p).fecMediaPktCache = d.fecMediaPktCache ∧
      (d.push cfg p).txtPktCache = d.txtPktCache := by
  unfold push
  split_ifs <;> exact ⟨rfl,rfl,rfl⟩

/-- A film runs from `first` on: what has been dispatched, and what the map holds. `Pool` tells
where packets come from. -/
structure Streaming (cfg : DispatchConfig) (first last : BitVec 32) (Pool : MediaPacket → Prop)
    (d : MediaDispatcher n) : Prop where
  minSeqno : d.isPlayerStarted=true → d.minSeqno=first
  idle : d.isPlayerStarted=false → d.dispatched=[]
  noTxt : d.txtPktCache=[]
  plain : ∀ p∈d.mediaPktToPlayerCache, p.Plain
  window : Window MediaPacket.seqno first (2^31 - 1) d.mediaPktToPlayerCache
  above : ∀ p∈d.mediaPktToPlayerCache, d.dispatched.length ≤ ahead first p.seqno
  cursor : d.smallestSeqnoICare = first + BitVec.ofNat 32 d.dispatched.length
  short : d.dispatched.length<2^31
  numbers : Consecutive first d.dispatched
  pool : ∀ p, p∈d.mediaPktToPlayerCache ∨ p∈d.dispatched → Pool p
  calls : d.calls = d.dispatched.flatMap (filmCalls cfg first last)

variable {Pool : MediaPacket → Prop}

theorem ahead_place {k : ℕ} (hk : k<2^31) : ahead first (first + BitVec.ofNat 32 k) = k := by
  unfold ahead
  have hsub : first + BitVec.ofNat 32 k - first = BitVec.ofNat 32 k := by ring
  rw [hsub,BitVec.toNat_ofNat,Nat.mod_eq_of_lt (by omega)]

variable {rest : List MediaPacket}

theorem Streaming.push (vod : cfg.vodMaxSeqno = some last)
    (h : Streaming cfg first last Pool d) (started : d.isPlayerStarted=true)
    (head : d.mediaPktToPlayerCache = p :: rest)
    (due : p.seqno=d.smallestSeqnoICare) : Streaming cfg first last Pool (d.push cfg p) := by
  have hmem : p∈d.mediaPktToPlayerCache := by simp [head]
  have hplace : p.seqno = first + BitVec.ofNat 32 d.dispatched.length := due.trans h.cursor
  have hahead : ahead first p.seqno = d.dispatched.length := by rw [hplace,ahead_place h.short]
  have hbound := h.window.bounded p hmem
  have hw := h.window
  rw [head] at hw
  obtain ⟨hmin,-,htxt⟩ := push_rest cfg d p
  have hrest : (d.push cfg p).mediaPktToPlayerCache = rest := by rw [push_cache,head,tail_cons]
  have hge : wrappableGreaterEqual p.seqno d.smallestSeqnoICare = true := by
    rw [due,wrappableGreaterEqual,wrappableLess_self]
    rfl
  have hlen : (d.push cfg p).dispatched.length = d.dispatched.length+1 := by simp
  have hstep : ∀ q∈rest, q∈d.mediaPktToPlayerCache := by
    intro q hq
    rw [head]
    exact mem_cons_of_mem p hq
  constructor
  case minSeqno => exact fun _ => hmin.trans (h.minSeqno started)
  case idle =>
    intro hno
    rw [push_started,started] at hno
    cases hno
  case noTxt => exact htxt.trans h.noTxt
  case plain =>
    rw [hrest]
    exact fun q hq => h.plain q (hstep q hq)
  case window =>
    rw [hrest]
    exact hw.tail
  case above =>
    rw [hrest,hlen]
    intro q hq
    have := hw.head_lt hq
    omega
  case cursor =>
    rw [push_cursor,if_pos hge,hlen,hplace,BitVec.ofNat_add,← BitVec.add_assoc]
    rfl
  case short =>
    omega
  case numbers =>
    rw [push_dispatched,consecutive_concat]
    exact ⟨h.numbers,hplace⟩
  case pool =>
    rw [hrest,push_dispatched]
    rintro q (hq | hq)
    · exact h.pool q (.inl (hstep q hq))
    · rcases mem_append.mp hq with hq | hq
      · exact h.pool q (.inr hq)
      · obtain rfl := mem_singleton.mp hq
        exact h.pool q (.inl hmem)
  case calls =>
    rw [push_calls vod (h.minSeqno started) (h.plain p hmem) (by omega),h.calls,push_dispatched]
    simp

theorem vod_timerTurn (vod : cfg.vodMaxSeqno = some last) (env : CallEnv) (maxPush : ℤ)
    (s t : LoopState n)
    (h : timerTurn cfg env maxPush s = .again t ∨ timerTurn cfg env maxPush s = .leave t) :
    t.d=s.d ∨ ∃ p rest, s.d.mediaPktToPlayerCache = p :: rest ∧
      p.seqno = s.d.smallestSeqnoICare ∧ t.d = s.d.push cfg p := by
  unfold timerTurn at h
  split at h
  · rcases h with h | h
    · cases h
    · exact .inl (by rw [← Turn.leave.inj h])
  rename_i p rest head
  dsimp only at h
  split_ifs at h with _ hplay older gap hc
  · rcases h with h | h
    · cases h
    · exact .inl (by rw [← Turn.leave.inj h])
  · rcases h with h | h
    · cases h
    · exact .inl (by rw [← Turn.leave.inj h])
  all_goals
    have hdue : p.seqno=s.d.smallestSeqnoICare := by
      simp only [beAboutToPlay,vod,Bool.not_eq_true',Bool.and_eq_false_iff,not_or,
        Bool.not_eq_false,beq_iff_eq] at hplay
      exact hplay.1.1.symm
  · rw [hdue,wrappableLess_self] at older
    cases older
  · rw [hdue,wrappableLess_self] at gap
    cases gap
  · rw [hdue,wrappableLess_self] at gap
    cases gap
  · refine .inr ⟨p,rest,head,hdue,?_⟩
    rcases pushInTimer_eq cfg maxPush { s with answers := s.answers.tail } p with he | he
    · rw [he] at h
      rcases h with h | h
      · rw [← Turn.again.inj h]
        rfl
      · cases h
    · rw [he] at h
      rcases h with h | h
      · cases h
      · rw [← Turn.leave.inj h]
        rfl

def Running (cfg : DispatchConfig) (first last : BitVec 32) (Pool : MediaPacket → Prop)
    (d : MediaDispatcher n) : Prop :=
  d.isPlayerStarted=true ∧ Streaming cfg first last Pool d

theorem Running.push (vod : cfg.vodMaxSeqno = some last) (h : Running cfg first last Pool d)
    (head : d.mediaPktToPlayerCache = p :: rest) (due : p.seqno=d.smallestSeqnoICare) :
    Running cfg first last Pool (d.push cfg p) :=
  ⟨(push_started d p).trans h.1,h.2.push vod h.1 head due⟩

theorem Running.timerTurn (vod : cfg.vodMaxSeqno = some last) (env : CallEnv) (maxPush : ℤ)
    (s t : LoopState n) (hs : Running cfg first last Pool s.d)
    (h : timerTurn cfg env maxPush s = .again t ∨ timerTurn cfg env maxPush s = .leave t) :
    Running cfg first last Pool t.d := by
  rcases vod_timerTurn vod env maxPush s t h with hd | ⟨p,rest,head,due,hd⟩
  · rw [hd]
    exact hs
  · rw [hd]
    exact hs.push vod head due

theorem Running.dispatchMedia (vod : cfg.vodMaxSeqno = some last) (env : CallEnv) (maxPush : ℤ)
    (h : Running cfg first last Pool d) :
    Running cfg first last Pool (d.dispatchMedia cfg env maxPush) :=
  (leaves_of_advances (timerTurn_advances env maxPush) d env).rule
    (fun s => Running cfg first last Pool s.d) (fun s => Running cfg first last Pool s.d)
    (fun s t hs ht => hs.timerTurn vod env maxPush s t (.inl ht))
    (fun s t hs ht => hs.timerTurn vod env maxPush s t (.inr ht)) h

theorem flushTurn_of_consecutive (env : CallEnv) (s : LoopState n)
    (h : Consecutive s.d.smallestSeqnoICare s.d.mediaPktToPlayerCache) :
    flushTurn cfg env s = .leave s ∨ ∃ p rest, s.d.mediaPktToPlayerCache = p :: rest ∧
      p.seqno = s.d.smallestSeqnoICare ∧ flushTurn cfg env s = .again (s.push cfg p) := by
  unfold flushTurn
  split
  · exact .inl rfl
  rename_i p rest head
  rw [head] at h
  have hno : ¬ wrappableLess s.d.smallestSeqnoICare p.seqno = true := by simp [h.1]
  exact .inr ⟨p,rest,head,h.1,if_neg hno⟩

theorem push_consecutive (head : d.mediaPktToPlayerCache = p :: rest)
    (h : Consecutive d.smallestSeqnoICare d.mediaPktToPlayerCache) :
    Consecutive (d.push cfg p).smallestSeqnoICare (d.push cfg p).mediaPktToPlayerCache := by
  rw [head] at h
  have hge : wrappableGreaterEqual p.seqno d.smallestSeqnoICare = true := by
    rw [h.1,wrappableGreaterEqual,wrappableLess_self]
    rfl
  rw [push_cursor,if_pos hge,push_cache,head,tail_cons,h.1]
  exact h.2

theorem Running.stop (vod : cfg.vodMaxSeqno = some last) (env : CallEnv)
    (h : Running cfg first last Pool d)
    (gapFree : Consecutive d.smallestSeqnoICare d.mediaPktToPlayerCache) :
    Running cfg first last Pool (loop (flushTurn cfg env) d.turns (d.loopStart env)).d := by
  refine (leaves_of_advances (flushTurn_advances env) d env).rule
    (fun s => Running cfg first last Pool s.d ∧
      Consecutive s.d.smallestSeqnoICare s.d.mediaPktToPlayerCache)
    (fun s => Running cfg first last Pool s.d) ?_ ?_ ⟨h,gapFree⟩
  · rintro s t ⟨hs,hcons⟩ ht
    rcases flushTurn_of_consecutive env s hcons with he | ⟨p,rest,head,due,he⟩
    · rw [he] at ht
      cases ht
    · rw [he] at ht
      obtain rfl := Turn.again.inj ht
      exact ⟨hs.push vod head due,push_consecutive head hcons⟩
  · rintro s t ⟨hs,hcons⟩ ht
    rcases flushTurn_of_consecutive env s hcons with he | ⟨p,rest,head,due,he⟩
    · rw [he] at ht
      obtain rfl := Turn.leave.inj ht
      exact hs
    · rw [he] at ht
      cases ht

/-- What keeps a film without gaps: packets carry pieces of it and lie in half the ring above its
start or below the cursor, and nothing is flushed across a gap. -/
def FilmGiven (first : BitVec 32) (d : MediaDispatcher n) : Event n → Prop
  | .recvd pkt => pkt.Plain ∧
      (ahead first pkt.seqno + 1 < 2^31 ∨ wrappableLess pkt.seqno d.smallestSeqnoICare = true)
  | .stop _ => d.flush = true → d.isPlayerStarted=true →
      Consecutive d.smallestSeqnoICare d.mediaPktToPlayerCache
  | _ => True

theorem doProcess_plain (d : MediaDispatcher n) {pkt : MediaPacket} (plain : pkt.Plain) :
    d.doProcessRecvdMediaPacket pkt = d.keepForPlayer pkt := by
  simp [doProcessRecvdMediaPacket,plain.1,plain.2]

theorem Streaming.keepForPlayer (h : Streaming cfg first last Pool d)
    {pkt : MediaPacket} (hpool : Pool pkt) (given : d.FilmGiven first (.recvd pkt)) :
    Streaming cfg first last Pool (d.keepForPlayer pkt) := by
  obtain ⟨plain,hplace⟩ := given
  unfold MediaDispatcher.keepForPlayer
  split_ifs with hge
  · have hnew : ¬ wrappableLess pkt.seqno d.smallestSeqnoICare = true := by
      simpa [wrappableGreaterEqual] using hge
    have hahead : ahead first pkt.seqno + 1 < 2^31 := hplace.resolve_right hnew
    have hcursor : ahead first d.smallestSeqnoICare = d.dispatched.length := by
      rw [h.cursor,ahead_place h.short]
    rw [wrappableLess_iff_ahead_lt (o := first) (by omega) (by have := h.short; omega)] at hnew
    have hmem : ∀ q, q ∈ SerialMaps.insert MediaPacket.seqno pkt d.mediaPktToPlayerCache →
        q = pkt ∨ q∈d.mediaPktToPlayerCache := fun q => mem_insert MediaPacket.seqno
    refine { h with plain := ?_, window := ?_, above := ?_, pool := ?_ }
    · intro q hq
      rcases hmem q hq with rfl | hq
      · exact plain
      · exact h.plain q hq
    · exact h.window.insert (by decide) (by omega)
    · intro q hq
      rcases hmem q hq with rfl | hq
      · dsimp only
        omega
      · exact h.above q hq
    · rintro q (hq | hq)
      · rcases hmem q hq with rfl | hq
        · exact hpool
        · exact h.pool q (.inl hq)
      · exact h.pool q (.inr hq)
  · exact h

theorem dispatchTxt_of_nil (h : d.txtPktCache=[]) : d.dispatchTxt cfg = d := by
  obtain ⟨cache,fec,txt,cur,ctxt,started,flush,mn,mem,disp,rec,calls⟩ := d
  obtain rfl : txt=[] := h
  rfl

theorem Streaming.start (h : Streaming cfg first last Pool d)
    (hcur : d.smallestSeqnoICare=first) : Streaming cfg first last Pool
      { d with isPlayerStarted := true, minSeqno := d.smallestSeqnoICare } where
  minSeqno := fun _ => hcur
  idle := nofun
  noTxt := h.noTxt
  plain := h.plain
  window := h.window
  above := h.above
  cursor := h.cursor
  short := h.short
  numbers := h.numbers
  pool := h.pool
  calls := h.calls

theorem Streaming.onDispatchTimer (vod : cfg.vodMaxSeqno = some last) (env : CallEnv)
    (h : Streaming cfg first last Pool d) :
    Streaming cfg first last Pool (d.onDispatchTimer cfg env) := by
  unfold MediaDispatcher.onDispatchTimer
  dsimp only
  rw [dispatchTxt_of_nil h.noTxt]
  split_ifs with _ started
  · exact h
  · exact (Running.dispatchMedia vod env env.maxPush ⟨started,h⟩).2
  · split
    · exact h
    · rename_i d' hd'
      have hno := h.idle (Bool.eq_false_of_not_eq_true started)
      have hcur : d.smallestSeqnoICare=first := by simpa [hno] using h.cursor
      have hd : d' = { d with isPlayerStarted := true, minSeqno := d.smallestSeqnoICare } := by
        rw [canPlayerStart,vod] at hd'
        dsimp only at hd'
        split_ifs at hd'
        exact (Option.some.inj hd').symm
      subst hd
      exact (Running.dispatchMedia vod env 100 ⟨rfl,h.start hcur⟩).2

theorem Streaming.step (vod : cfg.vodMaxSeqno = some last) (d : MediaDispatcher n) (e : Event n)
    (given : d.FilmGiven first e ∧ ∀ pkt, e = .recvd pkt → Pool pkt)
    (h : Streaming cfg first last Pool d) : Streaming cfg first last Pool (d.step cfg e) := by
  obtain ⟨hfilm,hpool⟩ := given
  cases e with
  | recvd pkt =>
    rw [MediaDispatcher.step,doProcess_plain d hfilm.1]
    exact h.keepForPlayer (hpool pkt rfl) hfilm
  | memory cache => exact { h with }
  | setFlush flush => exact { h with }
  | timer env => exact h.onDispatchTimer vod env
  | stop env =>
    rw [MediaDispatcher.step,MediaDispatcher.stop]
    split_ifs with hc
    · simp only [Bool.and_eq_true] at hc
      exact (Running.stop vod env ⟨hc.1.2,h⟩ (hfilm hc.1.1 hc.1.2)).2
    · exact h

/-- A vod dispatcher that waits with its cursor at `first` for its player to start. -/
structure Waiting (first : BitVec 32) (d : MediaDispatcher n) : Prop where
  idle : d.isPlayerStarted=false
  cursor : d.smallestSeqnoICare=first
  noTxt : d.txtPktCache=[]
  plain : ∀ p∈d.mediaPktToPlayerCache, p.Plain
  window : Window MediaPacket.seqno first (2^31 - 1) d.mediaPktToPlayerCache
  dispatched : d.dispatched=[]
  calls : d.calls=[]

theorem Waiting.streaming (h : Waiting first d)
    (hpool : ∀ p∈d.mediaPktToPlayerCache, Pool p) : Streaming cfg first last Pool d where
  minSeqno := fun hs => by
    rw [h.idle] at hs
    cases hs
  idle := fun _ => h.dispatched
  noTxt := h.noTxt
  plain := h.plain
  window := h.window
  above := fun p _ => by simp [h.dispatched]
  cursor := by simp [h.dispatched,h.cursor]
  short := by simp [h.dispatched]
  numbers := by
    rw [h.dispatched]
    trivial
  pool := fun p hp => hp.elim (hpool p) fun hp => by simp [h.dispatched] at hp
  calls := by simp [h.dispatched,h.calls]

/-- In every run of a vod dispatcher that is given pieces of the film only and flushes across no
gap, the player gets the payloads of consecutive numbers from the start on, the first one
shortened, all of them from packets that were given; the end is reported once at most, right
after the payload of the last number. -/
theorem vod_stream_gap_free (cfg : DispatchConfig) (last : BitVec 32)
    (vod : cfg.vodMaxSeqno = some last) (first : BitVec 32) (d : MediaDispatcher n)
    (waiting : d.Waiting first) (es : List (Event n))
      (given : AlongRun (step cfg) (FilmGiven first) d es) :
    ∃ pkts : List MediaPacket, Consecutive first pkts ∧
      (∀ p∈pkts, p∈d.mediaPktToPlayerCache ∨ Event.recvd p ∈ es) ∧
      (es.foldl (step cfg) d).calls = pkts.flatMap (filmCalls cfg first last) ∧
      (es.foldl (step cfg) d).calls.countP PlayerCall.isMediaEnd ≤ 1 := by
  have hrun : AlongRun (step cfg) (fun d e => d.FilmGiven first e ∧ e∈es) d es := given.and_mem
  have h := invariant_of_run (Streaming cfg first last
      fun p => p ∈ d.mediaPktToPlayerCache ∨ Event.recvd p ∈ es)
    (fun d e he => Streaming.step vod d e ⟨he.1,fun pkt hpkt => .inr (hpkt ▸ he.2)⟩)
    hrun (waiting.streaming fun p hp => .inl hp)
  refine ⟨_,h.numbers,fun p hp => h.pool p (.inr hp),h.calls,?_⟩
  have hshort := h.short
  rw [h.calls]
  exact countP_film_le_one cfg first last h.numbers (by omega)

def filmConfig : DispatchConfig := ⟨lengthDigest,[1],[1],some 3,100,0,3,1000⟩

def atStart : MediaDispatcher 5 :=
  ⟨[],[],[],0,none,false,false,0,.create 5 0 true,[],[],[]⟩

theorem atStart_waiting : atStart.Waiting 0 := ⟨rfl,rfl,rfl,by simp [atStart],.nil,rfl,rfl⟩

/-- Pieces come in, the player starts, and the dispatcher is flushed. -/
def filmRun (seqnos : List (BitVec 32)) : List (Event 5) :=
  seqnos.map (fun k => .recvd (signedPacket k)) ++ [.timer calmEnv,.setFlush true,.stop calmEnv]

instance (first : BitVec 32) (d : MediaDispatcher n) : ∀ e, Decidable (d.FilmGiven first e)
  | .recvd pkt => inferInstanceAs (Decidable (pkt.Plain ∧ _))
  | .stop _ => inferInstanceAs (Decidable (d.flush=true → d.isPlayerStarted=true → _))
  | .memory _ => .isTrue trivial
  | .setFlush _ => .isTrue trivial
  | .timer _ => .isTrue trivial

/-- Piece 1 is missing: the player gets piece 0 from the timer and piece 2 from the flush. -/
theorem flush_leaves_gap : atStart.Waiting 0 ∧ (signedPacket 0).Plain ∧ (signedPacket 2).Plain ∧
    ((filmRun [0,2]).foldl (step filmConfig) atStart).calls =
      filmCalls filmConfig 0 3 (signedPacket 0) ++ filmCalls filmConfig 0 3 (signedPacket 2) := by
  refine ⟨atStart_waiting,⟨rfl,?_⟩,⟨rfl,?_⟩,?_⟩
  · decide +kernel
  · decide +kernel
  · decide +kernel

theorem film_without_gap : ((filmRun [2,0,1,2,3]).foldl (step filmConfig) atStart).calls.length = 5 ∧
    ((filmRun [2,0,1,2,3]).foldl (step filmConfig) atStart).calls.countP PlayerCall.isMediaEnd ≤ 1 := by
  obtain ⟨-,-,-,-,hend⟩ := vod_stream_gap_free filmConfig 3 rfl 0 atStart atStart_waiting
    (filmRun [2,0,1,2,3]) (by decide +kernel)
  exact ⟨by decide +kernel,hend⟩

end MediaDispatcher
end P2Streaming
