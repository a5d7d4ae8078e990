import P2Streaming.BoundedLoops
import P2Streaming.KeyedSets
import P2Streaming.TransitionRuns
import Mathlib.Algebra.Order.Ring.Int

/-!
# The seeds of the server

`media_distributor` keeps the connections to its seeds in two sets ordered by score, and each
connection knows by its type which of them it belongs to. A score that changed inside a set
would put the set out of order; the model then has no next state.
-/
namespace P2Streaming
open BoundedLoops KeyedSets TransitionRuns Function List

inductive SeedType where
  | seed | superSeed
  deriving DecidableEq

structure SeedParam where
  seedPeerCnt : ℕ
  minSuperSeedPeerCnt : ℤ

/-- `media_distributor` and its seed connections. Connections are ordered by their addresses;
times are in milliseconds. -/
structure SeedPeers (Conn Score : Type*) where
  running : Bool
  superSeedPeers : List Conn
  seedPeers : List Conn
  score : Conn → Score
  type : Conn → SeedType
  beSuperSeedTimestamp : Conn → ℕ
  lastChangeSuperSeedTime : ℕ
  lastEraseSuperSeedTime : ℕ
  pieceNotifyTimes : ℕ

/-- What `distribution_push` finds: the integer parts of the push multiple and of the number
of copies, and for each connection whether it is connected, whether its alive probability is
zero, whether it is alive enough and loses little, and its network. -/
structure PushState (Conn : Type*) where
  now : ℕ
  multiple : ℤ
  copies : ℤ
  connected : Conn → Bool
  dead : Conn → Bool
  good : Conn → Bool
  ip : Conn → ℕ

namespace SeedPeers

variable {Conn Score : Type*} [LinearOrder Conn] [LinearOrder Score] [Zero Score]

variable (x : SeedPeers Conn Score)

def setSeed (c : Conn) : SeedPeers Conn Score :=
  { x with type := update x.type c .seed }

def setSuperSeed (now : ℕ) (c : Conn) : SeedPeers Conn Score :=
  { x with
    type := update x.type c .superSeed
    beSuperSeedTimestamp := update x.beSuperSeedTimestamp c now }

def setScore (c : Conn) (v : Score) : Option (SeedPeers Conn Score) :=
  if c∈x.superSeedPeers ∨ c∈x.seedPeers then none else some { x with score := update x.score c v }

def insertSeed (c : Conn) : SeedPeers Conn Score :=
  { x with seedPeers := insert x.score c x.seedPeers }

def insertSuperSeed (c : Conn) : SeedPeers Conn Score :=
  { x with superSeedPeers := insert x.score c x.superSeedPeers }

def stop : SeedPeers Conn Score :=
  if x.running then { x with running := false, superSeedPeers := [], seedPeers := [] } else x

def start (now : ℕ) (x : SeedPeers Conn Score) : SeedPeers Conn Score :=
  { x.stop with running := true, lastEraseSuperSeedTime := now }

/-- `try_accept_seed` for `seed_peers_`. -/
def tryAcceptSeed (c : Conn) (maxCnt : ℕ) : SeedPeers Conn Score × Bool :=
  if ¬ x.running then (x, false)
  else if x.seedPeers.length < maxCnt then
    if contains x.score c x.seedPeers then (x, false) else (x.insertSeed c, true)
  else (x, false)

/-- A connection is made, with the score of the constructor, and handed to `on_accepted`. -/
def onAccepted (p : SeedParam) (initial : Score) (x : SeedPeers Conn Score) (c : Conn) (ok : Bool) :
    Option (SeedPeers Conn Score) :=
  (x.setScore c initial).map fun x =>
    if ¬ x.running ∨ ¬ ok then x
    else
      let (x, accepted) := x.tryAcceptSeed c p.seedPeerCnt
      if accepted then x.setSeed c else x

def onDisconnected (c : Conn) : SeedPeers Conn Score :=
  if ¬ x.running then x
  else
    match x.type c with
    | .superSeed => { x with superSeedPeers := erase x.score c x.superSeedPeers }
    | .seed => { x with seedPeers := erase x.score c x.seedPeers }

/-- `on_check_seed_peer_timer`; `outweighs` compares a score with another one times 1.5. -/
def onCheckSeedPeerTimer (outweighs : Score → Score → Bool) (x : SeedPeers Conn Score) (now : ℕ) :
    SeedPeers Conn Score :=
  if x.running ∧ x.lastChangeSuperSeedTime+3000<now then
    match x.seedPeers.getLast?, x.superSeedPeers.head? with
    | some c, some sc =>
      if outweighs (x.score c) (x.score sc) ∧ x.beSuperSeedTimestamp sc + 25000 < now then
        let x := { x with seedPeers := x.seedPeers.dropLast, superSeedPeers := x.superSeedPeers.tail }
        let x := (x.insertSuperSeed c).insertSeed sc
        { (x.setSuperSeed now c).setSeed sc with lastChangeSuperSeedTime := now }
      else x
    | _, _ => x
  else x

/-- `on_piece_notify_timer`, as far as it changes the sets. -/
def onPieceNotifyTimer (connected : Conn → Bool) (x : SeedPeers Conn Score) : SeedPeers Conn Score :=
  if ¬ x.running then x
  else
    let times := x.pieceNotifyTimes+1
    if times % 3 = 0 then { x with pieceNotifyTimes := times, seedPeers := x.seedPeers.filter connected }
    else { x with pieceNotifyTimes := times, superSeedPeers := x.superSeedPeers.filter connected }

/-- A turn of the first loop of `check_super_seed`. -/
def promoteBody (minSize : ℤ) (now : ℕ) (x : SeedPeers Conn Score) : Turn (SeedPeers Conn Score) :=
  if (x.superSeedPeers.length : ℤ) < minSize then
    match x.seedPeers.getLast? with
    | some c =>
      if 0 < x.score c then
        let x := { x with seedPeers := x.seedPeers.dropLast }
        .again ((x.insertSuperSeed c).setSuperSeed now c)
      else .leave x
    | none => .leave x
  else .leave x

/-- The end of `check_super_seed`. -/
def demote (maxSize : ℤ) (now : ℕ) (x : SeedPeers Conn Score) : SeedPeers Conn Score :=
  match x.superSeedPeers.head? with
  | some c =>
    if maxSize < (x.superSeedPeers.length : ℤ) ∧ x.lastEraseSuperSeedTime+10000<now ∧
        x.beSuperSeedTimestamp c + 50000 < now then
      let x := { x with superSeedPeers := x.superSeedPeers.tail }
      { (x.insertSeed c).setSeed c with lastEraseSuperSeedTime := now }
    else x
  | none => x

def checkSuperSeed (p : SeedParam) (x : SeedPeers Conn Score) (now : ℕ) (multiple : ℤ) :
    SeedPeers Conn Score :=
  let minSize := max (multiple+1) p.minSuperSeedPeerCnt
  let maxSize := max (2 * multiple + 1) minSize
  demote maxSize now (loop (promoteBody minSize now) (x.seedPeers.length+1) x)

/-- A turn of the loop of `distribution_push` over the super seeds, from the best one on, with
the copies left and the networks that have one. -/
def pushBody (env : PushState Conn) :
    SeedPeers Conn Score × ℤ × List ℕ → Conn → SeedPeers Conn Score × ℤ × List ℕ
  | (x, n, pushedIps), c =>
    if n≤0 then (x, n, pushedIps)
    else if ¬ env.connected c then ({ x with superSeedPeers := x.superSeedPeers.erase c }, n, pushedIps)
    else if env.dead c ∧ x.beSuperSeedTimestamp c + 8000 < env.now then
      let x := { x with superSeedPeers := x.superSeedPeers.erase c }
      ((x.setSeed c).insertSeed c, n, pushedIps)
    else if env.good c ∧ env.ip c ∉ pushedIps then (x, n - 1, env.ip c :: pushedIps)
    else (x, n, pushedIps)

/-- `distribution_push`; the copies for the candidates of the second loop are left out. -/
def distributionPush (p : SeedParam) (x : SeedPeers Conn Score) (env : PushState Conn) :
    SeedPeers Conn Score :=
  if x.superSeedPeers=[] ∧ x.seedPeers=[] then x
  else
    let x := x.checkSuperSeed p env.now env.multiple
    let n := min env.copies (x.superSeedPeers.length / 4 + 1 : ℕ)
    (x.superSeedPeers.reverse.foldl (pushBody env) (x, n, [])).1

/-- `on_recvd_info_report`, with the score it computes. -/
def onRecvdInfoReport (c : Conn) (v : Score) : Option (SeedPeers Conn Score) :=
  match x.type c with
  | .superSeed =>
    if contains x.score c x.superSeedPeers ∧ x.score c ≠ v then
      (setScore { x with superSeedPeers := erase x.score c x.superSeedPeers } c v).map fun x =>
        if v≤0 then (x.setSeed c).insertSeed c else x.insertSuperSeed c
    else some x
  | .seed =>
    if contains x.score c x.seedPeers ∧ x.score c ≠ v then
      (setScore { x with seedPeers := erase x.score c x.seedPeers } c v).map fun x => x.insertSeed c
    else some x

end SeedPeers

inductive SeedEvent (Conn Score : Type*) where
  | start (now : ℕ)
  | stop
  | accepted (c : Conn) (ok : Bool)
  | disconnected (c : Conn)
  | checkSeedPeerTimer (now : ℕ)
  | pieceNotifyTimer (connected : Conn → Bool)
  | checkSuperSeed (now : ℕ) (multiple : ℤ)
  | distributionPush (env : PushState Conn)
  | recvdInfoReport (c : Conn) (v : Score)

namespace SeedPeers

variable {Conn Score : Type*} [LinearOrder Conn] [LinearOrder Score]

structure Consistent (x : SeedPeers Conn Score) : Prop where
  superSorted : Sorted x.score x.superSeedPeers
  seedSorted : Sorted x.score x.seedPeers
  superType : ∀ c∈x.superSeedPeers, x.type c = .superSeed
  seedType : ∀ c∈x.seedPeers, x.type c = .seed

theorem getLast_not_mem {α : Type*} {c : α} {l : List α} (hl : l.Nodup) (hc : l.getLast? = some c) :
    c ∉ l.dropLast := by
  obtain ⟨l',rfl⟩ := List.getLast?_eq_some_iff.mp hc
  rw [dropLast_concat]
  exact fun hmem => (nodup_append.mp hl).2.2 c hmem c (mem_singleton_self c) rfl

theorem head_not_mem {α : Type*} {c : α} {l : List α} (hl : l.Nodup) (hc : l.head? = some c) :
    c ∉ l.tail := by
  obtain ⟨l',rfl⟩ := List.head?_eq_some_iff.mp hc
  exact (nodup_cons.mp hl).1

namespace Consistent

variable {x : SeedPeers Conn Score} {c : Conn} {p : SeedParam} {initial : Score}
  {outweighs : Score → Score → Bool}

section
variable (h : x.Consistent)
include h

theorem not_mem_seed (hc : c∈x.superSeedPeers) : c ∉ x.seedPeers := fun hc' =>
  nomatch (h.superType c hc).symm.trans (h.seedType c hc')

theorem leave {l l' : List Conn} (hl : l.Sublist x.superSeedPeers)
    (hl' : l'.Sublist x.seedPeers) : Consistent { x with superSeedPeers := l, seedPeers := l' } :=
  ⟨h.superSorted.sublist hl,h.seedSorted.sublist hl',fun c hc => h.superType c (hl.subset hc),
    fun c hc => h.seedType c (hl'.subset hc)⟩

theorem setSeed (hc : c ∉ x.superSeedPeers) : (x.setSeed c).Consistent := by
  refine ⟨h.superSorted,h.seedSorted,fun d hd => ?_,fun d hd => ?_⟩
  · have hne : d≠c := fun heq => hc (heq ▸ hd)
    exact (update_of_ne hne _ _).trans (h.superType d hd)
  · by_cases heq : d=c
    · rw [heq]
      exact update_self _ _ _
    · exact (update_of_ne heq _ _).trans (h.seedType d hd)

theorem setSuperSeed (now : ℕ) (hc : c ∉ x.seedPeers) : (x.setSuperSeed now c).Consistent := by
  refine ⟨h.superSorted,h.seedSorted,fun d hd => ?_,fun d hd => ?_⟩
  · by_cases heq : d=c
    · rw [heq]
      exact update_self _ _ _
    · exact (update_of_ne heq _ _).trans (h.superType d hd)
  · have hne : d≠c := fun heq => hc (heq ▸ hd)
    exact (update_of_ne hne _ _).trans (h.seedType d hd)

theorem insertSeed (htype : x.type c = .seed) : (x.insertSeed c).Consistent := by
  refine ⟨h.superSorted,h.seedSorted.insert c,h.superType,fun d hd => ?_⟩
  rcases mem_insert.mp hd with rfl | hd
  · exact htype
  · exact h.seedType d hd

theorem insertSuperSeed (htype : x.type c = .superSeed) : (x.insertSuperSeed c).Consistent := by
  refine ⟨h.superSorted.insert c,h.seedSorted,fun d hd => ?_,h.seedType⟩
  rcases mem_insert.mp hd with rfl | hd
  · exact htype
  · exact h.superType d hd

theorem enterSeed (hc : c ∉ x.superSeedPeers) : ((x.insertSeed c).setSeed c).Consistent :=
  (h.setSeed hc).insertSeed (update_self _ _ _)

theorem enterSuper (now : ℕ) (hc : c ∉ x.seedPeers) :
    ((x.insertSuperSeed c).setSuperSeed now c).Consistent :=
  (h.setSuperSeed now hc).insertSuperSeed (update_self _ _ _)

theorem setScore (hsuper : c ∉ x.superSeedPeers) (hseed : c ∉ x.seedPeers) (v : Score) :
    x.setScore c v = some { x with score := update x.score c v } ∧
      Consistent { x with score := update x.score c v } := by
  have hscore {l : List Conn} (hc : c ∉ l) : ∀ d∈l, x.score d = update x.score c v d := by
    intro d hd
    have hne : d≠c := fun heq => hc (heq ▸ hd)
    exact (update_of_ne hne _ _).symm
  exact ⟨if_neg (by simp [hsuper,hseed]),h.superSorted.congr (hscore hsuper),
    h.seedSorted.congr (hscore hseed),h.superType,h.seedType⟩

theorem stop : x.stop.Consistent := by
  unfold SeedPeers.stop
  split_ifs
  · have hleave := h.leave (nil_sublist _) (nil_sublist _)
    exact ⟨hleave.superSorted,hleave.seedSorted,hleave.superType,hleave.seedType⟩
  · exact h

theorem start (now : ℕ) : (x.start now).Consistent :=
  ⟨h.stop.superSorted,h.stop.seedSorted,h.stop.superType,h.stop.seedType⟩

theorem onAccepted (hsuper : c ∉ x.superSeedPeers) (hseed : c ∉ x.seedPeers) (ok : Bool) :
    ∃ y, x.onAccepted p initial c ok = some y ∧ y.Consistent := by
  obtain ⟨heq,hscore⟩ := h.setScore hsuper hseed initial
  obtain ⟨y,hy⟩ : ∃ y : SeedPeers Conn Score, { x with score := update x.score c initial } = y := ⟨_,rfl⟩
  have hsuper' : c ∉ y.superSeedPeers := by rw [← hy]; exact hsuper
  rw [hy] at heq hscore
  rw [SeedPeers.onAccepted,heq,Option.map_some]
  refine ⟨_,rfl,?_⟩
  unfold tryAcceptSeed
  split_ifs
  all_goals first
    | exact hscore.enterSeed hsuper'
    | exact hscore

theorem onDisconnected (c : Conn) : (x.onDisconnected c).Consistent := by
  unfold SeedPeers.onDisconnected
  split_ifs
  · split
    · exact h.leave (erase_sublist c _) (List.Sublist.refl _)
    · exact h.leave (List.Sublist.refl _) (erase_sublist c _)
  · exact h

theorem onCheckSeedPeerTimer (now : ℕ) : (x.onCheckSeedPeerTimer outweighs now).Consistent := by
  unfold SeedPeers.onCheckSeedPeerTimer
  split_ifs
  · split
    · rename_i c sc hc hsc
      split_ifs
      · have hout := h.leave (tail_sublist x.superSeedPeers) (dropLast_sublist x.seedPeers)
        have hin := hout.enterSuper now (getLast_not_mem h.seedSorted.nodup hc)
        have hne : sc≠c := by
          rintro rfl
          exact h.not_mem_seed (mem_of_head? hsc) (mem_of_getLast? hc)
        have hswap := hin.enterSeed (c := sc) fun hmem =>
          (mem_insert.mp hmem).elim hne (head_not_mem h.superSorted.nodup hsc)
        exact ⟨hswap.superSorted,hswap.seedSorted,hswap.superType,hswap.seedType⟩
      · exact h
    · exact h
  · exact h

theorem onPieceNotifyTimer (connected : Conn → Bool) :
    (x.onPieceNotifyTimer connected).Consistent := by
  unfold SeedPeers.onPieceNotifyTimer
  by_cases hrunning : x.running
  · dsimp only
    split_ifs
    · have hleave := h.leave (List.Sublist.refl _)
        (filter_sublist : (x.seedPeers.filter connected).Sublist _)
      exact ⟨hleave.superSorted,hleave.seedSorted,hleave.superType,hleave.seedType⟩
    · have hleave := h.leave (filter_sublist : (x.superSeedPeers.filter connected).Sublist _)
        (List.Sublist.refl _)
      exact ⟨hleave.superSorted,hleave.seedSorted,hleave.superType,hleave.seedType⟩
  · rw [if_pos hrunning]
    exact h

theorem demote (maxSize : ℤ) (now : ℕ) : (x.demote maxSize now).Consistent := by
  unfold SeedPeers.demote
  split
  · rename_i c hc
    split_ifs
    · have hout := h.leave (tail_sublist x.superSeedPeers) (List.Sublist.refl _)
      have hin := hout.enterSeed (head_not_mem h.superSorted.nodup hc)
      exact ⟨hin.superSorted,hin.seedSorted,hin.superType,hin.seedType⟩
    · exact h
  · exact h

end

theorem pushBody (env : PushState Conn) (rest : List Conn) (s : SeedPeers Conn Score × ℤ × List ℕ)
    (h : s.1.Consistent) : (rest.foldl (SeedPeers.pushBody env) s).1.Consistent := by
  induction rest generalizing s with
  | nil => exact h
  | cons c rest ih =>
    refine ih _ ?_
    obtain ⟨x,n,pushedIps⟩ := s
    have hout : Consistent { x with superSeedPeers := x.superSeedPeers.erase c } :=
      h.leave erase_sublist (List.Sublist.refl _)
    have hnot : c ∉ x.superSeedPeers.erase c := fun hmem =>
      ((List.Nodup.mem_erase_iff h.superSorted.nodup).mp hmem).1 rfl
    unfold SeedPeers.pushBody
    dsimp only
    split_ifs
    · exact h
    · exact hout.enterSeed hnot
    · exact h
    · exact h
    · exact hout

end Consistent

variable [Zero Score]

def handle (p : SeedParam) (initial : Score) (outweighs : Score → Score → Bool)
    (x : SeedPeers Conn Score) : SeedEvent Conn Score → Option (SeedPeers Conn Score)
  | .start now => some (x.start now)
  | .stop => some x.stop
  | .accepted c ok => x.onAccepted p initial c ok
  | .disconnected c => some (x.onDisconnected c)
  | .checkSeedPeerTimer now => some (x.onCheckSeedPeerTimer outweighs now)
  | .pieceNotifyTimer connected => some (x.onPieceNotifyTimer connected)
  | .checkSuperSeed now multiple => some (x.checkSuperSeed p now multiple)
  | .distributionPush env => some (x.distributionPush p env)
  | .recvdInfoReport c v => x.onRecvdInfoReport c v

def step (p : SeedParam) (initial : Score) (outweighs : Score → Score → Bool)
    (x : Option (SeedPeers Conn Score))
    (e : SeedEvent Conn Score) : Option (SeedPeers Conn Score) :=
  x.bind (handle p initial outweighs · e)

/-- A new connection is not where one of the sets has another one. -/
def NewConnection (x : Option (SeedPeers Conn Score)) : SeedEvent Conn Score → Prop
  | .accepted c _ => ∀ x'∈x, c ∉ x'.superSeedPeers ∧ c ∉ x'.seedPeers
  | _ => True

theorem promoteBody_again {minSize : ℤ} {now : ℕ} {x y : SeedPeers Conn Score}
    (hturn : promoteBody minSize now x = .again y) : ∃ c, x.seedPeers.getLast? = some c ∧
      y = (insertSuperSeed { x with seedPeers := x.seedPeers.dropLast } c).setSuperSeed now c := by
  unfold promoteBody at hturn
  split_ifs at hturn
  split at hturn
  · rename_i c hc
    split_ifs at hturn
    exact ⟨c,hc,(Turn.again.inj hturn).symm⟩
  · exact nomatch hturn

theorem promoteBody_leave {minSize : ℤ} {now : ℕ} {x y : SeedPeers Conn Score}
    (hturn : promoteBody minSize now x = .leave y) : y=x := by
  unfold promoteBody at hturn
  split_ifs at hturn
  · split at hturn
    · split_ifs at hturn
      exact (Turn.leave.inj hturn).symm
    · exact (Turn.leave.inj hturn).symm
  · exact (Turn.leave.inj hturn).symm

namespace Consistent

variable {x : SeedPeers Conn Score} {p : SeedParam} {initial : Score} {outweighs : Score → Score → Bool}

section
variable (h : x.Consistent)
include h

theorem checkSuperSeed (now : ℕ) (multiple : ℤ) :
    (x.checkSuperSeed p now multiple).Consistent := by
  refine demote ?_ _ _
  obtain ⟨minSize,hmin⟩ : ∃ m, max (multiple+1) p.minSuperSeedPeerCnt = m := ⟨_,rfl⟩
  rw [hmin]
  have hshrinks (y z : SeedPeers Conn Score) (hturn : promoteBody minSize now y = .again z) :
      z.seedPeers.length < y.seedPeers.length := by
    obtain ⟨c,hc,rfl⟩ := promoteBody_again hturn
    have hpos := length_pos_of_mem (mem_of_getLast? hc)
    change y.seedPeers.dropLast.length < _
    rw [length_dropLast]
    omega
  have hleaves := leaves_loop (fun y => y.seedPeers.length) hshrinks (x.seedPeers.length+1) x
    (Nat.lt_succ_self _)
  refine hleaves.rule Consistent Consistent (fun y z hy hturn => ?_) (fun y z hy hturn => ?_) h
  · obtain ⟨c,hc,rfl⟩ := promoteBody_again hturn
    have hout := hy.leave (List.Sublist.refl _) (dropLast_sublist y.seedPeers)
    exact hout.enterSuper now (getLast_not_mem hy.seedSorted.nodup hc)
  · rw [promoteBody_leave hturn]
    exact hy

theorem distributionPush (env : PushState Conn) : (x.distributionPush p env).Consistent := by
  unfold SeedPeers.distributionPush
  split_ifs
  · exact h
  · exact pushBody env _ _ (h.checkSuperSeed env.now env.multiple)

theorem onRecvdInfoReport (c : Conn) (v : Score) :
    ∃ y, x.onRecvdInfoReport c v = some y ∧ y.Consistent := by
  unfold SeedPeers.onRecvdInfoReport
  split
  · rename_i htype
    by_cases hfound : contains x.score c x.superSeedPeers ∧ x.score c ≠ v
    · rw [if_pos hfound]
      have hmem := (contains_iff h.superSorted c).mp hfound.1
      have hout : Consistent { x with superSeedPeers := erase x.score c x.superSeedPeers } :=
        h.leave (erase_sublist c _) (List.Sublist.refl _)
      obtain ⟨heq,hscore⟩ := hout.setScore (fun hc => ((mem_erase h.superSorted).mp hc).2 rfl)
        (h.not_mem_seed hmem) v
      rw [heq]
      refine ⟨_,rfl,?_⟩
      split_ifs
      · exact hscore.enterSeed fun hc => ((mem_erase h.superSorted).mp hc).2 rfl
      · exact hscore.insertSuperSeed htype
    · exact ⟨x,if_neg hfound,h⟩
  · rename_i htype
    split_ifs with hfound
    · have hmem := (contains_iff h.seedSorted c).mp hfound.1
      have hout : Consistent { x with seedPeers := erase x.score c x.seedPeers } :=
        h.leave (List.Sublist.refl _) (erase_sublist c _)
      obtain ⟨heq,hscore⟩ := hout.setScore (fun hc => h.not_mem_seed hc hmem)
        (fun hc => ((mem_erase h.seedSorted).mp hc).2 rfl) v
      rw [heq]
      exact ⟨_,rfl,hscore.insertSeed htype⟩
    · exact ⟨x,rfl,h⟩

theorem handle {e : SeedEvent Conn Score} (he : NewConnection (some x) e) :
    ∃ y, x.handle p initial outweighs e = some y ∧ y.Consistent := by
  cases e with
  | start now => exact ⟨_,rfl,h.start now⟩
  | stop => exact ⟨_,rfl,h.stop⟩
  | accepted c ok =>
    obtain ⟨hsuper,hseed⟩ := he x rfl
    exact h.onAccepted hsuper hseed ok
  | disconnected c => exact ⟨_,rfl,h.onDisconnected c⟩
  | checkSeedPeerTimer now => exact ⟨_,rfl,h.onCheckSeedPeerTimer now⟩
  | pieceNotifyTimer connected => exact ⟨_,rfl,h.onPieceNotifyTimer connected⟩
  | checkSuperSeed now multiple => exact ⟨_,rfl,h.checkSuperSeed now multiple⟩
  | distributionPush env => exact ⟨_,rfl,h.distributionPush env⟩
  | recvdInfoReport c v => exact h.onRecvdInfoReport c v

end

end Consistent

/-- Behind every handler the sets are apart, the types tell which set a connection is in, no
score has changed inside a set, and a connection is found and erased where it is. -/
theorem seed_sets_consistent (p : SeedParam) (initial : Score) (outweighs : Score → Score → Bool)
    (x₀ : SeedPeers Conn Score) (es : List (SeedEvent Conn Score))
    (h : AlongRun (step p initial outweighs) NewConnection
      (some { x₀ with superSeedPeers := [], seedPeers := [] }) es) :
    ∃ x, es.foldl (step p initial outweighs) (some { x₀ with superSeedPeers := [], seedPeers :=
      [] }) = some x ∧ (∀ c, ¬ (c∈x.superSeedPeers ∧ c∈x.seedPeers)) ∧
      (∀ c∈x.superSeedPeers, x.type c = .superSeed) ∧ (∀ c∈x.seedPeers, x.type c = .seed) ∧
      ∀ c, (contains x.score c x.superSeedPeers = true ↔ c∈x.superSeedPeers) ∧
        (contains x.score c x.seedPeers = true ↔ c∈x.seedPeers) ∧
        ∀ d, (d ∈ erase x.score c x.superSeedPeers ↔ d∈x.superSeedPeers ∧ d≠c) ∧
          (d ∈ erase x.score c x.seedPeers ↔ d∈x.seedPeers ∧ d≠c) := by
  have hstart : Consistent { x₀ with superSeedPeers := [], seedPeers := [] } := ⟨.nil,.nil,nofun,nofun⟩
  obtain ⟨x,hx,hcons⟩ := invariant_of_run (fun x => ∃ x', x = some x' ∧ Consistent x')
    (fun s e he ⟨x,hs,hx⟩ => by
      subst hs
      exact hx.handle he) h ⟨_,rfl,hstart⟩
  refine ⟨x,hx,fun c hc => hcons.not_mem_seed hc.1 hc.2,hcons.superType,hcons.seedType,fun c =>
    ⟨contains_iff hcons.superSorted c,contains_iff hcons.seedSorted c,fun d =>
      ⟨mem_erase hcons.superSorted,mem_erase hcons.seedSorted⟩⟩⟩

section Example

def idle : SeedPeers ℕ ℤ := ⟨false,[],[],fun _ => 0,fun _ => .superSeed,fun _ => 0,0,0,0⟩

/-- Three seeds report; the better two become super seeds, and one of them loses its score. -/
def busyEvents : List (SeedEvent ℕ ℤ) :=
  [.start 0,.accepted 1 true,.accepted 2 true,.accepted 3 true,.recvdInfoReport 1 5,.recvdInfoReport 2 3,
    .recvdInfoReport 3 4,.distributionPush ⟨1,1,1,fun _ => true,fun _ => false,fun _ => true,fun _ => 0⟩,
    .recvdInfoReport 3 (-1),.pieceNotifyTimer fun _ => true]

theorem busy_sets_consistent : ∃ x, busyEvents.foldl (step ⟨8,2⟩ (-1) fun a b => 3*b < 2*a)
    (some idle) = some x ∧
    x.superSeedPeers = [1] ∧ x.seedPeers = [3,2] ∧ ∀ c∈x.seedPeers, x.type c = .seed := by
  have hrun : AlongRun (step ⟨8,2⟩ (-1) fun a b => 3*b < 2*a) NewConnection (some idle) busyEvents := by
    simp only [busyEvents,AlongRun,NewConnection,and_true,true_and]
    decide +kernel
  obtain ⟨x,hx,-,-,htype,-⟩ := seed_sets_consistent ⟨8,2⟩ (-1) (fun a b => 3*b < 2*a) idle busyEvents hrun
  have hsets : (busyEvents.foldl (step ⟨8,2⟩ (-1) fun a b => 3*b < 2*a) (some idle)).map
      (fun x => (x.superSeedPeers, x.seedPeers)) = some ([1], [3,2]) := by decide +kernel
  have hsets' := (congrArg (Option.map fun x => (x.superSeedPeers, x.seedPeers)) hx).symm.trans hsets
  exact ⟨x,hx,congrArg Prod.fst (Option.some.inj hsets'),congrArg Prod.snd (Option.some.inj hsets'),htype⟩

end Example

end SeedPeers

end P2Streaming
