import P2Streaming.TransitionRuns
import Mathlib.Algebra.Order.BigOperators.Group.List
import Mathlib.Algebra.Order.Ring.Int
import Mathlib.Data.Rat.Defs

/-!
# `basic_speed_meter`

A speed meter keeps what was added within a time window, one history element for a tick, and two
running sums, the bytes and the number of the additions. An element that leaves the window takes its
bytes and one addition from the sums, however many additions it stands for, and `reset` may set the
sums to zero and leave the elements. Beside the meter the model keeps the additions since the last
`reset`. The sums are integers here; they are the source's as long as they lie below `2 ^ 31`.
-/
namespace P2Streaming
open TransitionRuns List

/-- `_pair`. -/
structure SpeedElement where
  timestamp : ℤ
  bytes : ℤ

structure SpeedMeter where
  history : List SpeedElement
  quedBytes : ℤ
  quedCount : ℤ
  timeWindow : ℤ
  timestart : ℤ
  lastForgetTime : ℤ
  lastSpeed : ℚ
  lastCountSpeed : ℚ
  totalBytes : ℤ
  totalCnt : ℤ
  needRecalc : Bool

namespace SpeedMeter

/-- `min_time_threshold_usec`. -/
def minTimeThreshold : ℤ := 100

def create (timewindow : ℤ) : SpeedMeter where
  history := []
  quedBytes := 0
  quedCount := 0
  timeWindow := max minTimeThreshold timewindow
  timestart := -1
  lastForgetTime := -1
  lastSpeed := 0
  lastCountSpeed := 0
  totalBytes := 0
  totalCnt := 0
  needRecalc := true

variable (m : SpeedMeter)

def reset (releasMemory : Bool) : SpeedMeter where
  history := if releasMemory then [] else m.history
  quedBytes := 0
  quedCount := 0
  timeWindow := m.timeWindow
  timestart := -1
  lastForgetTime := -1
  lastSpeed := 0
  lastCountSpeed := 0
  totalBytes := 0
  totalCnt := 0
  needRecalc := true

/-- The loop of `__forget_history`: the history and the sums behind it. -/
def expire (t : ℤ) : List SpeedElement → ℤ → ℤ → List SpeedElement × ℤ × ℤ
  | [], quedBytes, quedCount => ([], quedBytes, quedCount)
  | elm :: history, quedBytes, quedCount =>
      if elm.timestamp<t then expire t history (quedBytes - elm.bytes) (quedCount - 1)
      else (elm::history, quedBytes, quedCount)

def forgetHistory (now : ℤ) : SpeedMeter :=
  if m.lastForgetTime=now then m
  else
    let r := expire (now - m.timeWindow) m.history m.quedBytes m.quedCount
    { m with
      needRecalc := true
      lastForgetTime := now
      history := r.1
      quedBytes := r.2.1
      quedCount := r.2.2 }

/-- The history with an addition: it goes into the last element if that is of the same tick. -/
def record (curTick bytes : ℤ) : List SpeedElement → List SpeedElement
  | [] => [⟨curTick,bytes⟩]
  | [elm] =>
      if elm.timestamp=curTick then [{ elm with bytes := elm.bytes + bytes }] else [elm,⟨curTick,bytes⟩]
  | elm :: next :: history => elm :: record curTick bytes (next::history)

/-- `operator+=`. -/
def add (curTick bytes : ℤ) : SpeedMeter :=
  let m := m.forgetHistory curTick
  { m with
    timestart := if m.timestart = -1 then curTick else m.timestart
    needRecalc := true
    totalBytes := m.totalBytes+bytes
    totalCnt := m.totalCnt+1
    quedBytes := m.quedBytes+bytes
    quedCount := m.quedCount+1
    history := record curTick bytes m.history }

/-- The end of `_per_second`, behind `__forget_history`. -/
def recalc (curTick : ℤ) : SpeedMeter × ℚ × ℚ :=
  if !m.needRecalc then (m, m.lastSpeed, m.lastCountSpeed)
  else
    let window := max minTimeThreshold (min (curTick - m.timestart) m.timeWindow)
    let m := { m with
      needRecalc := false
      lastSpeed := m.quedBytes * 1000 / window
      lastCountSpeed := m.quedCount * 1000 / window }
    (m, m.lastSpeed, m.lastCountSpeed)

/-- `_per_second`, with both speeds. -/
def perSecond (curTick : ℤ) : SpeedMeter × ℚ × ℚ :=
  if m.timestart = -1 then
    match m.history with
    | [] =>
        let m := { m with timestart := curTick }
        if !m.needRecalc then (m, 0, 0) else (m.forgetHistory curTick).recalc curTick
    | elm :: _ => ({ m with timestart := elm.timestamp }.forgetHistory curTick).recalc curTick
  else (m.forgetHistory curTick).recalc curTick

end SpeedMeter

inductive SpeedCall where
  | add (bytes : ℕ)
  | perSecond
  | reset (releasMemory : Bool)

structure SpeedEvent where
  now : ℕ
  call : SpeedCall

/-- The meter with the additions since the last `reset` and the tick of the last call. -/
structure WatchedMeter where
  meter : SpeedMeter
  additions : List (ℕ × ℕ)
  clock : ℕ

namespace WatchedMeter

def create (timewindow : ℤ) : WatchedMeter := ⟨SpeedMeter.create timewindow,[],0⟩

variable (w : WatchedMeter)

def step (e : SpeedEvent) : WatchedMeter :=
  match e.call with
  | .add bytes => ⟨w.meter.add e.now bytes,w.additions ++ [(e.now, bytes)],e.now⟩
  | .perSecond => ⟨(w.meter.perSecond e.now).1,w.additions,e.now⟩
  | .reset releasMemory => ⟨w.meter.reset releasMemory,[],e.now⟩

/-- The additions since the last `reset` that are within the window of the last call. -/
def inWindow : List (ℕ × ℕ) :=
  w.additions.filter fun a => (w.clock : ℤ) - w.meter.timeWindow ≤ a.1

def SumsExact : Prop :=
  w.meter.quedBytes = (w.inWindow.map fun a => (a.2 : ℤ)).sum ∧ w.meter.quedCount=w.inWindow.length ∧
    0≤w.meter.quedBytes ∧ 0≤w.meter.quedCount

/-- The clock does not go back, and every history element that leaves the window stands for exactly
one addition, made since the last `reset`. -/
def Orderly (e : SpeedEvent) : Prop :=
  w.clock≤e.now ∧
    match e.call with
    | .reset _ => True
    | _ => ∀ elm∈w.meter.history, elm.timestamp < e.now - w.meter.timeWindow →
        (w.additions.filter fun a => (a.1 : ℤ) = elm.timestamp).map (fun a => (a.2 : ℤ)) = [elm.bytes]

end WatchedMeter

/-! ### Ticks and the additions that count -/

namespace SpeedMeter

def ticks (history : List SpeedElement) : List ℤ := history.map SpeedElement.timestamp

def counted (additions : List (ℕ × ℕ)) (ticks : List ℤ) : List (ℕ × ℕ) :=
  additions.filter fun a => ticks.contains (a.1 : ℤ)

def Sums (additions : List (ℕ × ℕ)) (ticks : List ℤ) (quedBytes quedCount : ℤ) : Prop :=
  quedBytes = ((counted additions ticks).map fun a => (a.2 : ℤ)).sum ∧
    quedCount = (counted additions ticks).length

theorem counted_cons_perm (additions : List (ℕ × ℕ)) {t : ℤ} {ts : List ℤ} (h : t ∉ ts) :
    (counted additions (t::ts)).Perm
      ((additions.filter fun a => (a.1 : ℤ) = t) ++ counted additions ts) := by
  refine (filter_append_perm (fun a : ℕ × ℕ => decide ((a.1 : ℤ) = t)) _).symm.trans ?_
  unfold counted
  rw [filter_filter,filter_filter]
  apply List.Perm.append
  · apply List.Perm.of_eq
    apply filter_congr
    intro a _
    by_cases ha : (a.1 : ℤ) = t <;> simp [ha]
  · apply List.Perm.of_eq
    apply filter_congr
    intro a _
    by_cases ha : (a.1 : ℤ) = t
    · simp [ha,h]
    · simp [ha]

theorem Sums.pop {additions : List (ℕ × ℕ)} {elm : SpeedElement} {ts : List ℤ} {quedBytes quedCount : ℤ}
    (h : Sums additions (elm.timestamp::ts) quedBytes quedCount) (hnot : elm.timestamp ∉ ts)
    (hone : (additions.filter fun a => (a.1 : ℤ) = elm.timestamp).map (fun a => (a.2 : ℤ)) =
      [elm.bytes]) :
    Sums additions ts (quedBytes - elm.bytes) (quedCount - 1) := by
  have hperm := counted_cons_perm additions hnot
  obtain ⟨hbytes,hcount⟩ := h
  have hsum := (hperm.map fun a => (a.2 : ℤ)).sum_eq
  have hlen := hperm.length_eq
  have hone' := congrArg List.length hone
  rw [map_append,hone,sum_append,sum_singleton] at hsum
  rw [length_map,length_singleton] at hone'
  rw [length_append,hone'] at hlen
  exact ⟨by omega,by omega⟩

variable {history : List SpeedElement}

theorem expire_spec {additions : List (ℕ × ℕ)} {t : ℤ} {quedBytes quedCount : ℤ}
    (hsorted : (ticks history).Pairwise (· < ·)) (hone : ∀ elm∈history, elm.timestamp<t →
      (additions.filter fun a => (a.1 : ℤ) = elm.timestamp).map (fun a => (a.2 : ℤ)) = [elm.bytes])
    (hsums : Sums additions (ticks history) quedBytes quedCount) :
    (ticks (expire t history quedBytes quedCount).1).Pairwise (· < ·) ∧
      (∀ x, x ∈ ticks (expire t history quedBytes quedCount).1 ↔ x ∈ ticks history ∧ t≤x) ∧
        Sums additions (ticks (expire t history quedBytes quedCount).1)
          (expire t history quedBytes quedCount).2.1 (expire t history quedBytes quedCount).2.2 := by
  induction history generalizing quedBytes quedCount with
  | nil =>
    refine ⟨List.Pairwise.nil,fun x => ?_,hsums⟩
    simp [expire,ticks]
  | cons elm history ih =>
    obtain ⟨hfirst,hrest⟩ := pairwise_cons.mp hsorted
    rw [expire]
    split_ifs with hlt
    · have hnot : elm.timestamp ∉ ticks history := fun hmem => lt_irrefl _ (hfirst _ hmem)
      have hpop := Sums.pop hsums hnot (hone elm mem_cons_self hlt)
      obtain ⟨hsorted',hmem,hsums'⟩ := ih hrest (fun x hx => hone x (mem_cons_of_mem _ hx)) hpop
      refine ⟨hsorted',fun x => ?_,hsums'⟩
      rw [hmem x]
      constructor
      · exact fun hx => ⟨mem_cons_of_mem _ hx.1,hx.2⟩
      · rintro ⟨hx,hle⟩
        rcases mem_cons.mp hx with rfl | hx
        · omega
        · exact ⟨hx,hle⟩
    · refine ⟨hsorted,fun x => ?_,hsums⟩
      refine ⟨fun hx => ⟨hx,?_⟩,And.left⟩
      rcases mem_cons.mp hx with rfl | hx
      · exact not_lt.mp hlt
      · have := hfirst x hx
        omega

theorem mem_ticks_record {curTick bytes : ℤ} {x : ℤ} :
    x ∈ ticks (record curTick bytes history) ↔ x ∈ ticks history ∨ x=curTick := by
  induction history with
  | nil => simp [record,ticks]
  | cons elm history ih =>
    cases history with
    | nil =>
      rw [record]
      split_ifs with h
      · simp [ticks,h]
      · simp [ticks]
    | cons next history =>
      rw [record]
      simp only [ticks,map_cons,mem_cons] at ih ⊢
      rw [ih,or_assoc,or_assoc,or_assoc]

theorem sorted_record {curTick bytes : ℤ}
    (hsorted : (ticks history).Pairwise (· < ·)) (hle : ∀ x ∈ ticks history, x ≤ curTick) :
    (ticks (record curTick bytes history)).Pairwise (· < ·) := by
  induction history with
  | nil => simp [record,ticks]
  | cons elm history ih =>
    obtain ⟨hfirst,hrest⟩ := pairwise_cons.mp hsorted
    cases history with
    | nil =>
      have helm := hle elm.timestamp (by simp [ticks])
      rw [record]
      split_ifs with h
      · simp [ticks]
      · simp only [ticks,map_cons,map_nil,pairwise_cons,mem_singleton]
        refine ⟨fun x hx => ?_,by simp⟩
        omega
    | cons next history =>
      have hnext : next.timestamp ≤ curTick := hle _ (by simp [ticks])
      have hlt := hfirst next.timestamp (by simp)
      refine pairwise_cons.mpr ⟨fun x hx => ?_,ih hrest fun x hx => hle x (mem_cons_of_mem _ hx)⟩
      rcases mem_ticks_record.mp hx with hx | rfl
      · exact hfirst x hx
      · omega

end SpeedMeter

namespace WatchedMeter
open SpeedMeter

structure Consistent (w : WatchedMeter) : Prop where
  window_nonneg : 0≤w.meter.timeWindow
  forget_le : w.meter.lastForgetTime≤w.clock
  sorted : (ticks w.meter.history).Pairwise (· < ·)
  tick_nonneg : ∀ x ∈ ticks w.meter.history, 0≤x
  tick_le : ∀ x ∈ ticks w.meter.history, x≤w.clock
  forgotten : ∀ x ∈ ticks w.meter.history, w.meter.lastForgetTime - w.meter.timeWindow ≤ x
  kept : ∀ a∈w.additions, (a.1 : ℤ) ∈ ticks w.meter.history ∨ (a.1 : ℤ) < w.clock - w.meter.timeWindow
  sums : Sums w.additions (ticks w.meter.history) w.meter.quedBytes w.meter.quedCount

def Current (w : WatchedMeter) : Prop :=
  ∀ a∈w.additions, (a.1 : ℤ) ∈ ticks w.meter.history → (w.clock : ℤ) - w.meter.timeWindow ≤ a.1

variable {w : WatchedMeter}

theorem Consistent.sumsExact (h : w.Consistent) (hcurrent : w.Current) : w.SumsExact := by
  have hwindow : w.inWindow = counted w.additions (ticks w.meter.history) := by
    apply filter_congr
    intro a ha
    rw [Bool.eq_iff_iff,decide_eq_true_eq,contains_iff_mem]
    constructor
    · intro hle
      exact (h.kept a ha).resolve_right (by omega)
    · exact hcurrent a ha
  obtain ⟨hbytes,hcount⟩ := h.sums
  rw [← hwindow] at hbytes hcount
  refine ⟨hbytes,hcount,?_,by omega⟩
  rw [hbytes]
  apply sum_nonneg
  intro x hx
  obtain ⟨a,-,rfl⟩ := mem_map.mp hx
  omega

structure SameSums (m m' : SpeedMeter) : Prop where
  history : m'.history=m.history
  quedBytes : m'.quedBytes=m.quedBytes
  quedCount : m'.quedCount=m.quedCount
  timeWindow : m'.timeWindow=m.timeWindow
  lastForgetTime : m'.lastForgetTime=m.lastForgetTime

variable {additions : List (ℕ × ℕ)}

theorem Consistent.congr {m m' : SpeedMeter} {clock : ℕ}
    (h : Consistent ⟨m,additions,clock⟩) (hsame : SameSums m m') : Consistent ⟨m',additions,clock⟩ := by
  obtain ⟨hhistory,hbytes,hcount,hwindow,hforget⟩ := hsame
  constructor <;> simp only [hhistory,hbytes,hcount,hwindow,hforget]
  · exact h.window_nonneg
  · exact h.forget_le
  · exact h.sorted
  · exact h.tick_nonneg
  · exact h.tick_le
  · exact h.forgotten
  · exact h.kept
  · exact h.sums

variable {m : SpeedMeter} {clock now : ℕ}

theorem Consistent.forget (h : Consistent ⟨m,additions,clock⟩) (hle : clock≤now)
    (hone : ∀ elm∈m.history, elm.timestamp < now - m.timeWindow →
      (additions.filter fun a => (a.1 : ℤ) = elm.timestamp).map (fun a => (a.2 : ℤ)) = [elm.bytes]) :
    Consistent ⟨m.forgetHistory now,additions,now⟩ ∧ (m.forgetHistory now).timeWindow = m.timeWindow ∧
      (m.forgetHistory now).lastForgetTime = now ∧
        ∀ x ∈ ticks (m.forgetHistory now).history, (now : ℤ) - m.timeWindow ≤ x := by
  have hforget : m.lastForgetTime ≤ clock := h.forget_le
  have hwindow : 0 ≤ m.timeWindow := h.window_nonneg
  unfold forgetHistory
  split_ifs with hsame
  · -- the history has been forgotten at this tick already
    have hclock : clock=now := by omega
    subst hclock
    refine ⟨h,rfl,hsame,fun x hx => ?_⟩
    have : m.lastForgetTime - m.timeWindow ≤ x := h.forgotten x hx
    omega
  · obtain ⟨hsorted,hmem,hsums⟩ := expire_spec h.sorted hone h.sums
    refine ⟨⟨hwindow,le_refl _,hsorted,fun x hx => ?_,fun x hx => ?_,fun x hx => ?_,fun a ha => ?_,hsums⟩,
      rfl,rfl,fun x hx => ((hmem x).mp hx).2⟩
    · exact h.tick_nonneg x ((hmem x).mp hx).1
    · have : x ≤ (clock : ℤ) := h.tick_le x ((hmem x).mp hx).1
      dsimp only
      omega
    · exact ((hmem x).mp hx).2
    · rw [hmem]
      by_cases hlt : (a.1 : ℤ) < now - m.timeWindow
      · exact .inr hlt
      · refine .inl ⟨(h.kept a ha).resolve_right ?_,not_lt.mp hlt⟩
        dsimp only
        omega

theorem Consistent.add {now : ℕ}
    (h : Consistent ⟨m,additions,now⟩) (hforgot : m.lastForgetTime=now) (bytes : ℕ)
    (timestart totalBytes totalCnt : ℤ) : Consistent ⟨{ m with
      timestart := timestart
      needRecalc := true
      totalBytes := totalBytes
      totalCnt := totalCnt
      quedBytes := m.quedBytes+bytes
      quedCount := m.quedCount+1
      history := record now bytes m.history },additions ++ [(now, bytes)],now⟩ := by
  have hwindow : 0 ≤ m.timeWindow := h.window_nonneg
  refine ⟨hwindow,h.forget_le,sorted_record h.sorted h.tick_le,fun x hx => ?_,fun x hx => ?_,
    fun x hx => ?_, fun a ha => ?_,?_⟩
  · rcases mem_ticks_record.mp hx with hx | rfl
    · exact h.tick_nonneg x hx
    · omega
  · rcases mem_ticks_record.mp hx with hx | rfl
    · exact h.tick_le x hx
    · exact le_refl _
  · rcases mem_ticks_record.mp hx with hx | rfl
    · exact h.forgotten x hx
    · dsimp only
      omega
  · rw [mem_ticks_record]
    rcases mem_append.mp ha with ha | ha
    · exact (h.kept a ha).imp_left .inl
    · rw [mem_singleton.mp ha]
      exact .inl (.inr rfl)
  · -- the new addition is the only new one that counts
    have hcounted : counted (additions ++ [(now, bytes)]) (ticks (record now bytes m.history)) =
        counted additions (ticks m.history) ++ [(now, bytes)] := by
      unfold counted
      rw [filter_append]
      congr 1
      · apply filter_congr
        intro a ha
        rw [Bool.eq_iff_iff,contains_iff_mem,contains_iff_mem,mem_ticks_record]
        refine ⟨fun hor => hor.elim id fun heq => ?_,.inl⟩
        refine (h.kept a ha).resolve_right ?_
        dsimp only
        omega
      · have hmem : (now : ℤ) ∈ ticks (record now bytes m.history) := mem_ticks_record.mpr (.inr rfl)
        simp [hmem]
    obtain ⟨hbytes,hcount⟩ := h.sums
    unfold Sums
    rw [hcounted,hbytes,hcount]
    simp

theorem sameSums_recalc (m : SpeedMeter) (now : ℤ) : SameSums m (m.recalc now).1 := by
  unfold recalc
  split_ifs <;> exact ⟨rfl,rfl,rfl,rfl,rfl⟩

theorem SameSums.ticks_eq {m m' : SpeedMeter} (h : SameSums m m') :
    ticks m'.history = ticks m.history := by
  rw [h.history]

theorem Consistent.later_of_nil
    (h : Consistent ⟨m,additions,clock⟩) (hle : clock≤now) (hnil : m.history=[]) :
    Consistent ⟨m,additions,now⟩ := by
  have hticks : ∀ x, x ∉ ticks m.history := by simp [hnil,ticks]
  have hforget : m.lastForgetTime ≤ clock := h.forget_le
  refine ⟨h.window_nonneg,?_,h.sorted,fun x hx => absurd hx (hticks x),fun x hx => absurd hx (hticks x),
    fun x hx => absurd hx (hticks x),fun a ha => .inr ?_,h.sums⟩
  · dsimp only
    omega
  · have : (a.1 : ℤ) < clock - m.timeWindow := (h.kept a ha).resolve_left (hticks _)
    dsimp only
    omega

theorem Consistent.perSecond (h : Consistent ⟨m,additions,clock⟩) (hle : clock≤now)
    (hone : ∀ elm∈m.history, elm.timestamp < now - m.timeWindow →
      (additions.filter fun a => (a.1 : ℤ) = elm.timestamp).map (fun a => (a.2 : ℤ)) = [elm.bytes]) :
    Consistent ⟨(m.perSecond now).1,additions,now⟩ ∧ Current ⟨(m.perSecond now).1,additions,now⟩ := by
  -- in all branches but one the history is forgotten, whatever the start time has become
  have hforget : ∀ m' : SpeedMeter, SameSums m m' →
      Consistent ⟨((m'.forgetHistory now).recalc now).1,additions,now⟩ ∧
        Current ⟨((m'.forgetHistory now).recalc now).1,additions,now⟩ := by
    intro m' hsame
    obtain ⟨hcons,hwindow,-,hticks⟩ := (h.congr hsame).forget hle (by
      rw [hsame.history,hsame.timeWindow]
      exact hone)
    have hrecalc := sameSums_recalc (m'.forgetHistory now) now
    refine ⟨hcons.congr hrecalc,fun a _ ha => ?_⟩
    rw [hrecalc.timeWindow,hwindow]
    rw [hrecalc.ticks_eq] at ha
    exact hticks _ ha
  unfold SpeedMeter.perSecond
  by_cases hstart : m.timestart = -1
  swap
  · rw [if_neg hstart]
    exact hforget m ⟨rfl,rfl,rfl,rfl,rfl⟩
  rw [if_pos hstart]
  cases hhistory : m.history with
  | nil =>
    dsimp only
    split_ifs
    · exact ⟨(h.later_of_nil hle hhistory).congr ⟨hhistory.symm,rfl,rfl,rfl,rfl⟩,
        fun a _ ha => absurd ha not_mem_nil⟩
    · exact hforget _ ⟨hhistory.symm,rfl,rfl,rfl,rfl⟩
  | cons elm history => exact hforget _ ⟨hhistory.symm,rfl,rfl,rfl,rfl⟩

theorem consistent_reset (h : w.Consistent) (releasMemory : Bool) (now : ℕ) (hle : w.clock≤now) :
    Consistent ⟨w.meter.reset releasMemory,[],now⟩ := by
  have hsub : ∀ x ∈ ticks (w.meter.reset releasMemory).history, x ∈ ticks w.meter.history := by
    intro x hx
    cases releasMemory
    · exact hx
    · exact absurd hx not_mem_nil
  refine ⟨h.window_nonneg,?_,?_,fun x hx => h.tick_nonneg x (hsub x hx),fun x hx => ?_,fun x hx => ?_,
    fun a ha => absurd ha not_mem_nil,⟨rfl,rfl⟩⟩
  · dsimp only [reset]
    omega
  · cases releasMemory
    · exact h.sorted
    · exact List.Pairwise.nil
  · have := h.tick_le x (hsub x hx)
    dsimp only
    omega
  · have := h.tick_nonneg x (hsub x hx)
    have := h.window_nonneg
    dsimp only [reset]
    omega

theorem Consistent.step (h : w.Consistent) {e : SpeedEvent} (he : w.Orderly e) :
    (w.step e).Consistent ∧ (w.step e).Current := by
  obtain ⟨now,call⟩ := e
  obtain ⟨hle,hone⟩ := he
  cases call with
  | add bytes =>
    obtain ⟨hcons,hwindow,hforgot,hticks⟩ := Consistent.forget h hle hone
    refine ⟨hcons.add hforgot bytes _ _ _,fun a _ ha => ?_⟩
    have hwin : 0≤w.meter.timeWindow := h.window_nonneg
    change (a.1 : ℤ) ∈ ticks (record now bytes (w.meter.forgetHistory now).history) at ha
    change (now : ℤ) - (w.meter.forgetHistory now).timeWindow ≤ a.1
    rw [hwindow]
    rcases mem_ticks_record.mp ha with ha | ha
    · exact hticks _ ha
    · omega
  | perSecond => exact Consistent.perSecond h hle hone
  | reset releasMemory => exact ⟨consistent_reset h releasMemory now hle,
    fun a ha => absurd ha not_mem_nil⟩

theorem consistent_create (timewindow : ℤ) : (create timewindow).Consistent := by
  refine ⟨?_,show (-1 : ℤ) ≤ 0 by decide,List.Pairwise.nil,fun x hx => absurd hx not_mem_nil,
    fun x hx => absurd hx not_mem_nil,fun x hx => absurd hx not_mem_nil,
    fun a ha => absurd ha not_mem_nil,⟨rfl,rfl⟩⟩
  exact (by decide : (0 : ℤ) ≤ minTimeThreshold).trans (le_max_left _ _)

instance (w : WatchedMeter) (e : SpeedEvent) : Decidable (w.Orderly e) := by
  unfold Orderly
  cases e.call <;> infer_instance

/-- In a run of orderly calls the sums are exact after every call. -/
theorem window_sums_exact (timewindow : ℤ) (es : List SpeedEvent)
    (h : AlongRun step Orderly (create timewindow) es) (n : ℕ) :
    ((es.take n).foldl step (create timewindow)).SumsExact := by
  rw [← take_append_drop n es,alongRun_append] at h
  have hinv := invariant_of_run (fun w => w.Consistent ∧ w.Current) (fun w e he hw => hw.1.step he) h.1
    ⟨consistent_create timewindow,fun a ha => absurd ha not_mem_nil⟩
  exact hinv.1.sumsExact hinv.2

/-- Two additions leave the window one after the other; two more fall on one tick and are in the
window still. -/
def orderlyCalls : List SpeedEvent :=
  [⟨0,.add 10⟩,⟨50,.add 20⟩,⟨120,.perSecond⟩,⟨160,.add 5⟩,⟨160,.add 6⟩,⟨200,.perSecond⟩]

theorem orderlyCalls_exact : (orderlyCalls.foldl step (create 100)).SumsExact :=
  window_sums_exact 100 orderlyCalls (by decide) 6

/-- Two additions of one tick leave the window as one; and bytes from before a `reset` that keeps
the history are taken from the sum behind it. -/
theorem sums_not_exact : ¬ ([⟨0,.add 10⟩,⟨0,.add 20⟩,
    ⟨101,.perSecond⟩].foldl step (create 100)).SumsExact ∧
      ¬ ([⟨0,.add 10⟩,⟨1,.reset false⟩,⟨101,.perSecond⟩].foldl step (create 100)).SumsExact := by
  constructor
  · intro h
    exact absurd h.2.1 (by decide)
  · intro h
    exact absurd h.2.2.1 (by decide)

end WatchedMeter

end P2Streaming
