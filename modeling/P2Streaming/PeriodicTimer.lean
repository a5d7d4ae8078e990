import Mathlib.Tactic.Ring
import P2Streaming.TransitionRuns

/-!
# `basic_timer`: a one-shot wait between periodic ones

A one-shot wait takes the place of the periodic expiry that was pending. Behind it the periodic
sequence is resumed at a time `async_wait_next` computes anew. Times and durations are microseconds.
-/
namespace P2Streaming.Timer
open TransitionRuns

/-- What `async_keep_waiting` stores. -/
structure Plan where
  expiryDuration : ℤ
  periodicalDuration : ℤ
  repeatTimes : BitVec 64
  repeatStartTime : ℤ

/-- `pending` is the expiry of `deadline_timer_`, and whether its handler keeps waiting. The number
of periodic expirations so far is counted apart from `repeated_times_`. -/
structure BasicTimer where
  asyncWaiting : Bool
  asyncKeepWaiting : Bool
  repeatedTimes : BitVec 64
  pending : Option (ℤ × Bool)
  now : ℤ
  expirations : ℕ
deriving DecidableEq

inductive TimerEvent where
  | wait (now expiryDuration : ℤ)
  | expire

variable (plan : Plan)

namespace BasicTimer

/-- `async_keep_waiting` for an idle timer. -/
def asyncKeepWaitingFrom : BasicTimer where
  asyncWaiting := false
  asyncKeepWaiting := true
  repeatedTimes := 0
  pending := some (plan.repeatStartTime+plan.expiryDuration, true)
  now := plan.repeatStartTime
  expirations := 0

variable (t : BasicTimer)

def asyncWait (expiryDuration : ℤ) : BasicTimer :=
  { t with asyncWaiting := true, pending := some (t.now+expiryDuration, false) }

/-- The test of `async_wait_next`; `repeated_times_` is compared with the largest `size_t`. -/
def Repeats : Prop :=
  (t.asyncWaiting ∨ t.asyncKeepWaiting) ∧ (t.repeatedTimes = BitVec.allOnes 64 ∨
    t.repeatedTimes<plan.repeatTimes)

instance : Decidable (t.Repeats plan) := inferInstanceAs (Decidable (_ ∧ _))

/-- The duration that `async_wait_next` computes behind a one-shot wait. -/
def recalcDuration (now : ℤ) : ℤ :=
  let t := now - (plan.repeatStartTime+plan.expiryDuration)
  t - plan.periodicalDuration * ((t.tdiv 1000).tdiv (plan.periodicalDuration.tdiv 1000))

def asyncWaitNext (recalcExpireTime : Bool) : BasicTimer :=
  if t.Repeats plan then
    let duration := if recalcExpireTime then recalcDuration plan t.now else plan.periodicalDuration
    { t with pending := some (t.now+duration, true) }
  else { t with asyncKeepWaiting := false }

def handleTimeout (keepWaiting : Bool) : BasicTimer :=
  if keepWaiting then
    { t with repeatedTimes := t.repeatedTimes+1, expirations :=
      t.expirations + 1 }.asyncWaitNext plan false
  else if t.asyncKeepWaiting then { t with asyncWaiting := false }.asyncWaitNext plan true
  else { t with asyncWaiting := false }

/-- A handler runs at exactly its expiry, so nothing else happens later than that before it. -/
def step : TimerEvent → BasicTimer
  | .wait now expiryDuration =>
    if t.now≤now ∧ ∀ p∈t.pending, now≤p.1 then { t with now := now }.asyncWait expiryDuration else t
  | .expire =>
    match t.pending with
    | some (expiry, keepWaiting) =>
      if t.now≤expiry then { t with now := expiry, pending := none }.handleTimeout plan keepWaiting else t
    | none => t

/-- The periodic expiry is a whole number of periods behind the first one, and not too many of them
have been. -/
structure InPhase (t : BasicTimer) : Prop where
  scheduled : ∀ expiry, t.pending = some (expiry, true) →
    ∃ k : ℕ, expiry = plan.repeatStartTime + plan.expiryDuration + k * plan.periodicalDuration
  limited : t.expirations≤plan.repeatTimes.toNat

/-- A one-shot wait ends a whole number of half periods behind the first expiry, unless the periodic
sequence is over, and no expiration comes when `repeated_times_` can count no further. -/
def Harmless : TimerEvent → Prop
  | .wait _ _ => True
  | .expire => ∀ expiry keepWaiting, t.pending = some (expiry, keepWaiting) →
    if keepWaiting then t.repeatedTimes ≠ BitVec.allOnes 64
    else t.asyncKeepWaiting → (t.repeatedTimes = BitVec.allOnes 64 ∨ t.repeatedTimes<plan.repeatTimes) →
      1000 ≤ plan.periodicalDuration ∧ plan.repeatStartTime+plan.expiryDuration≤expiry ∧
        plan.periodicalDuration ∣ 2 * (expiry - (plan.repeatStartTime+plan.expiryDuration))

/-- `repeated_times_` counts the expirations, and a periodic expiry is pending only while one may be. -/
structure Regular (t : BasicTimer) : Prop extends t.InPhase plan where
  counted : t.expirations=t.repeatedTimes.toNat
  due : ∀ expiry, t.pending = some (expiry, true) →
    t.repeatedTimes = BitVec.allOnes 64 ∨ t.repeatedTimes<plan.repeatTimes

variable {plan} {t}

theorem tdiv_tdiv_mul_le {p τ : ℤ} (hp : 1000≤p) (hτ : 0≤τ) :
    p * (τ.tdiv 1000).tdiv (p.tdiv 1000) ≤ 2*τ := by
  rw [Int.tdiv_eq_ediv_of_nonneg hτ,Int.tdiv_eq_ediv_of_nonneg (by omega),
    Int.tdiv_eq_ediv_of_nonneg (by omega)]
  have hq : 0 ≤ τ / 1000 / (p / 1000) := Int.ediv_nonneg (by omega) (by omega)
  have hmul : τ / 1000 / (p / 1000) * (p / 1000) ≤ τ / 1000 := Int.ediv_mul_le _ (by omega)
  have hp2 : p ≤ 2 * 1000 * (p / 1000) := by omega
  calc p * (τ / 1000 / (p / 1000)) ≤ 2 * 1000 * (p / 1000) * (τ / 1000 / (p / 1000)) :=
        Int.mul_le_mul_of_nonneg_right hp2 hq
    _ = 2 * (1000 * (τ / 1000 / (p / 1000) * (p / 1000))) := by ring
    _≤2*τ := by omega

/-- Behind a wait that ends at such a time, the periodic sequence goes on in phase. -/
theorem recalcDuration_in_phase {now : ℤ} (hp : 1000≤plan.periodicalDuration)
    (hle : plan.repeatStartTime+plan.expiryDuration≤now)
    (hdvd : plan.periodicalDuration ∣ 2 * (now - (plan.repeatStartTime+plan.expiryDuration))) :
    ∃ k : ℕ, now + recalcDuration plan now =
      plan.repeatStartTime + plan.expiryDuration + k * plan.periodicalDuration := by
  obtain ⟨c,hc⟩ := hdvd
  have hq := tdiv_tdiv_mul_le hp (sub_nonneg.mpr hle)
  unfold recalcDuration
  dsimp only
  generalize Int.tdiv (Int.tdiv _ 1000) _ = q at hq ⊢
  rw [hc] at hq
  have hqc : q ≤ c := Int.le_of_mul_le_mul_left hq (by omega)
  refine ⟨(c - q).toNat,?_⟩
  rw [Int.toNat_of_nonneg (by omega),Int.sub_mul,mul_comm c,mul_comm q,← hc]
  ring

theorem regular_asyncWaitNext {recalc : Bool} (hcount : t.expirations=t.repeatedTimes.toNat)
    (hlim : t.expirations≤plan.repeatTimes.toNat) (hnone : t.pending=none)
    (hphase : t.repeatedTimes = BitVec.allOnes 64 ∨ t.repeatedTimes<plan.repeatTimes →
      ∃ k : ℕ, t.now + (if recalc then recalcDuration plan t.now else plan.periodicalDuration) =
        plan.repeatStartTime + plan.expiryDuration + k * plan.periodicalDuration) :
    (t.asyncWaitNext plan recalc).Regular plan := by
  unfold asyncWaitNext
  by_cases hr : t.Repeats plan
  · rw [if_pos hr]
    refine ⟨⟨fun expiry h => ?_,hlim⟩,hcount,fun _ _ => hr.2⟩
    obtain rfl := (Prod.mk.inj (Option.some.inj h)).1
    exact hphase hr.2
  · rw [if_neg hr]
    exact ⟨⟨fun _ h => (nomatch hnone.symm.trans h),hlim⟩,hcount,fun _ h => (nomatch hnone.symm.trans h)⟩

theorem Regular.step (h : t.Regular plan) {e : TimerEvent} (he : t.Harmless plan e) :
    (t.step plan e).Regular plan := by
  cases e with
  | wait now expiryDuration =>
    unfold BasicTimer.step
    dsimp only
    split_ifs
    · exact ⟨⟨by simp [asyncWait],h.limited⟩,h.counted,by simp [asyncWait]⟩
    · exact h
  | expire =>
    unfold BasicTimer.step
    dsimp only
    split
    · next expiry keepWaiting hpending =>
      have hsafe := he expiry keepWaiting hpending
      split_ifs
      · cases keepWaiting with
        | true =>
          have hmax : t.repeatedTimes ≠ BitVec.allOnes 64 := hsafe
          obtain ⟨k,hk⟩ := h.scheduled expiry hpending
          have hlt : t.repeatedTimes.toNat<plan.repeatTimes.toNat :=
            (h.due expiry hpending).resolve_left hmax
          have hnext : (t.repeatedTimes+1).toNat = t.repeatedTimes.toNat+1 :=
            BitVec.toNat_add_of_lt (Nat.lt_of_le_of_lt hlt plan.repeatTimes.isLt)
          refine regular_asyncWaitNext ((congrArg (· + 1) h.counted).trans hnext.symm)
            (h.counted ▸ hlt) rfl fun _ => ⟨k+1,?_⟩
          show expiry + plan.periodicalDuration = _
          rw [hk]
          push_cast
          ring
        | false =>
          unfold handleTimeout
          rw [if_neg Bool.false_ne_true]
          by_cases hkeep : t.asyncKeepWaiting
          · rw [if_pos hkeep]
            refine regular_asyncWaitNext h.counted h.limited rfl fun hr => ?_
            obtain ⟨hp,hle,hdvd⟩ := hsafe hkeep hr
            exact recalcDuration_in_phase hp hle hdvd
          · rw [if_neg hkeep]
            exact ⟨⟨nofun,h.limited⟩,h.counted,nofun⟩
      · exact h
    · exact h

/-- In every run whose one-shot waits end in phase, the timer schedules a periodic expiry only a whole
number of periods behind the first one, and expires at most `repeat_times` times. -/
theorem keeps_phase_of_harmless_run (plan : Plan) (hrepeat : plan.repeatTimes≠0) (es : List TimerEvent)
    (hrun : AlongRun (step plan) (Harmless plan) (asyncKeepWaitingFrom plan) es) :
    (es.foldl (step plan) (asyncKeepWaitingFrom plan)).InPhase plan := by
  have hpos : 0<plan.repeatTimes := Nat.pos_of_ne_zero fun h0 => hrepeat (BitVec.eq_of_toNat_eq h0)
  refine (invariant_of_run (Regular plan) (fun t e he h => h.step he) hrun
    ⟨⟨fun expiry h => ⟨0,?_⟩,Nat.zero_le _⟩, rfl,fun _ _ => .inr hpos⟩).toInPhase
  obtain rfl := (Prod.mk.inj (Option.some.inj h)).1
  simp

/-- A wait that ends one period behind the first expiry; the second expiry comes at once. -/
theorem wait_of_one_period_in_phase :
    let plan : Plan := ⟨5000,2000,3,0⟩
    let t := [.wait 1000 6000,.expire].foldl (step plan) (asyncKeepWaitingFrom plan)
    t.pending = some (7000, true) ∧ t.InPhase plan :=
  ⟨by decide,keeps_phase_of_harmless_run ⟨5000,2000,3,0⟩ (by decide) [.wait 1000 6000,.expire]
    ⟨trivial,by rintro _ _ ⟨⟩; decide,trivial⟩⟩

/-- With a period of 10 ms, a wait of 3 ms right behind the first expiry: the next expiry comes 6 ms
behind the first one instead of 10. And a timer that is to expire no time expires once. -/
theorem short_wait_shifts_phase :
    let plan : Plan := ⟨10000,10000,5,0⟩
    let t := [.expire,.wait 10000 3000,.expire].foldl (step plan) (asyncKeepWaitingFrom plan)
    t.pending = some (16000, true) ∧ ¬t.InPhase plan ∧
      (step ⟨10000,10000,0,0⟩ (asyncKeepWaitingFrom ⟨10000,10000,0,0⟩) .expire).expirations = 1 := by
  refine ⟨by decide,fun h => ?_,by decide⟩
  obtain ⟨k,hk⟩ := h.scheduled 16000 (by decide)
  dsimp only at hk
  omega

end BasicTimer
end P2Streaming.Timer
