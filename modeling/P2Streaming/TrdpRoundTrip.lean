import Mathlib.Tactic.Ring

/-!
# The round trip estimator of a trdp flow

`trdp_flow::__update_rtt` smooths the echo times of PONG messages. The estimator it is meant to be is
that of the udp flow, which measures the deviation against the estimate *before* the sample.
-/

namespace P2Streaming.Trdp

/-- The fields `srtt_`, `rttvar_` and `rto_`; only the first is set before the first sample. -/
structure RttEstimate where
  srtt : ℤ
  rttvar : ℤ
  rto : ℤ
deriving DecidableEq

/-- `trdp_flow::__update_rtt`, with the sample `rtt_msec` already taken from the clock. -/
def updateRtt (e : RttEstimate) (rtt : ℤ) : RttEstimate :=
  if 0 < rtt ∧ rtt<10000 then
    let srtt := if e.srtt=0 then rtt else (7 * e.srtt + rtt).tdiv 8
    -- the new estimate is already stored when the deviation from it is taken
    let rttvar := if e.srtt=0 then rtt.tdiv 2 else (3 * e.rttvar + (|rtt - srtt| - e.rttvar)).tdiv 4
    { srtt := srtt, rttvar := rttvar, rto := min 100 (max 6000 (srtt + 4 * rttvar)) }
  else e

/-- The documented step from one estimate to the next. -/
structure Smoothed (e e' : RttEstimate) (rtt : ℤ) : Prop where
  srtt : e'.srtt = (7 * e.srtt + rtt) / 8
  rttvar : e'.rttvar = (3 * e.rttvar + |rtt - e.srtt|) / 4
  rto : e'.rto = max 100 (min 6000 (e'.srtt + 4 * e'.rttvar))
  covers : e'.srtt≤6000 → e'.srtt≤e'.rto

/-- How far the estimate moves towards a sample. -/
def approach (srtt rtt : ℤ) : ℤ := if srtt ≤ rtt then (rtt - srtt) / 8 else (srtt - rtt + 7) / 8

/-- Rounding hides the missing part of the deviation, and the documented timeout is the least one. -/
structure RoundsAlike (e : RttEstimate) (rtt : ℤ) : Prop where
  hidden : e.rttvar + approach e.srtt rtt ≤ (3 * e.rttvar + |rtt - e.srtt|) % 4
  least : (7 * e.srtt + rtt) / 8 + 4 * ((3 * e.rttvar + |rtt - e.srtt|) / 4) ≤ 100

variable {e : RttEstimate} {rtt : ℤ}

/-- Some sample has been taken. -/
structure RttEstimate.Started (e : RttEstimate) : Prop where
  srtt : 0<e.srtt
  rttvar : 0≤e.rttvar

theorem updateRtt_of_first (h : e.srtt=0) (hr : 0 < rtt ∧ rtt<10000) :
    updateRtt e rtt = ⟨rtt,rtt / 2,100⟩ := by
  simp [updateRtt,h,hr,Int.tdiv_eq_ediv_of_nonneg hr.1.le]

theorem abs_sub_moved : |rtt - (7 * e.srtt + rtt) / 8| = |rtt - e.srtt| - approach e.srtt rtt := by
  unfold approach
  split
  · rw [abs_of_nonneg (by omega),abs_of_nonneg (by omega)]; omega
  · rw [abs_of_nonpos (by omega),abs_of_nonpos (by omega)]; omega

theorem approach_nonneg : 0 ≤ approach e.srtt rtt := by
  unfold approach
  split <;> omega

theorem updateRtt_of_started (he : e.Started) (hr : 0 < rtt ∧ rtt<10000) :
    updateRtt e rtt = ⟨(7 * e.srtt + rtt) / 8,
      (2 * e.rttvar + (|rtt - e.srtt| - approach e.srtt rtt)) / 4,100⟩ := by
  have hs := he.srtt
  have hv := he.rttvar
  have hd := abs_nonneg (rtt - (7 * e.srtt + rtt) / 8)
  simp only [updateRtt,if_pos hr,if_neg hs.ne',← abs_sub_moved]
  rw [Int.tdiv_eq_ediv_of_nonneg (by omega),Int.tdiv_eq_ediv_of_nonneg (by omega)]
  congr 1
  · congr 1; ring
  · omega

theorem RttEstimate.Started.updateRtt (he : e.Started) (hr : 0 < rtt ∧ rtt<10000) :
    (updateRtt e rtt).Started := by
  have hs := he.srtt
  have hv := he.rttvar
  have hd := abs_nonneg (rtt - (7 * e.srtt + rtt) / 8)
  rw [updateRtt_of_started he hr,← abs_sub_moved]
  exact ⟨by dsimp only; omega,by dsimp only; omega⟩

theorem started_of_samples {past : List ℤ} (hp : ∀ r∈past, 0 < r ∧ r<10000) (he : e.Started) :
    (past.foldl updateRtt e).Started := by
  induction past generalizing e with
  | nil => exact he
  | cons r past ih =>
    exact ih (fun x hx => hp x (.tail _ hx)) (he.updateRtt (hp r (.head _)))

theorem smoothed_iff_roundsAlike (he : e.Started) (hr : 0 < rtt ∧ rtt<10000) :
    Smoothed e (updateRtt e rtt) rtt ↔ RoundsAlike e rtt := by
  have hv := he.rttvar
  rw [updateRtt_of_started he hr]
  have ha : 0 ≤ approach e.srtt rtt := approach_nonneg
  have hm : 0 ≤ |rtt - e.srtt| - approach e.srtt rtt := abs_sub_moved ▸ abs_nonneg _
  generalize hd : |rtt - e.srtt| = d at hm
  constructor
  · rintro ⟨-,hvar,hrto,-⟩
    dsimp only at hvar hrto
    refine ⟨?_,?_⟩ <;> rw [hd] <;> omega
  · rintro ⟨hh,hl⟩
    rw [hd] at hh hl
    refine ⟨rfl,?_,?_,?_⟩ <;> dsimp only <;> omega

/-- After the first of a flow's samples, a sample is smoothed as documented exactly where rounding
hides that its deviation is taken from the moved estimate and reduced once more, and where the
documented timeout is the least one. -/
theorem update_rtt_documented (e : RttEstimate) (he : e.srtt=0) (first rtt : ℤ) (past : List ℤ)
    (hs : ∀ r ∈ first :: past ++ [rtt], 1 ≤ r ∧ r≤9999) : Smoothed ((first::past).foldl updateRtt e)
      (((first::past) ++ [rtt]).foldl updateRtt e) rtt ↔
      RoundsAlike ((first::past).foldl updateRtt e) rtt := by
  have hs' : ∀ r ∈ first :: past ++ [rtt], 0 < r ∧ r<10000 := fun r h => by
    have := hs r h
    omega
  have hfirst := hs' first (by simp)
  have hstart : (updateRtt e first).Started := by
    rw [updateRtt_of_first he hfirst]
    exact ⟨hfirst.1,by dsimp only; omega⟩
  rw [List.foldl_append]
  have hpast : (past.foldl updateRtt (updateRtt e first)).Started :=
    started_of_samples (fun r h => hs' r (by simp [h])) hstart
  exact smoothed_iff_roundsAlike hpast (hs' rtt (by simp))

/-- Samples of one millisecond are smoothed as documented: `rttvar_` is and stays zero. -/
theorem shortest_samples_documented :
    Smoothed (updateRtt ⟨0,0,0⟩ 1) (updateRtt (updateRtt ⟨0,0,0⟩ 1) 1) 1 :=
  (update_rtt_documented ⟨0,0,0⟩ rfl 1 1 [] (by decide)).2 ⟨by decide,by decide⟩

/-- Two samples of 100 ms: the deviation becomes 25 instead of 37, and the timeout 100 instead of
248. -/
theorem equal_samples_not_documented : updateRtt (updateRtt ⟨0,0,0⟩ 100) 100 = ⟨100,25,100⟩ ∧
      ¬Smoothed (updateRtt ⟨0,0,0⟩ 100) (updateRtt (updateRtt ⟨0,0,0⟩ 100) 100) 100 :=
  ⟨by decide,fun h => absurd h.rttvar (by decide)⟩

/-- After a first sample and `k` more between `lo` and `hi`. -/
structure RttEstimate.Settling (lo hi first : ℤ) (k : ℕ) (e : RttEstimate) : Prop where
  within : lo ≤ e.srtt ∧ e.srtt≤hi
  nonneg : 0≤e.rttvar
  fading : 2^(k+1) * e.rttvar ≤ first + 2^k * (hi - lo)
  rto : e.rto=100

section
variable {lo hi first : ℤ} {k : ℕ} (hlo : 1≤lo) (hhi : hi≤9999)
include hlo hhi

theorem RttEstimate.Settling.updateRtt (h : e.Settling lo hi first k) (hr : lo ≤ rtt ∧ rtt≤hi) :
    (updateRtt e rtt).Settling lo hi first (k+1) := by
  obtain ⟨hs,hv,hf,-⟩ := h
  have hd : |rtt - (7 * e.srtt + rtt) / 8| ≤ hi - lo := sup_le (by omega) (by omega)
  have hpos := abs_nonneg (rtt - (7 * e.srtt + rtt) / 8)
  rw [updateRtt_of_started ⟨by omega,hv⟩ ⟨by omega,by omega⟩,← abs_sub_moved]
  generalize |rtt - (7 * e.srtt + rtt) / 8| = d at hd hpos
  generalize hq : (2 * e.rttvar + d) / 4 = v
  refine ⟨by dsimp only; omega,by dsimp only; omega,?_,rfl⟩
  calc 2^(k+1+1) * v = 2^k * (4*v) := by ring
    _ ≤ 2^k * (2 * e.rttvar + (hi - lo)) :=
      Int.mul_le_mul_of_nonneg_left (by omega) (Int.pow_nonneg (by decide))
    _ = 2^(k+1) * e.rttvar + 2^k * (hi - lo) := by ring
    _ ≤ first + 2^k * (hi - lo) + 2^k * (hi - lo) := Int.add_le_add_right hf _
    _ = first + 2^(k+1) * (hi - lo) := by ring

theorem settling_of_samples {past : List ℤ} (hp : ∀ r∈past, lo ≤ r ∧ r≤hi)
    (h : e.Settling lo hi first k) :
    (past.foldl updateRtt e).Settling lo hi first (k+past.length) := by
  induction past generalizing e k with
  | nil => exact h
  | cons r past ih =>
    have hnext := ih (fun x hx => hp x (.tail _ hx)) (h.updateRtt hlo hhi (hp r (.head _)))
    rwa [Nat.succ_add_eq_add_succ] at hnext

/-- The estimate stays between the samples, what the deviation was is halved with each of them, and
the timeout is 100 ms. -/
theorem estimate_settles (he : e.srtt=0) (hf : lo ≤ first ∧ first≤hi) (past : List ℤ)
    (hp : ∀ r∈past, lo ≤ r ∧ r≤hi) : ((first::past).foldl updateRtt e).Settling lo hi first
    past.length := by
  have hfirst : (updateRtt e first).Settling lo hi first 0 := by
    rw [updateRtt_of_first he ⟨by omega,by omega⟩]
    exact ⟨hf,by dsimp only; omega,by dsimp only; omega,rfl⟩
  simpa using settling_of_samples hlo hhi hp hfirst

end

theorem equal_samples_settle : ([100,100,100].foldl updateRtt ⟨0,0,0⟩).Settling 100 100 100 2 :=
  estimate_settles (by decide) (by decide) rfl (by decide) [100,100] (by decide)

end P2Streaming.Trdp
