import Mathlib.Logic.Basic
import Mathlib.Data.Nat.Notation

/-!
# Loops with a bound on their turns

A loop of the source is a body that either asks for another turn or leaves. `loop`
runs it for a given number of turns; with a measure that every turn decreases, that
number is enough and the result is the one in which the loop is left.
-/
namespace P2Streaming.BoundedLoops

variable {σ : Type*}

/-- How the body of a loop ends: with another turn, or by leaving the loop. -/
inductive Turn (σ : Type*) where
  | again (s : σ)
  | leave (s : σ)

def loop (body : σ → Turn σ) : ℕ → σ → σ
  | 0, s => s
  | fuel + 1, s =>
      match body s with
      | .again t => loop body fuel t
      | .leave t => t

/-- The loop, entered in the first state, is left in the second. -/
inductive Leaves (body : σ → Turn σ) : σ → σ → Prop where
  | leave {s t : σ} (h : body s = .leave t) : Leaves body s t
  | again {s t u : σ} (h : body s = .again t) (rest : Leaves body t u) : Leaves body s u

variable {body : σ → Turn σ}

/-- A loop whose turns decrease a measure is left within that many turns. -/
theorem leaves_loop (measure : σ → ℕ) (decreases : ∀ s t, body s = .again t → measure t < measure s) :
    ∀ (fuel : ℕ) (s : σ), measure s < fuel → Leaves body s (loop body fuel s) := by
  intro fuel
  induction fuel with
  | zero => exact fun s h => absurd h (Nat.not_lt_zero _)
  | succ fuel ih =>
    intro s h
    rw [loop]
    cases hb : body s with
    | leave t => exact .leave hb
    | again t =>
      have hlt := decreases s t hb
      exact .again hb (ih t (by omega))

/-- The rule for loops: an invariant of the turns gives what holds when the loop is left. -/
theorem Leaves.rule {s t : σ} (h : Leaves body s t) (Inv Post : σ → Prop)
    (again : ∀ s t, Inv s → body s = .again t → Inv t)
    (leave : ∀ s t, Inv s → body s = .leave t → Post t) (hs : Inv s) : Post t := by
  induction h with
  | leave hb => exact leave _ _ hs hb
  | again hb _ ih => exact ih (again _ _ hs hb)

end P2Streaming.BoundedLoops
