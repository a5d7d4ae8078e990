import Mathlib.Data.List.Basic

/-!
# Scanners that decide on a prefix

A scanner reads its input from left to right until it accepts or rejects what it has seen. More
input behind the place where it decides changes nothing, so a scanner that is started anew
whenever more input has come in decides the same way, only later.
-/
namespace P2Streaming.PrefixScanners

variable {σ β : Type*}

/-- What a scanner says of an element: it reads on, it accepts with or without this element, or it
rejects. -/
inductive Verdict (σ : Type*) where
  | more (s : σ)
  | accept (inclusive : Bool)
  | reject

inductive Outcome where
  | accepted (len : ℕ)
  | rejected
  deriving DecidableEq, Repr

/-- The outcome of a scan that has read `n` elements before, if there is one yet. -/
def scan (step : σ → β → Verdict σ) : σ → ℕ → List β → Option Outcome
  | _, _, [] => none
  | s, n, b :: rest =>
      match step s b with
      | .more s' => scan step s' (n+1) rest
      | .accept inclusive => some (.accepted (if inclusive then n + 1 else n))
      | .reject => some .rejected

variable {step : σ → β → Verdict σ}

/-- A decision stands whatever comes behind. -/
theorem scan_append {s : σ} {n : ℕ} {p : List β} {r : Outcome} (h : scan step s n p = some r)
    (q : List β) : scan step s n (p++q) = some r := by
  induction p generalizing s n with
  | nil => cases h
  | cons b p ih =>
    rw [List.cons_append,scan]
    rw [scan] at h
    split at h
    · exact ih h
    · exact h
    · exact h

/-- On a part of the input there is the same decision or none yet. -/
theorem scan_isPrefix {s : σ} {n : ℕ} {p input : List β} {r : Outcome} (hp : p <+: input)
    (h : scan step s n input = some r) : scan step s n p = none ∨ scan step s n p = some r := by
  obtain ⟨q,rfl⟩ := hp
  cases hs : scan step s n p with
  | none => exact .inl rfl
  | some r' => exact .inr ((scan_append hs q).symm.trans h)

theorem scan_accepted_le {s : σ} {n len : ℕ} {p : List β}
    (h : scan step s n p = some (.accepted len)) : len≤n+p.length := by
  induction p generalizing s n with
  | nil => cases h
  | cons b p ih =>
    rw [scan] at h
    rw [List.length_cons]
    split at h
    · have := ih h
      omega
    · simp only [Option.some.injEq,Outcome.accepted.injEq] at h
      split_ifs at h <;> omega
    · cases h

end P2Streaming.PrefixScanners
