import Mathlib.Data.BitVec
import Mathlib.Tactic.Ring

/-!
# Serial numbers: words compared by the shorter way around the ring

A word is read as a position on a ring of `2 ^ (w + 1)` places. The way up from
`b` to `a` is the word `a - b`; it is the longer way exactly when it exceeds
half the ring. Positions counted from a common origin compare like the natural
numbers that count them, as long as they stay within half the ring.
-/
namespace P2Streaming.SerialNumbers

variable {w : ℕ}

theorem neg_lt_iff (d : BitVec (w+1)) : -d < d ↔ 2^w<d.toNat := by
  rw [BitVec.lt_def,BitVec.toNat_neg]
  rcases Nat.eq_zero_or_pos d.toNat with h | h
  · simp [h]
  · rw [Nat.mod_eq_of_lt (by omega)]
    omega

@[simp] theorem shift_sub_shift (a b k : BitVec w) : a + k - (b+k) = a - b := by ring

/-- The place `n` steps above an origin. -/
def place (o : BitVec w) (n : ℕ) : BitVec w := o + BitVec.ofNat w n

variable (o : BitVec w)

@[simp] theorem place_zero : place o 0 = o := by simp [place]

theorem place_add (m n : ℕ) : place o (m+n) = place o m + BitVec.ofNat w n := by
  simp only [place,BitVec.ofNat_add]
  ring

theorem place_sub_place {m n : ℕ} (h : n ≤ m) :
    place o m - place o n = BitVec.ofNat w (m - n) := by
  obtain ⟨d,rfl⟩ := Nat.exists_eq_add_of_le h
  rw [place_add,Nat.add_sub_cancel_left]
  ring

/-- The arc between two places is the difference of their counts around the ring. -/
theorem toNat_place_sub_place {m n : ℕ} (h : n ≤ m) :
    (place o m - place o n).toNat = (m - n) % 2^w := by
  rw [place_sub_place o h,BitVec.toNat_ofNat]

theorem toNat_place {n : ℕ} (h : o.toNat+n<2^w) : (place o n).toNat = o.toNat+n := by
  rw [place,BitVec.toNat_add,BitVec.toNat_ofNat,Nat.add_mod_mod,Nat.mod_eq_of_lt h]

end P2Streaming.SerialNumbers
