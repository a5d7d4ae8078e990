import Mathlib.Data.BitVec
import Mathlib.Data.List.GetD

/-!
# Parity of strings of different lengths

Strings are added symbol by symbol, the shorter one continued by zeros. The sum of a
list of strings and of all of them but one is that one, continued by zeros.
-/
namespace P2Streaming.XorParity

variable {w : ℕ}

/-- The symbol-wise sum; the longer string's rest is kept. -/
def xorPad : List (BitVec w) → List (BitVec w) → List (BitVec w)
  | [], b => b
  | x :: a, [] => x :: a
  | x :: a, y :: b => (x ^^^ y) :: xorPad a b

@[simp] theorem xorPad_nil (a : List (BitVec w)) : xorPad a [] = a := by
  cases a <;> rfl

theorem length_xorPad (a b : List (BitVec w)) : (xorPad a b).length = max a.length b.length := by
  induction a, b using xorPad.induct with
  | case1 b => simp [xorPad]
  | case2 x a => simp [xorPad]
  | case3 x a y b ih => simp [xorPad,ih]

/-- Every symbol of a sum is the sum of the symbols. -/
theorem getD_xorPad (a b : List (BitVec w)) (o : ℕ) :
    (xorPad a b).getD o 0 = a.getD o 0 ^^^ b.getD o 0 := by
  induction a, b using xorPad.induct generalizing o with
  | case1 b => simp [xorPad]
  | case2 x a => simp [xorPad]
  | case3 x a y b ih =>
    cases o with
    | zero => simp [xorPad]
    | succ o => simpa [xorPad] using ih o

/-- The sum of a list of words. -/
def total (xs : List (BitVec w)) : BitVec w := xs.foldr (· ^^^ ·) 0

@[simp] theorem total_nil : total ([] : List (BitVec w)) = 0 := rfl

@[simp] theorem total_cons (x : BitVec w) (xs : List (BitVec w)) : total (x::xs) = x ^^^ total xs := rfl

theorem total_append (xs ys : List (BitVec w)) : total (xs++ys) = total xs ^^^ total ys := by
  induction xs with
  | nil => simp
  | cons x xs ih => rw [List.cons_append,total_cons,ih,total_cons,BitVec.xor_assoc]

/-- One summand can be split off wherever it stands. -/
theorem total_middle (xs : List (BitVec w)) (y : BitVec w) (ys : List (BitVec w)) :
    total (xs ++ y :: ys) = y ^^^ total (xs++ys) := by
  rw [total_append,total_append,total_cons,← BitVec.xor_assoc,← BitVec.xor_assoc,
    BitVec.xor_comm (total xs) y]

theorem xor_self_left (x y : BitVec w) : x ^^^ (x ^^^ y) = y := by
  rw [← BitVec.xor_assoc,BitVec.xor_self,BitVec.zero_xor]

/-- Strings added one after the other to a start. -/
def parity (start : List (BitVec w)) (l : List (List (BitVec w))) : List (BitVec w) :=
  l.foldl xorPad start

@[simp] theorem parity_nil (start : List (BitVec w)) : parity start [] = start := rfl

@[simp] theorem parity_cons (start a : List (BitVec w)) (l : List (List (BitVec w))) :
    parity start (a::l) = parity (xorPad start a) l := rfl

theorem parity_concat (start a : List (BitVec w)) (l : List (List (BitVec w))) :
    parity start (l ++ [a]) = xorPad (parity start l) a := by
  rw [parity,List.foldl_append,List.foldl_cons,List.foldl_nil,parity]

theorem getD_parity (start : List (BitVec w)) (l : List (List (BitVec w))) (o : ℕ) :
    (parity start l).getD o 0 = start.getD o 0 ^^^ total (l.map fun a => a.getD o 0) := by
  induction l generalizing start with
  | nil => simp
  | cons a l ih => rw [parity_cons,ih,getD_xorPad,List.map_cons,total_cons,BitVec.xor_assoc]

/-- The length of the longest string. -/
def longest (l : List (List (BitVec w))) : ℕ := (l.map List.length).foldr max 0

theorem length_parity (start : List (BitVec w)) (l : List (List (BitVec w))) :
    (parity start l).length = max start.length (longest l) := by
  induction l generalizing start with
  | nil => simp [longest]
  | cons a l ih =>
    rw [parity_cons,ih,length_xorPad,max_assoc]
    rfl

variable {l : List (List (BitVec w))}

theorem length_le_longest {a : List (BitVec w)} (h : a∈l) : a.length ≤ longest l := by
  induction l with
  | nil => cases h
  | cons b l ih =>
    rcases List.mem_cons.mp h with rfl | h
    · exact le_max_left _ _
    · exact (ih h).trans (le_max_right _ _)

theorem length_le_parity {start : List (BitVec w)} {a : List (BitVec w)}
    (h : a∈l) : a.length ≤ (parity start l).length := by
  rw [length_parity]
  exact (length_le_longest h).trans (le_max_right _ _)

/-- A start at least as long as every string keeps its length. -/
theorem length_parity_of_le {start : List (BitVec w)}
    (h : ∀ a∈l, a.length ≤ start.length) : (parity start l).length = start.length := by
  induction l generalizing start with
  | nil => rfl
  | cons a l ih =>
    have ha : (xorPad start a).length = start.length := by
      rw [length_xorPad,max_eq_left (h a List.mem_cons_self)]
    rw [parity_cons,ih,ha]
    intro b hb
    rw [ha]
    exact h b (List.mem_cons_of_mem a hb)

end P2Streaming.XorParity
