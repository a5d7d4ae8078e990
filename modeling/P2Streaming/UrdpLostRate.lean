import Mathlib.Algebra.Order.Field.Rat
import P2Streaming.SerialMaps
import P2Streaming.UrdpFlowState

/-!
# The loss rate a flow measures

`__calc_remote_to_local_lost_rate` keeps the marks of the datagrams of the last seconds in a map over
8 bit words that wrap. Their comparison is an order only on less than half the ring, so the loop in
front of the insertion throws away what lies too far behind the new mark.
-/
namespace P2Streaming
open SerialMaps WrappableInteger List
open Urdp (Time32 modLess)

/-- `recvd_seqno_mark_for_lost_rate_` in its order, and `remote_to_local_lost_rate_`. -/
structure LostRate where
  marks : List (BitVec 8 × Time32)
  rate : ℚ

/-- What a call has found: nothing new, no mark, a fraction, or the case marked as a bug. -/
inductive LossMeasure where
  | unchanged
  | empty
  | fraction (lostRate : ℚ)
  | bug

namespace LostRate

/-- The conditions of the loop, in front of a map whose first mark is `first`. -/
def stale (now : Time32) (id : Option (BitVec 8)) (first : BitVec 8 × Time32)
    (rest : List (BitVec 8 × Time32)) : Bool :=
  let last := (first::rest).getLast (cons_ne_nil _ _)
  126 ≤ rest.length + 1 || modLess (first.2+3000) now ||
    (0 < rest.length && wrappableMinus last.1 first.1 ≤ 0) ||
    id.any fun id => wrappableMinus id first.1 < 0 ||
      (wrappableGreaterEqual first.1 id && wrappableGreaterEqual id last.1)

def prune (now : Time32) (id : Option (BitVec 8)) : List (BitVec 8 × Time32) → List (BitVec 8 × Time32)
  | [] => []
  | first :: rest => if stale now id first rest then prune now id rest else first :: rest

def measure : List (BitVec 8 × Time32) → LossMeasure
  | [] => .empty
  | first :: rest =>
    let cnt := wrappableMinus ((first::rest).getLast (cons_ne_nil _ _)).1 first.1 + 1
    if (rest.length+1 : ℕ) ≤ cnt then .fraction (1 - (rest.length+1 : ℕ) / cnt) else .bug

/-- How a measure enters the rate of the flow. -/
def smooth (rate : ℚ) : LossMeasure → ℚ
  | .unchanged => rate
  | .empty => 0
  | .fraction lostRate => if rate<0 then lostRate else rate * 0.125 + lostRate * 0.875
  | .bug => if rate<0 then 0 else rate

/-- `__calc_remote_to_local_lost_rate` in state `ESTABLISHED`. The place hinted to the insertion does
not matter where the marks are in order. -/
def calcRemoteToLocalLostRate (r : LostRate) (now : Time32) (id : Option (BitVec 8)) :
    LostRate × LossMeasure :=
  let pruned := prune now id r.marks
  let marks := id.elim pruned fun id => SerialMaps.insert Prod.fst (id, now) pruned
  let found := if id.isSome ∨ pruned.length < r.marks.length then measure marks else .unchanged
  let rate := smooth r.rate found
  let rate := if marks=[] then rate / 2 else rate
  (⟨marks,min 1 (max 0 rate)⟩, found)

def step (r : LostRate) (call : Time32 × Option (BitVec 8)) : LostRate :=
  (r.calcRemoteToLocalLostRate call.1 call.2).1

/-- The marks lie in order in the half ring above the first one. -/
def Anchored : List (BitVec 8 × Time32) → Prop
  | [] => True
  | first :: rest => Window Prod.fst first.1 (2^7) (first::rest)

variable {first : BitVec 8 × Time32} {rest : List (BitVec 8 × Time32)} {now : Time32}
  {id : Option (BitVec 8)}

theorem Anchored.tail (h : Anchored (first::rest)) : Anchored rest := by
  cases rest with
  | nil => trivial
  | cons second rest => exact (Window.tail h).advance_to_head

theorem anchored_prune {marks : List (BitVec 8 × Time32)} (h : Anchored marks) :
    Anchored (prune now id marks) := by
  induction marks with
  | nil => trivial
  | cons first rest ih =>
    rw [prune]
    split_ifs
    · exact ih h.tail
    · exact h

/-- The loop stops in front of a mark that is not stale. -/
theorem not_stale_of_prune {marks : List (BitVec 8 × Time32)} (h : prune now id marks = first :: rest) :
    stale now id first rest = false := by
  induction marks with
  | nil => cases h
  | cons first' rest' ih =>
    rw [prune] at h
    split_ifs at h with hs
    · exact ih h
    · obtain ⟨rfl,rfl⟩ := List.cons.inj h
      exact Bool.eq_false_of_not_eq_true hs

theorem ahead_lt_of_minus_nonneg {a b : BitVec 8} (h : 0 ≤ wrappableMinus a b) : ahead b a < 2^7 := by
  have hlt := (a - b).isLt
  rw [wrappableMinus,BitVec.toInt_eq_toNat_cond] at h
  unfold ahead
  split_ifs at h <;> omega

theorem anchored_insert {id : BitVec 8} {marks : List (BitVec 8 × Time32)}
    (h : Anchored (prune now (some id) marks)) :
    Anchored (SerialMaps.insert Prod.fst (id, now) (prune now (some id) marks)) := by
  cases hp : prune now (some id) marks with
  | nil => exact Window.nil.insert le_rfl (by simp)
  | cons first rest =>
    rw [hp] at h
    have hfresh := not_stale_of_prune hp
    have hahead : ahead first.1 id < 2^7 := by
      refine ahead_lt_of_minus_nonneg ?_
      simp [stale] at hfresh
      exact hfresh.2.1
    have hwindow := Window.insert (x := (id, now)) h le_rfl hahead
    obtain ⟨rest',heq⟩ : ∃ rest', SerialMaps.insert Prod.fst (id, now) (first::rest) = first :: rest' :=
      Window.insert_behind_head le_rfl hahead (by simp)
    rw [heq] at hwindow ⊢
    exact hwindow

theorem anchored_step {r : LostRate} (h : Anchored r.marks) (call : Time32 × Option (BitVec 8)) :
    Anchored (r.step call).marks := by
  obtain ⟨now,id⟩ := call
  cases id with
  | none => exact anchored_prune h
  | some id => exact anchored_insert (anchored_prune h)

/-- The last mark is as far ahead as there are marks in front of it. -/
theorem Anchored.length_le (h : Anchored (first::rest)) : ((rest.length+1 : ℕ) : ℤ) ≤
      wrappableMinus ((first::rest).getLast (cons_ne_nil _ _)).1 first.1 + 1 := by
  have hsplit := dropLast_append_getLast (cons_ne_nil first rest)
  have hlast := Window.bounded h _ (getLast_mem (cons_ne_nil first rest))
  generalize (first::rest).getLast (cons_ne_nil _ _) = last at hsplit hlast ⊢
  have hwindow : Window Prod.fst first.1 (ahead first.1 last.1 + 1) (first::rest) := by
    refine ⟨Window.sorted h,fun x hx => Nat.lt_succ_of_le ?_⟩
    have hsorted := Window.sorted h
    rw [← hsplit] at hx hsorted
    rcases mem_append.mp hx with hx | hx
    · exact ((pairwise_append.mp hsorted).2.2 x hx last (mem_singleton_self _)).le
    · rw [mem_singleton.mp hx]
  have hlen := hwindow.length_le
  rw [wrappableMinus,BitVec.toInt_eq_toNat_cond]
  unfold ahead at hlen hlast
  rw [length_cons] at hlen
  split_ifs <;> omega

theorem measure_of_anchored {marks : List (BitVec 8 × Time32)} (h : Anchored marks) :
    measure marks ≠ .bug ∧ ∀ lostRate, measure marks = .fraction lostRate → 0≤lostRate ∧ lostRate≤1 := by
  cases marks with
  | nil => exact ⟨nofun,nofun⟩
  | cons first rest =>
    have hlen := h.length_le
    rw [measure,if_pos hlen]
    refine ⟨nofun,fun lostRate hrate => ?_⟩
    obtain rfl := LossMeasure.fraction.inj hrate
    have hle : ((rest.length+1 : ℕ) : ℚ) ≤
        ((wrappableMinus ((first::rest).getLast (cons_ne_nil _ _)).1 first.1 + 1 : ℤ) : ℚ) := by
      exact_mod_cast hlen
    have hpos : (0 : ℚ) < (rest.length+1 : ℕ) := by exact_mod_cast Nat.succ_pos _
    exact ⟨sub_nonneg.mpr (div_le_one_of_le₀ hle (hpos.trans_le hle).le),
      sub_le_self _ (div_pos hpos (hpos.trans_le hle)).le⟩

/-- After every sequence of calls, a further call leaves no mark or marks that span at least as many
words as there are of them. So it does not come to the case marked as a bug, and the fraction that
it computes lies between 0 and 1. -/
theorem lost_rate_never_bug (rate : ℚ) (calls : List (Time32 × Option (BitVec 8))) (now : Time32)
    (id : Option (BitVec 8)) :
    let r := (calls.foldl step ⟨[],rate⟩).calcRemoteToLocalLostRate now id
    (∀ first ∈ r.1.marks.head?, ∀ last ∈ r.1.marks.getLast?,
      (r.1.marks.length : ℤ) - 1 ≤ wrappableMinus last.1 first.1) ∧ r.2 ≠ .bug ∧
      ∀ lostRate, r.2 = .fraction lostRate → 0≤lostRate ∧ lostRate≤1 := by
  have hbefore : Anchored (calls.foldl step ⟨[],rate⟩).marks := by
    induction calls using List.reverseRecOn with
    | nil => trivial
    | append_singleton calls call ih =>
      rw [foldl_append]
      exact anchored_step ih call
  have hafter := anchored_step hbefore (now, id)
  intro r
  refine ⟨fun first hfirst last hlast => ?_,?_⟩
  · change Anchored r.1.marks at hafter
    generalize r.1.marks = marks at hafter hfirst hlast ⊢
    cases marks with
    | nil => cases hfirst
    | cons first' rest =>
      obtain rfl : first'=first := Option.some.inj hfirst
      have hlen := hafter.length_le
      rw [Option.some.inj ((List.getLast?_eq_some_getLast (cons_ne_nil _ _)).symm.trans hlast)] at hlen
      rw [length_cons]
      omega
  · by_cases hcalc : id.isSome ∨
        (prune now id (calls.foldl step ⟨[],rate⟩).marks).length <
        (calls.foldl step ⟨[],rate⟩).marks.length
    · rw [show r.2 = measure r.1.marks from if_pos hcalc]
      exact measure_of_anchored hafter
    · rw [show r.2 = .unchanged from if_neg hcalc]
      exact ⟨nofun,nofun⟩

end LostRate
end P2Streaming
