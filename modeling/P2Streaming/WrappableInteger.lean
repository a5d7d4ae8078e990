import P2Streaming.SerialNumbers

/-! # `wrappable_integer.hpp`: comparison and difference of wrapping integers -/
namespace P2Streaming.WrappableInteger
open SerialNumbers

variable {w : ℕ}

/-- `wrappable_cmp`: the sign of the shorter way from the second word to the first. -/
def wrappableCmp (val1 val2 : BitVec w) : ℤ :=
  let dist := val1 - val2
  let distDown := dist
  let distUp := -dist
  if distUp<distDown then -1 else if distUp=distDown then 0 else 1

def wrappableLess (left right : BitVec w) : Bool := decide (wrappableCmp left right < 0)

def wrappableGreater (left right : BitVec w) : Bool := wrappableLess right left

def wrappableLessEqual (left right : BitVec w) : Bool := !wrappableLess right left

def wrappableGreaterEqual (left right : BitVec w) : Bool := !wrappableLess left right

/-- `wrappable_minus`: the unsigned difference read as a signed integer. -/
def wrappableMinus (left right : BitVec w) : ℤ := (left - right).toInt

@[simp] theorem wrappableCmp_shift (a b k : BitVec w) :
    wrappableCmp (a+k) (b+k) = wrappableCmp a b := by simp [wrappableCmp]

@[simp] theorem wrappableLess_shift (a b k : BitVec w) :
    wrappableLess (a+k) (b+k) = wrappableLess a b := by simp [wrappableLess]

@[simp] theorem wrappableLessEqual_shift (a b k : BitVec w) :
    wrappableLessEqual (a+k) (b+k) = wrappableLessEqual a b := by simp [wrappableLessEqual]

@[simp] theorem wrappableMinus_shift (a b k : BitVec w) :
    wrappableMinus (a+k) (b+k) = wrappableMinus a b := by simp [wrappableMinus]

theorem wrappableLess_iff (a b : BitVec (w+1)) : wrappableLess a b = true ↔ 2^w < (a - b).toNat := by
  rw [← neg_lt_iff,wrappableLess,decide_eq_true_eq]
  dsimp only [wrappableCmp]
  split_ifs with h h'
  · exact iff_of_true (by decide) h
  · exact iff_of_false (by decide) h
  · exact iff_of_false (by decide) h

@[simp] theorem wrappableLess_self (a : BitVec (w+1)) : wrappableLess a a = false := by
  rw [← Bool.not_eq_true,wrappableLess_iff]
  simp

theorem wrappableLessEqual_iff (a b : BitVec (w+1)) :
    wrappableLessEqual a b = true ↔ (b - a).toNat ≤ 2^w := by
  rw [wrappableLessEqual,Bool.not_eq_true',← Bool.not_eq_true,wrappableLess_iff]
  omega

theorem wrappableLess_place (o : BitVec (w+1)) {m n : ℕ} (h : m<n) (hn : n - m < 2^w) :
    wrappableLess (place o m) (place o n) = true := by
  have hsub : (place o n - place o m).toNat = n - m := by
    rw [toNat_place_sub_place o h.le,Nat.mod_eq_of_lt (by omega)]
  have hneg : place o m - place o n = -(place o n - place o m) := by ring
  rw [wrappableLess_iff,hneg,BitVec.toNat_neg,hsub,Nat.mod_eq_of_lt (by omega)]
  omega

theorem wrappableLess_place_of_ge (o : BitVec (w+1)) {m n : ℕ} (h : n ≤ m)
    (hm : m - n ≤ 2^w) : wrappableLess (place o m) (place o n) = false := by
  have hpos := Nat.two_pow_pos w
  rw [← Bool.not_eq_true,wrappableLess_iff,toNat_place_sub_place o h,
    Nat.mod_eq_of_lt (by omega)]
  omega

theorem wrappableMinus_ofInt {x y : ℤ} (h : |x - y| < 2^w) :
    wrappableMinus (BitVec.ofInt (w+1) x) (BitVec.ofInt (w+1) y) = x - y := by
  have hpow : 2^(w+1) = 2 * 2^w := by ring
  have habs := abs_lt.mp h
  rw [wrappableMinus,BitVec.toInt_sub,BitVec.toInt_ofInt,BitVec.toInt_ofInt,
    Int.bmod_sub_bmod,Int.sub_bmod_bmod]
  apply Int.bmod_eq_of_le <;> rw [hpow] <;> push_cast <;> omega

/-- Less than half the ring apart, the signed difference decides. -/
theorem wrappableLess_iff_minus_neg {a b : BitVec (w+1)} (h : |wrappableMinus a b| < 2^w) :
    wrappableLess a b = true ↔ wrappableMinus a b < 0 := by
  have hpow : 2^(w+1) = 2 * 2^w := by ring
  have hlt := (a - b).isLt
  have hcast : ((2^w : ℕ) : ℤ) = 2^w := by push_cast; rfl
  rw [abs_lt,wrappableMinus,BitVec.toInt_eq_toNat_cond] at h
  rw [wrappableLess_iff,wrappableMinus,BitVec.toInt_eq_toNat_cond]
  split_ifs at h ⊢ <;> omega

theorem wrappableLess_ofInt {x y : ℤ} (h : |x - y| < 2^w) :
    wrappableLess (BitVec.ofInt (w+1) x) (BitVec.ofInt (w+1) y) = true ↔ x<y := by
  rw [wrappableLess_iff_minus_neg (by rwa [wrappableMinus_ofInt h]),wrappableMinus_ofInt h]
  exact sub_neg

/-- The comparisons of words agree with those of the numbers they stand for. -/
structure ComparesLike (w : ℕ) (x y : ℤ) : Prop where
  less : wrappableLess (BitVec.ofInt (w+1) x) (BitVec.ofInt (w+1) y) = true ↔ x<y
  lessEqual : wrappableLessEqual (BitVec.ofInt (w+1) x) (BitVec.ofInt (w+1) y) = true ↔ x≤y
  greater : wrappableGreater (BitVec.ofInt (w+1) x) (BitVec.ofInt (w+1) y) = true ↔ x > y
  minus : wrappableMinus (BitVec.ofInt (w+1) x) (BitVec.ofInt (w+1) y) = x - y

theorem comparesLike_of_near {x y : ℤ} (h : |x - y| < 2^w) : ComparesLike w x y := by
  have hsymm : |y - x| < 2^w := abs_sub_comm x y ▸ h
  refine ⟨wrappableLess_ofInt h,?_,wrappableLess_ofInt hsymm,wrappableMinus_ofInt h⟩
  rw [wrappableLessEqual,Bool.not_eq_true',← Bool.not_eq_true,wrappableLess_ofInt hsymm,not_lt]

/-- Words of numbers less than half the ring apart compare like the numbers, wherever these lie. -/
theorem half_window_true_order (w : ℕ) (s : Set ℤ) (h : ∀ x∈s, ∀ y∈s, |x - y| < 2^w) :
    (∀ x∈s, ∀ y∈s, ComparesLike w x y) ∧
    IsStrictTotalOrder (BitVec.ofInt (w+1) '' s) fun a b => wrappableLess a.1 b.1 = true := by
  have hlike : ∀ x∈s, ∀ y∈s, ComparesLike w x y :=
    fun x hx y hy => comparesLike_of_near (h x hx y hy)
  refine ⟨hlike,{ trichotomous := ?_, irrefl := ?_, trans := ?_ }⟩
  · rintro ⟨_,x,hx,rfl⟩ ⟨_,y,hy,rfl⟩ hxy hyx
    rw [(hlike x hx y hy).less,not_lt] at hxy
    rw [(hlike y hy x hx).less,not_lt] at hyx
    exact Subtype.ext (congrArg (BitVec.ofInt (w+1)) (le_antisymm hyx hxy))
  · rintro ⟨_,x,hx,rfl⟩
    simp
  · rintro ⟨_,x,hx,rfl⟩ ⟨_,y,hy,rfl⟩ ⟨_,z,hz,rfl⟩ hxy hyz
    rw [(hlike x hx y hy).less] at hxy
    rw [(hlike y hy z hz).less] at hyz
    exact (hlike x hx z hz).less.mpr (hxy.trans hyz)

/-- A window of four numbers around the wrap of eight bits. -/
theorem window_at_wrap_ordered :
    (∀ x ∈ ({254, 255, 256, 300} : Set ℤ), ∀ y ∈ ({254, 255, 256, 300} : Set ℤ), ComparesLike 7 x y) ∧
    IsStrictTotalOrder (BitVec.ofInt 8 '' {254, 255, 256, 300}) fun a b => wrappableLess a.1 b.1 = true :=
  half_window_true_order 7 _ (by simp [abs])

end P2Streaming.WrappableInteger
