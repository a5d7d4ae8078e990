import Mathlib.Data.BitVec
import Mathlib.Tactic.Ring

/-! # Big-endian bytes of a natural number -/
namespace P2Streaming.BigEndianBytes

abbrev Byte := BitVec 8

/-- The `n` low bytes of a number, most significant first. -/
def beBytes : ℕ → ℕ → List Byte
  | 0, _ => []
  | n + 1, v => BitVec.ofNat 8 (v / 256^n) :: beBytes n v

/-- The number whose base-256 digits are the bytes, most significant first. -/
def beValue : List Byte → ℕ
  | [] => 0
  | b :: bs => b.toNat * 256^bs.length + beValue bs

@[simp] theorem length_beBytes (n v : ℕ) : (beBytes n v).length = n := by
  induction n with
  | zero => rfl
  | succ n ih => simp [beBytes,ih]

/-- Reading the bytes back gives the number modulo what they can hold. -/
theorem beValue_beBytes_mod (n v : ℕ) : beValue (beBytes n v) = v % 256^n := by
  induction n with
  | zero => simp [beBytes,beValue,Nat.mod_one]
  | succ n ih =>
    simp only [beBytes,beValue,length_beBytes,ih,BitVec.toNat_ofNat]
    have hm : v % 256^(n+1) = v % 256^n + 256^n * (v / 256^n % 256) := by
      rw [pow_succ,Nat.mod_mul]
    rw [hm]
    ring

theorem beValue_beBytes {n v : ℕ} (h : v<256^n) : beValue (beBytes n v) = v := by
  rw [beValue_beBytes_mod,Nat.mod_eq_of_lt h]

theorem beValue_lt (bs : List Byte) : beValue bs < 256^bs.length := by
  induction bs with
  | nil => simp [beValue]
  | cons b bs ih =>
    have hb : b.toNat+1≤256 := b.isLt
    have hm := Nat.mul_le_mul_right (256^bs.length) hb
    simp only [beValue,List.length_cons,pow_succ]
    rw [Nat.add_mul] at hm
    omega

/-- The bytes of a value read from `n` bytes are those bytes. -/
theorem beBytes_beValue (bs : List Byte) : beBytes bs.length (beValue bs) = bs := by
  have high : ∀ (n a v : ℕ), beBytes n (a * 256^n + v) = beBytes n v := by
    intro n
    induction n with
    | zero => exact fun _ _ => rfl
    | succ n ih =>
      intro a v
      have hp : 0<256^n := Nat.pow_pos (by decide)
      have hmul : a * 256^(n+1) = a * 256 * 256^n := by ring
      have hdiv : (a * 256 * 256^n + v) / 256^n = a * 256 + v / 256^n := by
        rw [Nat.add_comm,Nat.add_mul_div_right _ _ hp,Nat.add_comm]
      simp only [beBytes,hmul,ih,hdiv]
      congr 1
      refine BitVec.eq_of_toNat_eq ?_
      simp only [BitVec.toNat_ofNat]
      omega
  induction bs with
  | nil => rfl
  | cons b bs ih =>
    have hv := beValue_lt bs
    have hp : 0<256^bs.length := Nat.pow_pos (by decide)
    have hdiv : (b.toNat * 256^bs.length + beValue bs) / 256^bs.length = b.toNat := by
      rw [Nat.add_comm,Nat.add_mul_div_right _ _ hp,Nat.div_eq_of_lt hv,Nat.zero_add]
    simp only [beValue,List.length_cons,beBytes,hdiv,high,ih]
    simp

end P2Streaming.BigEndianBytes
