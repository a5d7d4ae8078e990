import P2Streaming.BitsetDecoding
import Mathlib.Order.Bounds.Basic

/-!
# The starting point taken from a buffermap

A client without a starting point takes it from the first buffermap it receives: what the peer
knows, or the last number of the bitset. The last number is searched from the end of the string,
and the place of its bit is counted by shifting the byte until nothing is left of it. The count
starts at one, so the search ends one number behind the last one the peer has announced.
-/
namespace P2Streaming.BufferManager

/-- `while ((chr <<= 1)) j++`; a byte is empty after eight passes. -/
def shiftsLeft : ℕ → BitVec 8 → ℕ → ℕ
  | 0, _, j => j
  | passes + 1, chr, j => if chr <<< 1 = 0 then j else shiftsLeft passes (chr <<< 1) (j+1)

/-- The loop over the bytes from `i` down; the string ends with a zero. -/
def scanDown (str : List (BitVec 8)) : ℕ → Option ℕ
  | 0 => if str.getD 0 0 ≠ 0 then some (shiftsLeft 8 (str.getD 0 0) 1) else none
  | i + 1 =>
      if str.getD (i+1) 0 ≠ 0 then some ((i+1) * 8 + shiftsLeft 8 (str.getD (i+1) 0) 1)
      else scanDown str i

def findMaxSeqnoFromBufmap (bufmap : BuffermapInfo) : Option (BitVec 32) :=
  match bufmap.bigestSeqnoIKnow with
  | some bigest => some bigest
  | none =>
      match bufmap.bitset with
      | some str =>
          (scanDown str str.length).map fun p => seqnoAt (bufmap.firstSeqnoInBitset.getD 0) p
      | none => none

def announced (bufmap : BuffermapInfo) : Set ℕ := {p | isBit (bufmap.bitset.getD []) p = true}

theorem shiftsLeft_spec : ∀ chr : BitVec 8, chr≠0 →
    ∃ p : Fin 8, shiftsLeft 8 chr 1 = p+1 ∧ chr.getLsbD (7 - p) = true ∧
      ∀ q : Fin 8, p<q → chr.getLsbD (7 - q) = false := by
  decide +kernel

variable {str : List (BitVec 8)}

theorem isBit_of_getD_eq_zero {p : ℕ} (h : str.getD (p / 8) 0 = 0) : isBit str p = false := by
  rw [isBit,h]
  exact BitVec.getLsbD_zero

theorem getD_behind {k : ℕ} (h : str.length≤k) : str.getD k 0 = 0 := by
  simp [List.getD_eq_getElem?_getD,h]

theorem lt_of_isBit {p : ℕ} (h : isBit str p = true) : p / 8 < str.length := by
  by_contra hge
  rw [isBit_of_getD_eq_zero (getD_behind (Nat.le_of_not_lt hge))] at h
  cases h

theorem isGreatest_of_last {i : ℕ} (h : str.getD i 0 ≠ 0) (hbehind : ∀ k, i<k → str.getD k 0 = 0) :
    ∃ p, IsGreatest {p | isBit str p = true} p ∧ i * 8 + shiftsLeft 8 (str.getD i 0) 1 = p+1 := by
  obtain ⟨⟨j,hj⟩,hshifts,hbit,hlast⟩ := shiftsLeft_spec _ h
  have hdiv : (i * 8 + j) / 8 = i := by omega
  have hmod : (i * 8 + j) % 8 = j := by omega
  refine ⟨i * 8 + j,⟨?_,?_⟩,by rw [hshifts]; rfl⟩
  · change isBit str (i * 8 + j) = true
    rw [isBit,hdiv,hmod]
    exact hbit
  · intro q hq
    change isBit str q = true at hq
    by_contra hlt
    rcases Nat.lt_or_ge i (q / 8) with hbyte | hbyte
    · rw [isBit_of_getD_eq_zero (hbehind _ hbyte)] at hq
      cases hq
    · have hsame : q / 8 = i := by omega
      rw [isBit,hsame,hlast ⟨q % 8,by omega⟩ (by rw [Fin.lt_def]; dsimp only; omega)] at hq
      cases hq

theorem scanDown_spec (i : ℕ) (hbehind : ∀ k, i<k → str.getD k 0 = 0) :
    (∃ p, IsGreatest {p | isBit str p = true} p ∧ scanDown str i = some (p+1)) ∨
      (∀ p, isBit str p = false) ∧ scanDown str i = none := by
  induction i with
  | zero =>
    rw [scanDown]
    split_ifs with h
    · obtain ⟨p,hp,hshifts⟩ := isGreatest_of_last h hbehind
      rw [Nat.zero_mul,Nat.zero_add] at hshifts
      exact .inl ⟨p,hp,congrArg some hshifts⟩
    · refine .inr ⟨fun p => isBit_of_getD_eq_zero ?_,rfl⟩
      rcases Nat.eq_zero_or_pos (p / 8) with hp | hp
      · rw [hp]
        exact not_not.mp h
      · exact hbehind _ hp
  | succ i ih =>
    rw [scanDown]
    split_ifs with h
    · obtain ⟨p,hp,hshifts⟩ := isGreatest_of_last h hbehind
      exact .inl ⟨p,hp,congrArg some hshifts⟩
    · refine ih fun k hk => ?_
      rcases Nat.lt_or_ge (i+1) k with hk' | hk'
      · exact hbehind k hk'
      · have hsame : k=i+1 := by omega
        rw [hsame]
        exact not_not.mp h

theorem findMaxSeqnoFromBufmap_spec {bufmap : BuffermapInfo} (h : bufmap.bigestSeqnoIKnow=none) :
    (∃ p, IsGreatest (announced bufmap) p ∧ findMaxSeqnoFromBufmap bufmap =
        some (seqnoAt (bufmap.firstSeqnoInBitset.getD 0) (p+1))) ∨
      (∀ p, p ∉ announced bufmap) ∧ findMaxSeqnoFromBufmap bufmap = none := by
  unfold findMaxSeqnoFromBufmap announced
  rw [h]
  cases hstr : bufmap.bitset with
  | none => exact .inr ⟨fun p hp => Nat.not_lt_zero _ (lt_of_isBit hp),rfl⟩
  | some str =>
    dsimp only [Option.getD_some]
    rcases scanDown_spec str.length (fun k hk => getD_behind hk.le) with
      ⟨p,hp,hscan⟩ | ⟨hnone,hscan⟩
    · exact .inl ⟨p,hp,by rw [hscan]; rfl⟩
    · refine .inr ⟨fun p hp => ?_,by rw [hscan]; rfl⟩
      have hbit : isBit str p = true := hp
      rw [hnone p] at hbit
      cases hbit

/-- The result is the largest number the peer has announced, and nothing if there is none. -/
def IsLastAnnounced (bufmap : BuffermapInfo) (result : Option (BitVec 32)) : Prop :=
  (∀ p, IsGreatest (announced bufmap) p →
    result = some (seqnoAt (bufmap.firstSeqnoInBitset.getD 0) p)) ∧
  ((∀ p, p ∉ announced bufmap) → result=none)

/-- The search returns the largest announced number only where there is none. -/
theorem last_announced_found_iff (bufmap : BuffermapInfo) (h : bufmap.bigestSeqnoIKnow=none) :
    IsLastAnnounced bufmap (findMaxSeqnoFromBufmap bufmap) ↔ ∀ p, p ∉ announced bufmap := by
  rcases findMaxSeqnoFromBufmap_spec h with ⟨p,hp,hfound⟩ | ⟨hnone,hfound⟩
  · refine iff_of_false (fun hlast => ?_) fun hempty => hempty p hp.1
    have hsame := Option.some.inj (hfound.symm.trans (hlast.1 p hp))
    rw [← seqnoAt_add] at hsame
    generalize seqnoAt (bufmap.firstSeqnoInBitset.getD 0) p = last at hsame
    have hone : last + 1#32 = last := hsame
    bv_omega
  · exact iff_of_true ⟨fun p hp => absurd hp.1 (hnone p),fun _ => hfound⟩ hnone

/-- A buffermap with an empty byte. -/
theorem empty_bitset_found : (∀ p, p ∉ announced ⟨some [0],some 100,none,[]⟩) ∧
      IsLastAnnounced ⟨some [0],some 100,none,[]⟩
        (findMaxSeqnoFromBufmap ⟨some [0],some 100,none,[]⟩) := by
  have hempty : ∀ p, p ∉ announced ⟨some [0],some 100,none,[]⟩ := by
    intro p hp
    have hplace : p / 8 < 1 := lt_of_isBit hp
    have hbits : ∀ q<8, ¬ isBit [0] q = true := by decide
    exact hbits p (by omega) hp
  exact ⟨hempty,(last_announced_found_iff ⟨some [0],some 100,none,[]⟩ rfl).mpr hempty⟩

/-- Only number 100 is announced, and the search returns number 101. -/
theorem unannounced_number_found : findMaxSeqnoFromBufmap ⟨some [0x80],some 100,none,[]⟩ = some 101 ∧
      ¬ IsLastAnnounced ⟨some [0x80],some 100,none,[]⟩
        (findMaxSeqnoFromBufmap ⟨some [0x80],some 100,none,[]⟩) := by
  refine ⟨by decide,fun h => ?_⟩
  have hfirst : IsGreatest (announced ⟨some [0x80],some 100,none,[]⟩) 0 := by
    refine ⟨show isBit [0x80] 0 = true by decide,fun p hp => ?_⟩
    have hplace : p / 8 < 1 := lt_of_isBit hp
    have hbits : ∀ q<8, isBit [0x80] q = true → q≤0 := by decide
    exact hbits p (by omega) hp
  exact absurd (h.1 0 hfirst) (by decide)

end P2Streaming.BufferManager
