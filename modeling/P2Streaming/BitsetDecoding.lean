import P2Streaming.BufferManager
import Mathlib.Data.List.Range

/-!
# What is read from the bitset of a buffermap

The scan jumps over the bytes before the window, passes bytes without a bit, and stops at the
first number that counts as above the window or above what the peer knows. Along a long way the
modular order turns round, so a number that is wanted may come behind one at which the scan
stops. Apart from that the scan finds exactly the numbers that are wanted, in their order.
-/
namespace P2Streaming.BufferManager
open WrappableInteger SerialMaps List

def isBit (buf : List (BitVec 8)) (bit : ℕ) : Bool := (buf.getD (bit / 8) 0).getLsbD (7 - bit % 8)

def seqnoAt (firstSeqno : BitVec 32) (p : ℕ) : BitVec 32 := firstSeqno + BitVec.ofNat 32 p

def beyond (seqMax bigestSeqno seqno : BitVec 32) : Bool :=
  wrappableGreater seqno bigestSeqno || wrappableGreater seqno seqMax

theorem seqnoAt_zero (s : BitVec 32) : seqnoAt s 0 = s := by simp [seqnoAt]

theorem seqnoAt_add (s : BitVec 32) (a b : ℕ) : seqnoAt (seqnoAt s a) b = seqnoAt s (a+b) := by
  simp [seqnoAt,BitVec.ofNat_add,BitVec.add_assoc]

theorem takeWhile_congr {α : Type*} {f g : α → Bool} {l : List α} (h : ∀ x∈l, f x = g x) :
    l.takeWhile f = l.takeWhile g := by
  induction l with
  | nil => rfl
  | cons x l ih =>
    rw [takeWhile_cons,takeWhile_cons,h x mem_cons_self,
      ih fun y hy => h y (mem_cons_of_mem x hy)]

theorem takeWhile_append_of_exists {α : Type*} {f : α → Bool} {l l' : List α}
    (h : ∃ x∈l, f x = false) : (l++l').takeWhile f = l.takeWhile f := by
  induction l with
  | nil => simp at h
  | cons y l ih =>
    rw [cons_append,takeWhile_cons,takeWhile_cons]
    split_ifs with hy
    · obtain ⟨x,hx,hfx⟩ := h
      rcases mem_cons.mp hx with rfl | hx
      · rw [hy] at hfx
        cases hfx
      · rw [ih ⟨x,hx,hfx⟩]
    · rfl

section Scan
variable (seqMin seqMax bigestSeqno : BitVec 32)

theorem scanBits_eq (bits : List Bool) (s : BitVec 32) : scanBits seqMin seqMax bigestSeqno bits s =
      ((((List.range bits.length).takeWhile fun j => !beyond seqMax bigestSeqno (seqnoAt s j)).filter
        fun j => bits.getD j false && wrappableGreaterEqual (seqnoAt s j) seqMin).map (seqnoAt s),
      (List.range bits.length).any fun j => beyond seqMax bigestSeqno (seqnoAt s j)) := by
  induction bits generalizing s with
  | nil => rfl
  | cons bit rest ih =>
    have hnext : seqnoAt (s+1) = seqnoAt s ∘ Nat.succ := by
      funext j
      rw [Function.comp_apply,Nat.succ_eq_add_one,Nat.add_comm,← seqnoAt_add s 1 j]
      rfl
    rw [scanBits,length_cons,range_succ_eq_map,takeWhile_cons,any_cons,
      seqnoAt_zero]
    by_cases hb : beyond seqMax bigestSeqno s = true
    · have hb' : (wrappableGreater s bigestSeqno || wrappableGreater s seqMax) = true := hb
      rw [if_pos hb',hb]
      rfl
    · have hb' : ¬ (wrappableGreater s bigestSeqno || wrappableGreater s seqMax) = true := hb
      rw [if_neg hb',ih (s+1),Bool.eq_false_of_not_eq_true hb]
      simp only [Bool.not_false,if_true,Bool.false_or,takeWhile_map,filter_cons,
        filter_map,any_map,Function.comp_def,getD_cons_zero,getD_cons_succ,
        seqnoAt_zero,hnext,Nat.succ_eq_add_one]
      split_ifs <;> simp only [map_cons,map_map,Function.comp_def,seqnoAt_zero]

/-- The places at which the scan stops: those in a byte that has bits whose number lies beyond. -/
def stopsAt (bytes : List (BitVec 8)) (s : BitVec 32) (p : ℕ) : Bool :=
  bytes.getD (p / 8) 0 != 0 && beyond seqMax bigestSeqno (seqnoAt s p)

def foundAt (bytes : List (BitVec 8)) (s : BitVec 32) (p : ℕ) : Bool :=
  isBit bytes p && wrappableGreaterEqual (seqnoAt s p) seqMin

theorem length_bits (byte : BitVec 8) : (bits byte).length = 8 := by simp [bits]

theorem getD_bits (byte : BitVec 8) {j : ℕ} (hj : j<8) :
    (bits byte).getD j false = byte.getLsbD (7 - j) := by
  simp [bits,hj]

theorem scanBytes_eq (bytes : List (BitVec 8)) (s : BitVec 32) :
    scanBytes seqMin seqMax bigestSeqno bytes s = (((List.range (8*bytes.length)).takeWhile fun p =>
          !stopsAt seqMax bigestSeqno bytes s p).filter
        (foundAt seqMin bytes s)).map (seqnoAt s) := by
  induction bytes generalizing s with
  | nil => rfl
  | cons byte rest ih =>
    have hrange : List.range (8 * (byte::rest).length) =
        List.range 8 ++ (List.range (8*rest.length)).map (8 + ·) := by
      rw [length_cons,Nat.mul_add,Nat.mul_one,Nat.add_comm,range_add]
    have hs : s+8 = seqnoAt s 8 := rfl
    -- Behind the first byte the places are those of the rest.
    have hdiv : ∀ p, (8+p) / 8 = p / 8 + 1 := fun p => by omega
    have hmod : ∀ p, (8+p) % 8 = p % 8 := fun p => by omega
    have hstops : ∀ p, stopsAt seqMax bigestSeqno (byte::rest) s (8+p) =
        stopsAt seqMax bigestSeqno rest (s+8) p := by
      intro p
      rw [stopsAt,stopsAt,hs,seqnoAt_add,hdiv,getD_cons_succ]
    have hfound : ∀ p, foundAt seqMin (byte::rest) s (8+p) = foundAt seqMin rest (s+8) p := by
      intro p
      rw [foundAt,foundAt,hs,seqnoAt_add,isBit,isBit,hdiv,hmod,getD_cons_succ]
    have hfirst : ∀ p<8, (byte::rest).getD (p / 8) 0 = byte := by
      intro p hp
      rw [Nat.div_eq_of_lt hp,getD_cons_zero]
    have hrest : ((((List.range (8*rest.length)).map (8 + ·)).takeWhile fun p =>
          !stopsAt seqMax bigestSeqno (byte::rest) s p).filter
        (foundAt seqMin (byte::rest) s)).map (seqnoAt s) =
        scanBytes seqMin seqMax bigestSeqno rest (s+8) := by
      rw [ih (s+8),takeWhile_map,filter_map,map_map]
      simp only [Function.comp_def,hstops,hfound]
      refine map_congr_left fun p _ => ?_
      rw [hs,seqnoAt_add]
    rw [scanBytes,hrange]
    by_cases hzero : byte=0
    · -- A byte without bits is passed.
      have hpass : ∀ p ∈ List.range 8, (!stopsAt seqMax bigestSeqno (byte::rest) s p) = true := by
        intro p hp
        rw [stopsAt,hfirst p (mem_range.mp hp),hzero]
        simp
      have hnone : (List.range 8).filter (foundAt seqMin (byte::rest) s) = [] := by
        refine filter_eq_nil_iff.mpr fun p hp => ?_
        rw [foundAt,isBit,hfirst p (mem_range.mp hp),hzero]
        simp
      rw [if_pos hzero,takeWhile_append_of_pos hpass,filter_append,hnone,
        nil_append,hrest]
    · -- The byte is read by the inner loop.
      have hinner : ∀ p ∈ List.range 8, (!beyond seqMax bigestSeqno (seqnoAt s p)) =
          !stopsAt seqMax bigestSeqno (byte::rest) s p := by
        intro p hp
        rw [stopsAt,hfirst p (mem_range.mp hp),bne_iff_ne.mpr hzero,Bool.true_and]
      have hread : ∀ p ∈ List.range 8,
          ((bits byte).getD p false && wrappableGreaterEqual (seqnoAt s p) seqMin) =
            foundAt seqMin (byte::rest) s p := by
        intro p hp
        have hlt := mem_range.mp hp
        rw [foundAt,isBit,hfirst p hlt,Nat.mod_eq_of_lt hlt,getD_bits byte hlt]
      rw [if_neg hzero,scanBits_eq,length_bits]
      dsimp only
      rw [takeWhile_congr hinner,
        filter_congr fun p hp => hread p (takeWhile_subset _ hp)]
      by_cases hstop : ((List.range 8).any fun j => beyond seqMax bigestSeqno (seqnoAt s j)) = true
      · obtain ⟨p,hp,hbeyond⟩ := any_eq_true.mp hstop
        have hcut : (!stopsAt seqMax bigestSeqno (byte::rest) s p) = false := by
          rw [← hinner p hp,hbeyond]
          rfl
        rw [if_pos hstop,takeWhile_append_of_exists ⟨p,hp,hcut⟩]
      · have hpass : ∀ p ∈ List.range 8, (!stopsAt seqMax bigestSeqno (byte::rest) s p) = true := by
          intro p hp
          rw [← hinner p hp]
          by_contra hno
          refine hstop (any_eq_true.mpr ⟨p,hp,?_⟩)
          simpa using hno
        rw [if_neg hstop,takeWhile_append_of_pos hpass,filter_append,map_append,
          hrest,takeWhile_eq_self_iff.mpr hpass]

/-- The places that are wanted: the bit is set, and the number lies in the window and is known to
the peer. -/
def wantedAt (bytes : List (BitVec 8)) (s : BitVec 32) (p : ℕ) : Bool :=
  isBit bytes p && (wrappableLessEqual seqMin (seqnoAt s p) &&
    (wrappableLessEqual (seqnoAt s p) seqMax && wrappableLessEqual (seqnoAt s p) bigestSeqno))

def wantedSeqnos (bytes : List (BitVec 8)) (s : BitVec 32) : List (BitVec 32) :=
  ((List.range (8*bytes.length)).filter (wantedAt seqMin seqMax bigestSeqno bytes s)).map (seqnoAt s)

theorem wantedAt_eq (bytes : List (BitVec 8)) (s : BitVec 32) (p : ℕ) :
    wantedAt seqMin seqMax bigestSeqno bytes s p =
      (foundAt seqMin bytes s p && !beyond seqMax bigestSeqno (seqnoAt s p)) := by
  simp only [wantedAt,foundAt,beyond,wrappableLessEqual,wrappableGreaterEqual,wrappableGreater,
    Bool.not_or]
  cases isBit bytes p <;> cases wrappableLess (seqnoAt s p) seqMin <;>
    cases wrappableLess seqMax (seqnoAt s p) <;> cases wrappableLess bigestSeqno (seqnoAt s p) <;> rfl

theorem wantedAt_of_stopsAt {bytes : List (BitVec 8)} {s : BitVec 32} {p : ℕ}
    (h : stopsAt seqMax bigestSeqno bytes s p = true) :
    wantedAt seqMin seqMax bigestSeqno bytes s p = false := by
  rw [stopsAt,Bool.and_eq_true] at h
  rw [wantedAt_eq,h.2]
  simp

theorem foundAt_of_not_stopsAt {bytes : List (BitVec 8)} {s : BitVec 32} {p : ℕ}
    (h : stopsAt seqMax bigestSeqno bytes s p = false) :
    foundAt seqMin bytes s p = wantedAt seqMin seqMax bigestSeqno bytes s p := by
  rw [wantedAt_eq]
  cases hf : foundAt seqMin bytes s p with
  | false => rfl
  | true =>
    have hbit : isBit bytes p = true := (Bool.and_eq_true_iff.mp hf).1
    have hne : (bytes.getD (p / 8) 0 != 0) = true := by
      rw [bne_iff_ne]
      intro hzero
      rw [isBit,hzero] at hbit
      simp at hbit
    rw [stopsAt,hne,Bool.true_and] at h
    rw [h]
    rfl

end Scan

def skippedBytes (firstSeqno seqMin : BitVec 32) : ℕ :=
  if wrappableLess firstSeqno seqMin then (wrappableMinus seqMin firstSeqno).toNat / 8 else 0

theorem toNat_wrappableMinus {a b : BitVec 32} (h : wrappableLess b a = true) :
    (wrappableMinus a b).toNat = (a - b).toNat := by
  rw [wrappableLess_iff (w := 31)] at h
  have hlt : (a - b).toNat < 2^31 := by bv_omega
  rw [wrappableMinus,BitVec.toInt_eq_toNat_of_lt (by omega)]
  rfl

theorem wantedAt_skipped {seqMin seqMax bigestSeqno firstSeqno : BitVec 32} {bytes : List (BitVec 8)}
    {p : ℕ} (hp : p < 8 * skippedBytes firstSeqno seqMin) :
    wantedAt seqMin seqMax bigestSeqno bytes firstSeqno p = false := by
  unfold skippedBytes at hp
  split_ifs at hp with hless
  · have hbelow : wrappableLess (seqnoAt firstSeqno p) seqMin = true := by
      rw [toNat_wrappableMinus hless] at hp
      rw [wrappableLess_iff (w := 31)] at hless ⊢
      unfold seqnoAt
      bv_omega
    rw [wantedAt,wrappableLessEqual,hbelow]
    simp
  · omega

section Places
variable {α : Type*}

theorem filter_dropWhile_eq_nil {f wanted : α → Bool} {l : List α}
    (h : ∀ x∈l, f x = false → wanted x = false) :
    (l.dropWhile f).filter wanted = [] ↔ l.Pairwise fun x y => f x = false → wanted y = false := by
  induction l with
  | nil => simp
  | cons x l ih =>
    have ih := ih fun y hy => h y (mem_cons_of_mem x hy)
    rw [dropWhile_cons,pairwise_cons]
    split_ifs with hx
    · rw [ih]
      simp [hx]
    · have hx := Bool.eq_false_of_not_eq_true hx
      rw [filter_cons_of_neg (by simp [h x mem_cons_self hx]),filter_eq_nil_iff]
      refine ⟨fun hl => ⟨fun y hy _ => by simpa using hl y hy,?_⟩,fun hl y hy => by
        simp [hl.1 y hy hx]⟩
      exact ih.mp (filter_eq_nil_iff.mpr fun y hy =>
        hl y ((dropWhile_suffix f).subset hy))

theorem pairwise_range {R : ℕ → ℕ → Prop} (m : ℕ) :
    (List.range m).Pairwise R ↔ ∀ a b, a<b → b < m → R a b := by
  rw [pairwise_iff_getElem]
  constructor
  · intro h a b hab hb
    have := h a b (by simp; omega) (by simpa using hb) hab
    simpa using this
  · intro h a b ha hb hab
    simpa using h a b hab (by simpa using hb)

end Places

section Bitset
variable (bitset : List (BitVec 8)) (firstSeqno seqMin seqMax : BitVec 32)
  (bigest : Option (BitVec 32)) (recent : List (BitVec 32))

def places : List ℕ :=
  (List.range (8 * (bitset.length - skippedBytes firstSeqno seqMin))).map
    (8 * skippedBytes firstSeqno seqMin + ·)

theorem bitsetSeqnos_eq : bitsetSeqnos ⟨some bitset,some firstSeqno,bigest,recent⟩ seqMin seqMax =
      (((places bitset firstSeqno seqMin).takeWhile fun p =>
          !stopsAt seqMax (bigest.getD 0) bitset firstSeqno p).filter
        (wantedAt seqMin seqMax (bigest.getD 0) bitset firstSeqno)).map (seqnoAt firstSeqno) := by
  have hscan : bitsetSeqnos ⟨some bitset,some firstSeqno,bigest,recent⟩ seqMin seqMax =
      scanBytes seqMin seqMax (bigest.getD 0) (bitset.drop (skippedBytes firstSeqno seqMin))
        (seqnoAt firstSeqno (8 * skippedBytes firstSeqno seqMin)) := by
    rw [Nat.mul_comm]
    rfl
  rw [hscan,scanBytes_eq,places,takeWhile_map,filter_map,map_map,
    length_drop]
  generalize skippedBytes firstSeqno seqMin = i
  have hbyte : ∀ p, (bitset.drop i).getD (p / 8) 0 = bitset.getD ((8 * i + p) / 8) 0 := by
    intro p
    rw [getD_eq_getElem?_getD,getD_eq_getElem?_getD,List.getElem?_drop,
      show (8 * i + p) / 8 = i + p / 8 by omega]
  have hstops : ∀ p, stopsAt seqMax (bigest.getD 0) (bitset.drop i) (seqnoAt firstSeqno (8*i)) p =
      stopsAt seqMax (bigest.getD 0) bitset firstSeqno (8 * i + p) := by
    intro p
    rw [stopsAt,stopsAt,seqnoAt_add,hbyte]
  have hfound : ∀ p, foundAt seqMin (bitset.drop i) (seqnoAt firstSeqno (8*i)) p =
      foundAt seqMin bitset firstSeqno (8 * i + p) := by
    intro p
    rw [foundAt,foundAt,seqnoAt_add,isBit,isBit,hbyte,show (8 * i + p) % 8 = p % 8 by omega]
  simp only [Function.comp_def,hstops]
  have hfilter : ∀ p ∈ (List.range (8 * (bitset.length - i))).takeWhile fun p =>
      !stopsAt seqMax (bigest.getD 0) bitset firstSeqno (8 * i + p),
      foundAt seqMin (bitset.drop i) (seqnoAt firstSeqno (8*i)) p =
        wantedAt seqMin seqMax (bigest.getD 0) bitset firstSeqno (8 * i + p) := by
    intro p hp
    rw [hfound]
    exact foundAt_of_not_stopsAt seqMin seqMax (bigest.getD 0)
      (by simpa using mem_takeWhile_imp hp)
  rw [filter_congr hfilter]
  exact map_congr_left fun p _ => seqnoAt_add firstSeqno (8*i) p

theorem wantedSeqnos_eq (bigestSeqno : BitVec 32) :
    wantedSeqnos seqMin seqMax bigestSeqno bitset firstSeqno = ((places bitset firstSeqno seqMin).filter
        (wantedAt seqMin seqMax bigestSeqno bitset firstSeqno)).map (seqnoAt firstSeqno) := by
  rw [wantedSeqnos]
  congr 1
  have hskipped : ∀ k ≤ 8 * skippedBytes firstSeqno seqMin,
      (List.range k).filter (wantedAt seqMin seqMax bigestSeqno bitset firstSeqno) = [] := by
    intro k hk
    refine filter_eq_nil_iff.mpr fun p hp => ?_
    simp [wantedAt_skipped (lt_of_lt_of_le (mem_range.mp hp) hk)]
  unfold places
  rcases Nat.le_total (skippedBytes firstSeqno seqMin) bitset.length with hle | hle
  · have hsplit : 8*bitset.length = 8 * skippedBytes firstSeqno seqMin +
        8 * (bitset.length - skippedBytes firstSeqno seqMin) := by omega
    rw [hsplit,range_add,filter_append,hskipped _ (Nat.le_refl _),nil_append]
  · rw [Nat.sub_eq_zero_of_le hle,hskipped _ (by omega)]
    rfl

/-- No place that is wanted comes after one at which the scan stops, and the numbers wanted rise,
as they do unless the bitset goes round the ring. -/
def InOrder : Prop :=
  (∀ q p, 8 * skippedBytes firstSeqno seqMin ≤ q → q<p → p<8*bitset.length →
    stopsAt seqMax (bigest.getD 0) bitset firstSeqno q = true →
    wantedAt seqMin seqMax (bigest.getD 0) bitset firstSeqno p = false) ∧
  ∀ q p, q<p → p<8*bitset.length →
    wantedAt seqMin seqMax (bigest.getD 0) bitset firstSeqno q = true →
    wantedAt seqMin seqMax (bigest.getD 0) bitset firstSeqno p = true →
    wrappableLess (seqnoAt firstSeqno q) (seqnoAt firstSeqno p) = true

theorem pairwise_places {R : ℕ → ℕ → Prop} : (places bitset firstSeqno seqMin).Pairwise R ↔
      ∀ q p, 8 * skippedBytes firstSeqno seqMin ≤ q → q<p → p<8*bitset.length → R q p := by
  rw [places,pairwise_map,pairwise_range]
  generalize skippedBytes firstSeqno seqMin = i
  constructor
  · intro h q p hq hqp hp
    have := h (q - 8 * i) (p - 8 * i) (by omega) (by omega)
    rwa [show 8 * i + (q - 8 * i) = q by omega,show 8 * i + (p - 8 * i) = p by omega] at this
  · intro h a b hab hb
    exact h _ _ (by omega) (by omega) (by omega)

/-- For every bitset, first number, bigest number and window: the numbers handed on are exactly
those wanted, in rising order, just when the places are in order. -/
theorem bitset_decoded_iff (n : ℕ) : (bitsetSeqnos ⟨some bitset,some firstSeqno,bigest,recent⟩ seqMin
        (seqMin + BitVec.ofNat 32 (maxBitmapRangeCnt n)) =
      wantedSeqnos seqMin (seqMin + BitVec.ofNat 32 (maxBitmapRangeCnt n)) (bigest.getD 0) bitset
        firstSeqno ∧
      (wantedSeqnos seqMin (seqMin + BitVec.ofNat 32 (maxBitmapRangeCnt n)) (bigest.getD 0) bitset
        firstSeqno).Pairwise (fun a b => wrappableLess a b = true)) ↔
    InOrder bitset firstSeqno seqMin (seqMin + BitVec.ofNat 32 (maxBitmapRangeCnt n)) bigest := by
  generalize seqMin + BitVec.ofNat 32 (maxBitmapRangeCnt n) = seqMax
  refine and_congr ?_ ?_
  · rw [bitsetSeqnos_eq,wantedSeqnos_eq]
    have hnil : ((places bitset firstSeqno seqMin).dropWhile fun p =>
        !stopsAt seqMax (bigest.getD 0) bitset firstSeqno p).filter
          (wantedAt seqMin seqMax (bigest.getD 0) bitset firstSeqno) = [] ↔
        (places bitset firstSeqno seqMin).Pairwise fun q p =>
          (!stopsAt seqMax (bigest.getD 0) bitset firstSeqno q) = false →
            wantedAt seqMin seqMax (bigest.getD 0) bitset firstSeqno p = false :=
      filter_dropWhile_eq_nil fun p _ hp => wantedAt_of_stopsAt seqMin seqMax _ (by simpa using hp)
    have hsplit : (places bitset firstSeqno seqMin).filter
        (wantedAt seqMin seqMax (bigest.getD 0) bitset firstSeqno) =
        ((places bitset firstSeqno seqMin).takeWhile fun p =>
          !stopsAt seqMax (bigest.getD 0) bitset firstSeqno p).filter
            (wantedAt seqMin seqMax (bigest.getD 0) bitset firstSeqno) ++
        ((places bitset firstSeqno seqMin).dropWhile fun p =>
          !stopsAt seqMax (bigest.getD 0) bitset firstSeqno p).filter
            (wantedAt seqMin seqMax (bigest.getD 0) bitset firstSeqno) := by
      rw [← filter_append,takeWhile_append_dropWhile]
    rw [hsplit,map_append,self_eq_append_right,map_eq_nil_iff,hnil,
      pairwise_places]
    simp only [Bool.not_eq_false']
  · rw [wantedSeqnos,pairwise_map,pairwise_filter,pairwise_range]

/-- The peer says that it knows nothing above a number almost half the ring behind 100. The scan
stops there, at 100, and misses 110, which by now counts as below that number. -/
theorem wanted_number_missed : bitsetSeqnos ⟨some [0x80,0x20],some 100,some 2147483753,[]⟩ 100
        (100 + BitVec.ofNat 32 (maxBitmapRangeCnt 11)) = [] ∧
      wantedSeqnos 100 (100 + BitVec.ofNat 32 (maxBitmapRangeCnt 11)) 2147483753 [0x80,0x20] 100 =
        [110] := by
  decide

end Bitset

end P2Streaming.BufferManager
