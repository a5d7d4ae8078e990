import P2Streaming.PacketBuffer
import P2Streaming.TransitionRuns
import Mathlib.Data.List.Pairwise

/-!
# `packet_buffer::get_buffermap`: what a buffer advertises

The buffer map copies whole bytes of a ring of bits, one per listed number. As long
as the listed numbers span less than the ring, each listed number owns its slot and
its bit. The range that is copied ends before the biggest number, and the bits after
it are cleared only when the last byte holds more than one number of the range.
-/
namespace P2Streaming
open WrappableInteger SerialNumbers TransitionRuns SeqEntry List BitVec

/-- `ROUND_UP` to a multiple of eight, cut to the width of a sequence number. -/
def roundUp8 (x : BitVec 32) : BitVec 32 := BitVec.ofNat 32 ((x.toNat+7) / 8 * 8)

namespace PacketBuffer

variable {n : ℕ}

/-- The bytes of `ring_buffermap` for a ring of `2 ^ n` slots. -/
def mapBytes (n : ℕ) : ℕ := 2^max 3 n / 8

/-- The ring bytes `ring_buffermap::get` copies, in the order of the destination. -/
def copiedBytes (n : ℕ) (startBytePos endBytePos : ℕ) (dis : ℤ) : List ℕ :=
  if startBytePos<endBytePos ∨ startBytePos=endBytePos ∧ dis<8 then
    List.range' startBytePos (endBytePos + 1 - startBytePos)
  else List.range' startBytePos (mapBytes n - startBytePos) ++ List.range' 0 (endBytePos+1)

variable (b : PacketBuffer n)

/-- Bit `i` of the destination of `ring_buffermap::get`, which starts out as zeros. -/
def mapGetBit (posStart posEnd : BitVec 32) (i : ℕ) : Bool :=
  let posEnd := posEnd - 1
  let dis := wrappableMinus posEnd posStart
  if dis<0 then false
  else
    -- never more than one turn of the ring
    let posEnd := if (2 : ℤ)^max 3 n ≤ dis then posEnd - BitVec.ofInt 32 (dis - 2^max 3 n + 1)
      else posEnd
    let startBytePos := posStart.toNat / 8 % mapBytes n
    let endBytePos := (startBytePos + dis.toNat / 8) % mapBytes n
    let bytes := copiedBytes n startBytePos endBytePos (wrappableMinus posEnd posStart)
    match bytes[i / 8]? with
    | none => false
    | some byte =>
        if i / 8 + 1 = bytes.length ∧ posEnd.toNat % 8 ≠ 0 ∧ posEnd.toNat % 8 < i % 8 then false
        else b.buffermapCache (Fin.ofNat _ (8 * byte + i % 8))

/-- `packet_buffer::get_buffermap`; the bits are listed from the first number on. -/
def getBuffermap (count : ℤ) : Option (BitVec 32 × List Bool) :=
  match b.recentSeqLstLong.head?, b.recentSeqLstLong.getLast? with
  | some smallest, some bigest =>
      if count≤0 then none
      else
        let count := min count (wrappableMinus bigest.seqno smallest.seqno + 1)
        let count := min count (2^n)
        let seqnoBegin := bigest.seqno - BitVec.ofInt 32 count
        let firstSeqno := roundUp8 seqnoBegin
        let count := count - wrappableMinus firstSeqno seqnoBegin
        if count≤0 ∨ bigest.seqno<firstSeqno then none
        else
          let bytesSize := (count.toNat+7) / 8
          some (firstSeqno, (List.range (8*bytesSize)).map
            (b.mapGetBit firstSeqno (firstSeqno + BitVec.ofInt 32 count)))
  | _, _ => none

def Holds (seqno : BitVec 32) : Prop :=
  ∃ elm, b.mediaPackets (slot n seqno) = some elm ∧ elm.packetBuf.seqno=seqno

def listed : List (BitVec 32) := b.recentSeqLstLong.map seqno

/-- Listed numbers ascend, span less than the ring, and own their slots and their bits. -/
structure Consistent (b : PacketBuffer n) : Prop where
  sorted : b.listed.Pairwise fun x y => x ≠ y ∧ (y - x).toNat < 2^n
  held : ∀ s, b.Holds s ↔ s∈b.listed
  mapped : ∀ p, b.buffermapCache p = true ↔ ∃ s∈b.listed, bitOf n s = p

theorem ofNat_eq_ofNat_iff {k : ℕ} (hk : k≤32) (x y : BitVec 32) :
    Fin.ofNat (2^k) x.toNat = Fin.ofNat (2^k) y.toNat ↔ (x - y).toNat % 2^k = 0 := by
  have hd : 2^k ∣ 2^32 := Nat.pow_dvd_pow 2 hk
  have hy := y.isLt
  rw [Fin.ext_iff,Fin.val_ofNat,Fin.val_ofNat,toNat_sub,Nat.mod_mod_of_dvd _ hd,
    ← Nat.sub_add_comm hy.le]
  constructor
  · intro h
    refine Nat.sub_mod_eq_zero_of_mod_eq ?_
    rw [Nat.add_mod,Nat.mod_eq_zero_of_dvd hd,Nat.zero_add,Nat.mod_mod,h]
  · intro h
    have hdvd := Nat.dvd_of_mod_eq_zero h
    have hmod : (2^32 + x.toNat) % 2^k = y.toNat % 2^k :=
      ((Nat.modEq_iff_dvd' (by omega)).mpr hdvd).symm
    rwa [Nat.add_mod,Nat.mod_eq_zero_of_dvd hd,Nat.zero_add,Nat.mod_mod] at hmod

variable {x y : BitVec 32}

theorem bitOf_ne_of_near (hn : n≤15) (hne : x≠y) (h : (y - x).toNat < 2^n) : bitOf n x ≠ bitOf n y := by
  intro he
  have hz := (ofNat_eq_ofNat_iff (by omega) y x).mp he.symm
  have hle : 2^n ≤ 2^max 3 n := Nat.pow_le_pow_right (by decide) (Nat.le_max_right 3 n)
  rw [Nat.mod_eq_of_lt (by omega)] at hz
  exact hne (by bv_omega)

theorem slot_ne_of_near (hn : n≤15) (hne : x≠y) (h : (y - x).toNat < 2^n) : slot n x ≠ slot n y := by
  intro he
  have hz := (ofNat_eq_ofNat_iff (by omega) y x).mp he.symm
  rw [Nat.mod_eq_of_lt h] at hz
  exact hne (by bv_omega)

theorem evict_holds (e : SeqEntry) (s : BitVec 32) :
    (b.evict e).Holds s ↔ b.Holds s ∧ s≠e.seqno := by
  by_cases hslot : slot n s = slot n e.seqno
  · simp only [Holds,evict,hslot,Function.update_self,Option.filter_eq_some_iff,
      decide_eq_true_eq]
    constructor
    · rintro ⟨elm,⟨helm,hne⟩,rfl⟩
      exact ⟨⟨elm,helm,rfl⟩,hne⟩
    · rintro ⟨⟨elm,helm,rfl⟩,hne⟩
      exact ⟨elm,⟨helm,hne⟩,rfl⟩
  · have hne : s≠e.seqno := fun he => hslot (he ▸ rfl)
    simp only [Holds,evict]
    rw [Function.update_of_ne hslot]
    exact (and_iff_left hne).symm

theorem assign_holds (pkt : MediaPacket) (now s : BitVec 32) :
    (b.assign pkt now).Holds s ↔
      s = pkt.seqno ∨ b.Holds s ∧ slot n s ≠ slot n pkt.seqno := by
  by_cases hslot : slot n s = slot n pkt.seqno
  · simp only [Holds,assign,hslot,Function.update_self,Option.some.injEq,exists_eq_left',
      ne_eq,not_true_eq_false,and_false,or_false]
    exact eq_comm
  · have hne : s≠pkt.seqno := fun he => hslot (he ▸ rfl)
    simp only [Holds,assign]
    simp [hne,hslot]

/-- The entry for a number outlives the eviction loop: the loop stops at it or before it. -/
def Survives (big : BitVec 32) (playing : Option (BitVec 32))
    (es : List SeqEntry) (seqno : BitVec 32) : Prop :=
  ∃ j e, es[j]? = some e ∧ e.seqno=seqno ∧
    ∃ i≤j, ∃ x, es[i]? = some x ∧ b.due big playing (es.length - i) x = false

variable {b} {playing : Option (BitVec 32)} {e : SeqEntry} {rest : List SeqEntry}
  {big : BitVec 32}

theorem Survives.tail {seqno : BitVec 32}
    (h : b.Survives big playing rest seqno) : b.Survives big playing (e::rest) seqno := by
  obtain ⟨j,x,hx,hseq,i,hi,y,hy,hdue⟩ := h
  exact ⟨j+1,x,by simpa using hx,hseq,i+1,by omega,y,by simpa using hy,by simpa using hdue⟩

theorem Survives.of_head (h : b.due big playing (rest.length+1) e = false)
    {x : SeqEntry} (hx : x ∈ e :: rest) : b.Survives big playing (e::rest) x.seqno := by
  obtain ⟨j,hj,rfl⟩ := mem_iff_getElem.mp hx
  exact ⟨j,_,List.getElem?_eq_getElem hj,rfl,0,Nat.zero_le j,e,rfl,h⟩

/-- The state between the write to the slot of number `x` and its entry in the list. -/
structure Evicting (b : PacketBuffer n) (x : BitVec 32) (es : List SeqEntry) : Prop where
  sorted : (es.map seqno).Pairwise fun x y => x ≠ y ∧ (y - x).toNat < 2^n
  held : ∀ s, b.Holds s ↔ s=x ∨ s ∈ es.map seqno ∧ slot n s ≠ slot n x
  mapped : ∀ p, b.buffermapCache p = true ↔ ∃ s ∈ es.map seqno, bitOf n s = p

variable {x : BitVec 32}

theorem Evicting.step (hn : n≤15) (h : b.Evicting x (e::rest)) (hne : e.seqno≠x) :
    (b.evict e).Evicting x rest := by
  have hsorted := h.sorted
  rw [map_cons,pairwise_cons] at hsorted
  refine ⟨hsorted.2,fun s => ?_,fun p => ?_⟩
  · rw [evict_holds,h.held,map_cons,mem_cons]
    constructor
    · rintro ⟨rfl | ⟨rfl | hs,hslot⟩,hse⟩
      · exact .inl rfl
      · exact absurd rfl hse
      · exact .inr ⟨hs,hslot⟩
    · rintro (rfl | ⟨hs,hslot⟩)
      · exact ⟨.inl rfl,hne.symm⟩
      · exact ⟨.inr ⟨.inr hs,hslot⟩,(hsorted.1 s hs).1.symm⟩
  · have hmapped := h.mapped p
    rw [map_cons] at hmapped
    simp only [mem_cons,exists_eq_or_imp] at hmapped
    by_cases hp : p = bitOf n e.seqno
    · subst hp
      simp only [evict,Function.update_self,Bool.false_eq_true,false_iff]
      rintro ⟨s,hs,hbit⟩
      exact bitOf_ne_of_near hn (hsorted.1 s hs).1 (hsorted.1 s hs).2 hbit.symm
    · simp only [evict]
      rw [Function.update_of_ne hp,hmapped]
      exact or_iff_right (fun he => hp he.symm)

variable {es : List SeqEntry}

theorem Evicting.loop (hn : n≤15) (h : b.Evicting x es) (hno : ¬ b.Evicts big playing es x) :
    (evictLoop big playing es b).Evicting x (evictLoop big playing es b).recentSeqLstLong ∧
      ∀ e ∈ (evictLoop big playing es b).recentSeqLstLong, b.Survives big playing es e.seqno := by
  induction es generalizing b with
  | nil => exact ⟨⟨h.sorted,h.held,h.mapped⟩,fun e he => by simp [evictLoop] at he⟩
  | cons e rest ih =>
    rw [evicts_cons] at hno
    rw [evictLoop]
    by_cases hdue : b.due big playing (rest.length+1) e = true
    · simp only [hdue,if_true]
      have hstep := h.step hn (fun he => hno ⟨hdue,.inl he⟩)
      obtain ⟨hev,hsurv⟩ := ih hstep (fun hr => hno ⟨hdue,.inr hr⟩)
      exact ⟨hev,fun y hy => Survives.tail (hsurv y hy)⟩
    · rw [if_neg hdue]
      exact ⟨⟨h.sorted,h.held,h.mapped⟩,
        fun y hy => Survives.of_head (Bool.not_eq_true _ ▸ hdue) hy⟩

def Near (n : ℕ) (x y : BitVec 32) : Prop := (y - x).toNat < 2^n ∨ (x - y).toNat < 2^n

theorem two_pow_le (hn : n≤15) : 2^n≤32768 :=
  (Nat.pow_le_pow_right (by decide) hn).trans (by decide)

theorem Near.of_less (hn : n≤15) (h : Near n x y)
    (hl : wrappableLess x y = true) : x≠y ∧ (y - x).toNat < 2^n := by
  rw [wrappableLess_iff (w := 31)] at hl
  rcases h with h | h
  · exact ⟨by bv_omega,h⟩
  · bv_omega

theorem Near.eq_of_not_less (hn : n≤15) (h : Near n x y)
    (hl : ¬ wrappableLess x y = true) (hg : ¬ wrappableLess y x = true) : x=y := by
  have hle := two_pow_le hn
  rw [wrappableLess_iff (w := 31)] at hl hg
  rcases h with h | h <;> bv_omega

theorem Near.symm (h : Near n x y) : Near n y x := Or.symm h

theorem Near.trans (hn : n≤15) {x y z : BitVec 32} (hxy : x≠y ∧ (y - x).toNat < 2^n)
    (hyz : y≠z ∧ (z - y).toNat < 2^n) (h : Near n x z) : x≠z ∧ (z - x).toNat < 2^n := by
  have hle := two_pow_le hn
  refine ⟨by bv_omega,?_⟩
  rcases h with h | h
  · exact h
  · bv_omega

theorem mem_insertEntry (hn : n≤15) (h : ∀ y∈es, Near n y.seqno e.seqno) (s : BitVec 32) :
    s ∈ (insertEntry e es).map seqno ↔ s=e.seqno ∨ s ∈ es.map seqno := by
  induction es with
  | nil => simp [insertEntry]
  | cons x rest ih =>
    have hrest := ih (fun y hy => h y (mem_cons_of_mem x hy))
    rw [insertEntry]
    split_ifs with hl hg
    · rw [map_cons,mem_cons,hrest,map_cons,mem_cons]
      tauto
    · simp
    · rw [← (h x mem_cons_self).eq_of_not_less hn hl hg,map_cons,mem_cons]
      tauto

theorem sorted_insertEntry (hn : n≤15) (hs : (es.map seqno).Pairwise fun x y => x ≠ y ∧
    (y - x).toNat < 2^n) (h : ∀ y∈es, Near n y.seqno e.seqno) :
    ((insertEntry e es).map seqno).Pairwise fun x y => x ≠ y ∧ (y - x).toNat < 2^n := by
  induction es with
  | nil => simp [insertEntry]
  | cons x rest ih =>
    have hnear : ∀ y∈rest, Near n y.seqno e.seqno := fun y hy => h y (mem_cons_of_mem x hy)
    have hx := h x mem_cons_self
    rw [map_cons,pairwise_cons] at hs
    rw [insertEntry]
    split_ifs with hl hg
    · rw [map_cons,pairwise_cons]
      refine ⟨fun s hmem => ?_,ih hs.2 hnear⟩
      rcases (mem_insertEntry hn hnear s).mp hmem with rfl | hmem
      · exact hx.of_less hn hl
      · exact hs.1 s hmem
    · have hex := hx.symm.of_less hn hg
      rw [map_cons,map_cons,pairwise_cons,pairwise_cons]
      refine ⟨fun s hmem => ?_,hs⟩
      rcases mem_cons.mp hmem with rfl | hmem
      · exact hex
      · obtain ⟨y,hy,rfl⟩ := mem_map.mp hmem
        exact Near.trans hn hex (hs.1 _ hmem) (hnear y hy).symm
    · rw [map_cons,pairwise_cons]
      exact hs

/-- An insertion that keeps the buffer consistent: the number is already there, or the
entries that remain listed are less than a ring away from it and it does not fall to the
eviction loop itself. -/
def Fits (b : PacketBuffer n) (pkt : MediaPacket) (now : BitVec 32)
    (playing : Option (BitVec 32)) : Prop :=
  b.has pkt.seqno now ≠ .notHas ∨
    ¬ b.Evicts (b.bigestAfter pkt.timeStamp) playing b.recentSeqLstLong pkt.seqno ∧
      ∀ s, b.Survives (b.bigestAfter pkt.timeStamp) playing b.recentSeqLstLong s →
        Near n s pkt.seqno

theorem Consistent.evicting (h : b.Consistent) (pkt : MediaPacket)
    (now : BitVec 32) : (b.assign pkt now).Evicting pkt.seqno b.recentSeqLstLong := by
  refine ⟨h.sorted,fun s => ?_,h.mapped⟩
  rw [assign_holds,h.held]
  rfl

variable {now : BitVec 32}

theorem Consistent.insert (hn : n≤15) {pkt : MediaPacket} (h : b.Consistent)
    (hfit : b.Fits pkt now playing) : (b.insert pkt now playing).1.Consistent := by
  by_cases hhas : b.has pkt.seqno now = .notHas
  swap
  · rw [insert_of_has playing hhas]
    exact h
  obtain ⟨hno,hnear⟩ := hfit.resolve_left (not_not.mpr hhas)
  obtain ⟨hev,hsurv⟩ := (h.evicting pkt now).loop hn hno
  rw [PacketBuffer.insert,if_neg (not_not.mpr hhas)]
  generalize evictLoop (b.bigestAfter pkt.timeStamp) playing b.recentSeqLstLong
    (b.assign pkt now) = c at hev hsurv
  have hn' : ∀ y∈c.recentSeqLstLong, Near n y.seqno pkt.seqno := fun y hy => hnear _ (hsurv y hy)
  have hmem := mem_insertEntry hn (e := ⟨pkt.seqno,pkt.timeStamp⟩) hn'
  refine ⟨sorted_insertEntry hn hev.sorted hn',fun s => ?_,fun p => ?_⟩
  · refine Iff.trans (hev.held s) (Iff.trans ?_ (hmem s).symm)
    constructor
    · rintro (rfl | ⟨hs,-⟩)
      · exact .inl rfl
      · exact .inr hs
    · rintro (rfl | hs)
      · exact .inl rfl
      · by_cases he : s=pkt.seqno
        · exact .inl he
        · obtain ⟨y,hy,rfl⟩ := mem_map.mp hs
          refine .inr ⟨hs,?_⟩
          rcases hn' y hy with hd | hd
          · exact slot_ne_of_near hn he hd
          · exact (slot_ne_of_near hn (Ne.symm he) hd).symm
  · have hlisted : (∃ s ∈ (insertEntry ⟨pkt.seqno,pkt.timeStamp⟩ c.recentSeqLstLong).map
        seqno, bitOf n s = p) ↔
        bitOf n pkt.seqno = p ∨ ∃ s ∈ c.recentSeqLstLong.map seqno, bitOf n s = p := by
      simp only [hmem,or_and_right,exists_or,exists_eq_left]
    refine Iff.trans ?_ hlisted.symm
    by_cases hp : p = bitOf n pkt.seqno
    · subst hp
      simp
    · dsimp only
      rw [Function.update_of_ne hp,hev.mapped]
      exact (or_iff_right (fun he => hp he.symm)).symm

theorem reset_consistent (b : PacketBuffer n) : b.reset.Consistent := by
  refine ⟨List.Pairwise.nil,fun s => ?_,fun p => ?_⟩ <;> simp [reset,Holds,listed]

theorem create_consistent (n bufTime : ℕ) (vod : Bool) : (create n bufTime vod).Consistent := by
  refine ⟨List.Pairwise.nil,fun s => ?_,fun p => ?_⟩ <;> simp [create,Holds,listed]

theorem eight_mul_mapBytes (n : ℕ) : 8 * mapBytes n = 2^max 3 n := by
  have hd : 8 ∣ 2^max 3 n := Nat.pow_dvd_pow 2 (Nat.le_max_left 3 n)
  rw [mapBytes,Nat.mul_div_cancel' hd]

theorem getElem?_copiedBytes {s q : ℕ} {d : ℤ} (hs : s < mapBytes n) (hq : q < mapBytes n)
    (hdis : d / 8 = q) : (copiedBytes n s ((s+q) % mapBytes n) d).length = q+1 ∧
      ∀ k≤q, (copiedBytes n s ((s+q) % mapBytes n) d)[k]? =
        some ((s+k) % mapBytes n) := by
  unfold copiedBytes
  by_cases hwrap : s+q < mapBytes n
  · rw [Nat.mod_eq_of_lt hwrap,if_pos (by omega)]
    refine ⟨by rw [length_range']; omega,fun k hk => ?_⟩
    rw [List.getElem?_range' (by omega),Nat.mod_eq_of_lt (by omega),Nat.one_mul]
  · have hmod : (s+q) % mapBytes n = s + q - mapBytes n := by
      rw [Nat.mod_eq_sub_mod (by omega),Nat.mod_eq_of_lt (by omega)]
    rw [hmod,if_neg (by omega)]
    refine ⟨by simp only [length_append,length_range']; omega,fun k hk => ?_⟩
    by_cases hlow : k < mapBytes n - s
    · rw [List.getElem?_append_left (by simpa using hlow),List.getElem?_range' hlow,
        Nat.mod_eq_of_lt (by omega),Nat.one_mul]
    · rw [List.getElem?_append_right (by simpa using hlow),length_range',
        List.getElem?_range' (by omega),Nat.mod_eq_sub_mod (by omega),Nat.mod_eq_of_lt (by omega)]
      congr 1
      omega

theorem ofNat_ring_byte {B m f i : ℕ} [NeZero B] (h : 8*m=B) :
    Fin.ofNat B (8 * ((f % m + i / 8) % m) + i % 8) = Fin.ofNat B (8 * f + i) := by
  have hsum : 8 * f + i = 8 * (f + i / 8) + i % 8 := by omega
  have hm : (f % m + i / 8) % m = (f + i / 8) % m := by rw [Nat.mod_add_mod]
  rw [Fin.ext_iff,Fin.val_ofNat,Fin.val_ofNat,hm,hsum,← Nat.mul_mod_mul_left,h,
    Nat.mod_add_mod]

theorem bitOf_add (hn : n≤15) (x : BitVec 32) (i : ℕ) :
    bitOf n (x + BitVec.ofNat 32 i) = Fin.ofNat _ (x.toNat+i) := by
  have hd : 2^max 3 n ∣ 2^32 := Nat.pow_dvd_pow 2 (by omega)
  rw [bitOf,Fin.ext_iff,Fin.val_ofNat,Fin.val_ofNat,toNat_add,toNat_ofNat,
    Nat.add_mod_mod,Nat.mod_mod_of_dvd _ hd]

theorem roundUp8_eq (x : BitVec 32) : roundUp8 x = x + BitVec.ofNat 32 ((8 - x.toNat % 8) % 8) := by
  rw [roundUp8,← toNat_inj,toNat_add,toNat_ofNat,toNat_ofNat]
  omega

theorem wrappableMinus_add_ofNat (x : BitVec 32) {k : ℕ} (hk : k<2^31) :
    wrappableMinus (x + BitVec.ofNat 32 k) x = k := by
  have hsub : x + BitVec.ofNat 32 k - x = BitVec.ofNat 32 k := by ring
  have hnat : (BitVec.ofNat 32 k).toNat = k := by
    rw [toNat_ofNat,Nat.mod_eq_of_lt (by omega)]
  rw [wrappableMinus,hsub,toInt_eq_toNat_of_lt (by omega),hnat]

variable {first : BitVec 32}

theorem mapGetBit_eq (hn : n≤15) (b : PacketBuffer n) {c i : ℕ}
    (h8 : first.toNat % 8 = 0) (hc : 0<c) (hcn : c≤2^n) (hi : i / 8 ≤ (c - 1) / 8) :
    b.mapGetBit first (first + BitVec.ofNat 32 c) i =
      if i<c ∨ (c - 1) % 8 = 0 then b.buffermapCache
      (bitOf n (first + BitVec.ofNat 32 i)) else false := by
  have hle := two_pow_le hn
  have hring : 2^n ≤ 2^max 3 n := Nat.pow_le_pow_right (by decide) (Nat.le_max_right 3 n)
  have hbytes := eight_mul_mapBytes n
  have hend : first + BitVec.ofNat 32 c - 1 = first + BitVec.ofNat 32 (c - 1) := by bv_omega
  have hdis := wrappableMinus_add_ofNat first (k := c - 1) (by omega)
  have hend8 : (first + BitVec.ofNat 32 (c - 1)).toNat % 8 = (c - 1) % 8 := by bv_omega
  have hturn : ¬ ((2 : ℤ)^max 3 n ≤ ((c - 1 : ℕ) : ℤ)) := by
    have : ((2^max 3 n : ℕ) : ℤ) = (2 : ℤ)^max 3 n := by norm_cast
    omega
  obtain ⟨hlen,hget⟩ := getElem?_copiedBytes (n := n) (s := first.toNat / 8 % mapBytes n)
    (q := (c - 1) / 8) (d := ((c - 1 : ℕ) : ℤ)) (Nat.mod_lt _ (by omega)) (by omega) (by omega)
  simp only [mapGetBit,hend,hdis,if_neg hturn,Int.toNat_natCast,hlen,hget _ hi,hend8]
  rw [if_neg (by omega),bitOf_add hn,ofNat_ring_byte hbytes,
    show 8 * (first.toNat / 8) = first.toNat by omega]
  by_cases hcond : i<c ∨ (c - 1) % 8 = 0
  · rw [if_pos hcond,if_neg (by omega)]
  · rw [if_neg hcond,if_pos (by omega)]

/-- The range an answer covers: `c` numbers from `first`, ending right before the biggest. -/
structure MapRange (n : ℕ) (count : ℤ) (smallest bigest first : BitVec 32) (c : ℕ) : Prop where
  pos : 0<c
  last : first + BitVec.ofNat 32 c = bigest
  start : first.toNat % 8 = 0
  span : c ≤ (bigest - smallest).toNat + 1
  asked : (c : ℤ) ≤ count
  full : bigest.toNat % 8 = 0 → (2 : ℤ)^n ≤ count → (bigest - smallest).toNat + 1 = 2^n →
    c=2^n ∧ 3≤n

/-- The bits of whole bytes for `c` numbers from `first` on. -/
def rangeBits (b : PacketBuffer n) (first : BitVec 32) (c : ℕ) : List Bool :=
  (List.range (8 * ((c+7) / 8))).map fun i =>
    if i<c ∨ (c - 1) % 8 = 0 then b.buffermapCache (bitOf n (first + BitVec.ofNat 32 i))
    else false

theorem getElem?_rangeBits (b : PacketBuffer n) (first : BitVec 32) {c i : ℕ} (hi : i < 8 * ((c+7) / 8)) :
    (b.rangeBits first c)[i]? = some (if i<c ∨ (c - 1) % 8 = 0 then
      b.buffermapCache (bitOf n (first + BitVec.ofNat 32 i)) else false) := by
  rw [rangeBits,List.getElem?_map,List.getElem?_range hi,Option.map_some]

theorem full_ring {m : ℕ} (h8 : x.toNat % 8 = 0) (hm : m=2^n) (hn : n≤15)
    (hr : 0 < m - (8 - (x - BitVec.ofNat 32 m).toNat % 8) % 8) :
    m - (8 - (x - BitVec.ofNat 32 m).toNat % 8) % 8 = 2^n ∧ 3≤n := by
  by_cases h3 : 3≤n
  · have hd : 8 ∣ 2^n := Nat.pow_dvd_pow 2 h3
    bv_omega
  · exfalso
    have hlt : 2^n<2^3 := Nat.pow_lt_pow_right (by decide) (by omega)
    bv_omega

variable {smallest bigest : SeqEntry}

theorem getBuffermap_eq_some (hn : n≤15) (b : PacketBuffer n) {count : ℤ}
    (hs : b.recentSeqLstLong.head? = some smallest) (hb : b.recentSeqLstLong.getLast? = some bigest)
    (hd : (bigest.seqno - smallest.seqno).toNat < 2^n) {bits : List Bool}
    (h : b.getBuffermap count = some (first, bits)) :
    ∃ c, MapRange n count smallest.seqno bigest.seqno first c ∧ bits = b.rangeBits first c := by
  have hle := two_pow_le hn
  have hspan : wrappableMinus bigest.seqno smallest.seqno =
      ((bigest.seqno - smallest.seqno).toNat : ℤ) := by
    rw [wrappableMinus,toInt_eq_toNat_of_lt (by omega)]
  generalize hD : (bigest.seqno - smallest.seqno).toNat = D at hd hspan
  have hpow : ((2^n : ℕ) : ℤ) = (2 : ℤ)^n := by norm_cast
  rw [getBuffermap,hs,hb] at h
  dsimp only at h
  split at h
  · cases h
  rw [hspan] at h
  obtain ⟨m,hm⟩ : ∃ m : ℕ, (m : ℤ) = min count (D+1) := ⟨(min count (D+1)).toNat,by omega⟩
  have hring : min (min count ((D : ℤ) + 1)) (2^n) = m := by omega
  rw [hring,ofInt_natCast,roundUp8_eq,wrappableMinus_add_ofNat _ (by omega)] at h
  split at h
  · cases h
  obtain ⟨c,hc⟩ : ∃ c : ℕ, c = m - (8 - (bigest.seqno - BitVec.ofNat 32 m).toNat % 8) % 8 :=
    ⟨_,rfl⟩
  have hcz : (c : ℤ) = (m : ℤ) - ((8 - (bigest.seqno - BitVec.ofNat 32 m).toNat % 8) % 8 : ℕ) := by
    omega
  rw [← hcz,Int.toNat_natCast,ofInt_natCast,Option.some.injEq,Prod.mk.injEq] at h
  obtain ⟨hfirst,hbits⟩ := h
  have hlast : first + BitVec.ofNat 32 c = bigest.seqno := by bv_omega
  have h8 : first.toNat % 8 = 0 := by bv_omega
  have hc0 : 0<c := by omega
  refine ⟨c,⟨hc0,hlast,h8,by omega,by omega,fun hb8 hcount hfull => ?_⟩,?_⟩
  · rw [hc] at hc0 ⊢
    exact full_ring hb8 (by omega) hn hc0
  · rw [← hbits,hfirst]
    refine map_congr_left fun i hi => ?_
    rw [mem_range] at hi
    exact b.mapGetBit_eq hn h8 hc0 (by omega) (by omega)

def Fresh (b : PacketBuffer n) (now : BitVec 32) : Prop :=
  ∀ p elm, b.mediaPackets p = some elm →
    b.isVodCategory=true ∨ isTimePassed (b.bufTimeMsec*8) elm.time now = false

/-- Every bit of an answer tells the truth: up to the biggest number it says whether the
buffer has the packet, and after it nothing is claimed. -/
def Truthful (b : PacketBuffer n) (now bigest first : BitVec 32) (bits : List Bool) : Prop :=
  ∀ i bit, bits[i]? = some bit →
    if wrappableGreater (first + BitVec.ofNat 32 i) bigest then bit = false
    else (bit=true ↔ b.has (first + BitVec.ofNat 32 i) now ≠ .notHas)

theorem Fresh.has_iff (h : b.Fresh now) (s : BitVec 32) : b.has s now ≠ .notHas ↔ b.Holds s := by
  rw [has_ne_notHas_iff]
  refine exists_congr fun elm => and_congr_right fun helm => ?_
  have hfresh : (b.isVodCategory || !isTimePassed (b.bufTimeMsec*8) elm.time now) = true := by
    rcases h _ elm helm with hv | ht
    · rw [hv,Bool.true_or]
    · rw [ht,Bool.not_false,Bool.or_true]
  rw [holds,hfresh,Bool.and_true,decide_eq_true_eq]

theorem Consistent.between (hn : n≤15) (h : b.Consistent) (hs : b.recentSeqLstLong.head? = some smallest)
    (hb : b.recentSeqLstLong.getLast? = some bigest) {s : BitVec 32} (hmem : s∈b.listed) :
    (bigest.seqno - s).toNat + (s - smallest.seqno).toNat =
      (bigest.seqno - smallest.seqno).toNat ∧ (bigest.seqno - smallest.seqno).toNat < 2^n := by
  have hle := two_pow_le hn
  obtain ⟨rest,hrest⟩ := List.head?_eq_some_iff.mp hs
  obtain ⟨init,hinit⟩ := List.getLast?_eq_some_iff.mp hb
  have hlow : ∀ t∈b.listed, (t - smallest.seqno).toNat < 2^n := by
    intro t ht
    have hsorted := h.sorted
    rw [listed,hrest,map_cons] at ht hsorted
    rcases mem_cons.mp ht with rfl | ht
    · simp
    · exact (rel_of_pairwise_cons hsorted ht).2
  have hhigh : (bigest.seqno - s).toNat < 2^n := by
    have hsorted := h.sorted
    rw [listed,hinit,map_append,map_singleton] at hmem hsorted
    rcases mem_append.mp hmem with hmem | hmem
    · exact ((pairwise_append.mp hsorted).2.2 s hmem _ mem_cons_self).2
    · rw [mem_singleton.mp hmem]
      simp
  have hbig := hlow bigest.seqno (by simp [listed,hinit])
  have hsmall := hlow s hmem
  exact ⟨by bv_omega,hbig⟩

theorem bigest_mem_listed {bigest : SeqEntry}
    (hb : b.recentSeqLstLong.getLast? = some bigest) : bigest.seqno∈b.listed :=
  mem_map_of_mem (mem_of_getLast? hb)

theorem Consistent.bit_iff (hn : n≤15) (h : b.Consistent) (hs : b.recentSeqLstLong.head? = some smallest)
    (hb : b.recentSeqLstLong.getLast? = some bigest) {s : BitVec 32} {d : ℕ}
    (hsd : s + BitVec.ofNat 32 d = bigest.seqno) (hd : d ≤ (bigest.seqno - smallest.seqno).toNat + 1)
    (hfull : ¬ (d=2^n ∧ 3≤n)) : b.buffermapCache (bitOf n s) = true ↔ s∈b.listed := by
  rw [h.mapped]
  constructor
  · rintro ⟨t,ht,hbit⟩
    obtain ⟨hsum,hspan⟩ := h.between hn hs hb ht
    by_cases hst : s=t
    · exact hst ▸ ht
    exfalso
    rcases Nat.lt_or_ge (bigest.seqno - t).toNat d with hlt | hge
    · -- `t` lies above `s`, at most the span and one away
      have hdist : (t - s).toNat = d - (bigest.seqno - t).toNat := by bv_omega
      have hz := (ofNat_eq_ofNat_iff (by omega) t s).mp hbit
      have hB : 2^n ≤ 2^max 3 n := Nat.pow_le_pow_right (by decide) (Nat.le_max_right 3 n)
      have hdn : d=2^n := by
        by_contra hdn
        rw [Nat.mod_eq_of_lt (by omega)] at hz
        omega
      have hlt : 2^n < 2^max 3 n := Nat.pow_lt_pow_right (by decide) (by omega)
      rw [Nat.mod_eq_of_lt (by omega)] at hz
      omega
    · refine bitOf_ne_of_near hn (Ne.symm hst) ?_ hbit
      bv_omega
  · intro hmem
    exact ⟨s,hmem,rfl⟩

/-- What an answer must meet to be truthful. The biggest number starts a byte of the map and
the range does not reach back over the whole ring; or it is the second number of its byte
and no listed number shares a place with the six numbers after it. -/
def Aligned (b : PacketBuffer n) (count : ℤ) (smallest bigest : BitVec 32) : Prop :=
  bigest.toNat % 8 = 0 ∧ ¬ ((2 : ℤ)^n ≤ count ∧ (bigest - smallest).toNat + 1 = 2^n) ∨
  bigest.toNat % 8 = 1 ∧ ∀ s∈b.listed, ∀ k, 1≤k → k≤6 →
    bitOf n s ≠ bitOf n (bigest + BitVec.ofNat 32 k)

theorem greater_add_iff {first bigest : BitVec 32} {c i : ℕ} (hc : c<2^16) (hi : i<c+8)
    (h : first + BitVec.ofNat 32 c = bigest) :
    wrappableGreater (first + BitVec.ofNat 32 i) bigest = true ↔ c < i := by
  rw [wrappableGreater,wrappableLess_iff (w := 31)]
  bv_omega

theorem Consistent.truthful_of_aligned (hn : n≤15) (h : b.Consistent) (hf : b.Fresh now) {count : ℤ}
    (hs : b.recentSeqLstLong.head? = some smallest)
    (hb : b.recentSeqLstLong.getLast? = some bigest) {c : ℕ}
    (hr : MapRange n count smallest.seqno bigest.seqno first c)
    (ha : b.Aligned count smallest.seqno bigest.seqno) :
    b.Truthful now bigest.seqno first (b.rangeBits first c) := by
  have hle := two_pow_le hn
  have hbig := bigest_mem_listed hb
  have hspan := (h.between hn hs hb hbig).2
  have hpow : ((2^n : ℕ) : ℤ) = (2 : ℤ)^n := by norm_cast
  have hbig8 : bigest.seqno.toNat % 8 = c % 8 := by have := hr.last; have := hr.start; bv_omega
  obtain ⟨hpos,hlast,hstart,hcs,hcount,-⟩ := hr
  intro i bit hbit
  have hi : i < 8 * ((c+7) / 8) := by
    have := List.getElem?_eq_some_iff.mp hbit
    simpa [rangeBits] using this.1
  rw [getElem?_rangeBits b first hi,Option.some.injEq] at hbit
  subst hbit
  have hgreater := greater_add_iff (i := i) (by omega) (by omega) hlast
  rcases Nat.lt_trichotomy i c with hic | rfl | hic
  · rw [if_neg (mt hgreater.mp (by omega)),if_pos (.inl hic),hf.has_iff,h.held]
    have hsd : first + BitVec.ofNat 32 i + BitVec.ofNat 32 (c - i) = bigest.seqno := by bv_omega
    refine h.bit_iff hn hs hb hsd (by omega) ?_
    rintro ⟨hfull,h3⟩
    have hd8 : 8 ∣ 2^n := Nat.pow_dvd_pow 2 h3
    rcases ha with ⟨-,hno⟩ | ⟨h1,-⟩
    · exact hno ⟨by omega,by omega⟩
    · omega
  · -- the biggest number itself is the second of its byte
    have hsecond : i % 8 = 1 := by
      rcases ha with ⟨h0,-⟩ | ⟨h1,-⟩ <;> omega
    rw [if_neg (mt hgreater.mp (by omega)),hlast,if_pos (by omega),hf.has_iff,h.held,h.mapped]
    exact iff_of_true ⟨_,hbig,rfl⟩ hbig
  · rw [if_pos (hgreater.mpr hic)]
    rcases ha with ⟨h0,-⟩ | ⟨h1,hno⟩
    · omega
    · rw [if_pos (by omega),← Bool.not_eq_true,h.mapped]
      rintro ⟨s,hmem,hpos⟩
      refine hno s hmem (i - c) (by omega) (by omega) (hpos.trans ?_)
      congr 1
      bv_omega

theorem Consistent.aligned_of_truthful (hn : n≤15) (h : b.Consistent) (hf : b.Fresh now) {count : ℤ}
    (hs : b.recentSeqLstLong.head? = some smallest)
    (hb : b.recentSeqLstLong.getLast? = some bigest) {c : ℕ}
    (hr : MapRange n count smallest.seqno bigest.seqno first c)
    (ht : b.Truthful now bigest.seqno first (b.rangeBits first c)) :
    b.Aligned count smallest.seqno bigest.seqno := by
  have hle := two_pow_le hn
  have hbig := bigest_mem_listed hb
  have hspan := (h.between hn hs hb hbig).2
  have hbig8 : bigest.seqno.toNat % 8 = c % 8 := by have := hr.last; have := hr.start; bv_omega
  obtain ⟨hpos,hlast,hstart,hcs,hcount,hfull⟩ := hr
  have htruth : ∀ i < 8 * ((c+7) / 8), _ := fun i hi =>
    ht i _ (getElem?_rangeBits b first hi)
  have hgreater : ∀ i<c+8, wrappableGreater (first + BitVec.ofNat 32 i) bigest.seqno = true ↔
      c < i := fun i hi => greater_add_iff (by omega) hi hlast
  rcases Nat.lt_or_ge 1 (c % 8) with hmid | hlow
  · -- the bit of the biggest number was cleared as padding
    have hcut := htruth c (by omega)
    rw [if_neg (mt (hgreater c (by omega)).mp (by omega)),if_neg (by omega),hlast,hf.has_iff,
      h.held] at hcut
    exact absurd (hcut.mpr hbig) (by decide)
  rcases Nat.eq_zero_or_pos (c % 8) with h0 | h1
  · refine .inl ⟨by omega,fun ⟨hcn,hD⟩ => ?_⟩
    obtain ⟨hc,h3⟩ := hfull (by omega) hcn hD
    -- the first place of the range is the place of the biggest number
    have hzero := htruth 0 (by omega)
    have hbit : b.buffermapCache (bitOf n first) = true := by
      rw [h.mapped]
      refine ⟨_,hbig,(ofNat_eq_ofNat_iff (by omega) _ _).mpr ?_⟩
      have hdist : (bigest.seqno - first).toNat = 2^n := by bv_omega
      rw [hdist,Nat.max_eq_right h3,Nat.mod_self]
    have hfirst : first + BitVec.ofNat 32 0 = first := by simp
    rw [if_neg (mt (hgreater 0 (by omega)).mp (by omega)),if_pos (.inl hpos),hfirst,hf.has_iff,
      h.held] at hzero
    have := (h.between hn hs hb (hzero.mp hbit)).1
    bv_omega
  · refine .inr ⟨by omega,fun s hmem k hk1 hk6 hbit => ?_⟩
    have hpad := htruth (c+k) (by omega)
    rw [if_pos ((hgreater (c+k) (by omega)).mpr (by omega)),if_pos (by omega),
      ← Bool.not_eq_true,h.mapped] at hpad
    refine hpad ⟨s,hmem,hbit.trans ?_⟩
    congr 1
    bv_omega

inductive BufferEvent where
  | insert (pkt : MediaPacket) (now : BitVec 32) (playing : Option (BitVec 32))
  | reset

def step (b : PacketBuffer n) : BufferEvent → PacketBuffer n
  | .insert pkt now playing => (b.insert pkt now playing).1
  | .reset => b.reset

/-- The condition `Fits` on insertions; a reset is always fine. -/
def FitsEvent (b : PacketBuffer n) : BufferEvent → Prop
  | .insert pkt now playing => b.Fits pkt now playing
  | .reset => True

theorem Consistent.run (hn : n≤15) {es : List BufferEvent}
    (h : AlongRun step FitsEvent b es) (hb : b.Consistent) : (es.foldl step b).Consistent := by
  refine invariant_of_run Consistent (fun c e hfit hc => ?_) h hb
  cases e with
  | insert pkt now playing => exact hc.insert hn hfit
  | reset => exact c.reset_consistent

/-- In every run of fitting insertions and resets, whatever is asked for: the answer is
truthful exactly when its range is aligned. -/
theorem buffermap_truthful_iff {bufTime : ℕ} {vod : Bool} {es : List BufferEvent} (hn : n≤15)
    (hrun : AlongRun step FitsEvent (create n bufTime vod) es) (count : ℤ) (now : BitVec 32)
    (hf : (es.foldl step (create n bufTime vod)).Fresh now) (smallest bigest : SeqEntry)
    (hs : (es.foldl step (create n bufTime vod)).recentSeqLstLong.head? = some smallest)
    (hb : (es.foldl step (create n bufTime vod)).recentSeqLstLong.getLast? = some bigest)
    (first : BitVec 32) (bits : List Bool)
    (hmap : (es.foldl step (create n bufTime vod)).getBuffermap count = some (first, bits)) :
    (es.foldl step (create n bufTime vod)).Truthful now bigest.seqno first bits ↔
      (es.foldl step (create n bufTime vod)).Aligned count smallest.seqno bigest.seqno := by
  have hc := Consistent.run hn hrun (create_consistent n bufTime vod)
  have hspan := (hc.between hn hs hb (bigest_mem_listed hb)).2
  obtain ⟨c,hr,rfl⟩ := getBuffermap_eq_some hn _ hs hb hspan hmap
  exact ⟨hc.aligned_of_truthful hn hf hs hb hr,hc.truthful_of_aligned hn hf hs hb hr⟩

def arrivals (seqnos : List (BitVec 32)) : List BufferEvent :=
  seqnos.map fun s => .insert (numbered s 0) 0 none

theorem fits_first (s : BitVec 32) : (create 11 0 true).Fits (numbered s 0) 0 none :=
  .inr ⟨fun ⟨_,_,he,_⟩ => by simp [create] at he,fun _ ⟨_,_,he,_⟩ => by simp [create] at he⟩

/-- The buffer has packets 0, 1 and 2, but advertises only the first two of them. -/
theorem biggest_packet_not_advertised :
    ((arrivals [0,1,2]).foldl step (create 11 0 true)).getBuffermap 160 =
        some (0, [true,true,false,false,false,false,false,false]) ∧
      ((arrivals [0,1,2]).foldl step (create 11 0 true)).has 2 0 ≠ .notHas := by
  decide +kernel

theorem aligned_packets_advertised : ((arrivals [0,8]).foldl step (create 11 0 true)).Truthful 0 8 0
      [true,false,false,false,false,false,false,false] := by
  have hrun : AlongRun step FitsEvent (create 11 0 true) (arrivals [0,8]) := by
    refine ⟨fits_first 0,.inr ⟨?_,?_⟩,trivial⟩
    · have hlist : (step (create 11 0 true) (.insert (numbered 0 0) 0 none)).recentSeqLstLong =
          [⟨0,0⟩] := by decide +kernel
      rw [hlist,evicts_cons]
      exact fun h => absurd h.1 (by decide +kernel)
    · rintro s ⟨j,e,he,rfl,-⟩
      have hmem := mem_of_getElem? he
      rw [mem_singleton.mp hmem]
      exact .inl (by decide)
  refine (buffermap_truthful_iff (by decide) hrun 160 0 (fun _ _ _ => .inl ?_) ⟨0,0⟩ ⟨8,0⟩
    ?_ ?_ 0 _ ?_).mpr (.inl ⟨by decide,fun h => absurd h.1 (by decide)⟩)
  all_goals decide +kernel

end PacketBuffer
end P2Streaming
