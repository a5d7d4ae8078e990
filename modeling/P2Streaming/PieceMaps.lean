import P2Streaming.BitsetDecoding
import P2Streaming.DiskCacheAccounting
import P2Streaming.DiskCacheContents
import Mathlib.Data.List.GetD
import Mathlib.Tactic.IntervalCases

/-!
# The piece map of the disk cache

`get_piece_map` copies the bytes of a chunk's bitset from the one with the first piece to the
one with the last, and does this for at most two chunks. The first bit of a copied byte is the
first piece asked for only if that piece starts a byte of its chunk's bitset. The second chunk
follows in the map where it should only if the chunks have whole bytes of pieces, and the last
piece reported stays what it was when the second chunk is not there or a third one is wanted.
-/
namespace P2Streaming.DiskCache
open BigEndianBytes BufferManager List

def byteAt (bits : ℕ → Bool) (k : ℕ) : Byte :=
  BitVec.ofBoolListBE [bits (8*k),bits (8 * k + 1),bits (8 * k + 2),bits (8 * k + 3),
    bits (8 * k + 4),bits (8 * k + 5),bits (8 * k + 6),bits (8 * k + 7)]

def bitsetBytes (bits : ℕ → Bool) (k₁ k₂ : ℕ) : List Byte :=
  (List.range (k₂ + 1 - k₁)).map fun k => byteAt bits (k₁+k)

/-- The loop of `left_shift`: the last byte is not shifted, and `>>` extends the sign of a `char`. -/
def shiftBytes (n : ℕ) : List Byte → List Byte
  | a :: b :: str => (a <<< n ||| b.sshiftRight (8 - n)) :: shiftBytes n (b::str)
  | str => str

def leftShift (str : List Byte) (n : ℕ) : List Byte :=
  let n := if str.length * 8 < n then str.length else n
  let numBytes := n / 8
  if str.length≤numBytes then List.replicate str.length 0
  else
    let str := str.drop numBytes ++ List.replicate numBytes 0
    if 0 < n - numBytes * 8 then shiftBytes (n - numBytes * 8) str else str

/-- The map with the bytes of the next chunk moved over the gap at its end. -/
def stitch (gap : ℕ) (pieceMap : List Byte) : List Byte → List Byte
  | [] => pieceMap
  | b :: tmp =>
    pieceMap.modify (pieceMap.length - 1) (· ||| b.sshiftRight (8 - gap)) ++ leftShift (b::tmp) gap

/-- The last piece of a turn: the last one wanted, or the last one in the chunk of the first. -/
def realto (cnt realfrom toSeqno : ℕ) : ℕ :=
  if toSeqno / cnt ≠ realfrom / cnt then (realfrom / cnt + 1) * cnt - 1 else toSeqno

def nextFrom (nextTo : ℕ) : ℕ := if nextTo % 8 ≠ 0 then (nextTo + 8 - 1) / 8 * 8 else nextTo

/-- What `get_piece_map` leaves in its arguments. -/
structure PieceMap where
  fromSeqno : ℤ
  toSeqno : ℤ
  bytes : List Byte

namespace OpenedCache

variable (s : OpenedCache)

def chunkOf (c : Channel) (seqno : ℕ) : Option Chunk :=
  let k := c.cacheChunkId (s.geometry.origChunkId seqno)
  if k=invalidChunkId then none else s.chunks k

/-- The loop of `get_piece_map`, with the number of turns that are left. -/
def mapTurns (c : Channel) : ℕ → ℕ → ℕ → ℕ → List Byte → ℕ × List Byte
  | 0, _, toSeqno, _, pieceMap => (toSeqno, pieceMap)
  | turns + 1, realfrom, toSeqno, gap, pieceMap =>
    let cnt := s.geometry.pieceCntPerChunk
    let realto := realto cnt realfrom toSeqno
    match s.chunkOf c realfrom with
    | none => (toSeqno, pieceMap)
    | some ck =>
      let bytes := bitsetBytes ck.pieceBitset (realfrom % cnt / 8) (realto % cnt / 8)
      let pieceMap := if gap=0 ∨ pieceMap=[] then pieceMap ++ bytes else stitch gap pieceMap bytes
      if toSeqno ≤ realto then (realto, pieceMap)
      else
        let nextTo := realto+1
        mapTurns c turns (nextFrom nextTo) toSeqno (nextFrom nextTo - nextTo) pieceMap

def getPieceMap (now : ℕ) (channelID : List Byte) (fromSeqno toSeqno : ℤ) :
    Option (OpenedCache × PieceMap) :=
  if fromSeqno<0 ∨ toSeqno<0 ∨ toSeqno≤fromSeqno then some (s, ⟨fromSeqno,toSeqno,[]⟩)
  else match s.channels (.ofString channelID) with
  | none => some (s, ⟨fromSeqno,toSeqno,[]⟩)
  | some c =>
    let fromSeqno := fromSeqno / 8 * 8
    if ¬ c.origPieceCount.IsValid then
      (s.eraseChannel now (.ofString channelID)).map (·, ⟨fromSeqno,toSeqno,[]⟩)
    else
      let toSeqno := if c.origPieceCount.read≤toSeqno then c.origPieceCount.read - 1 else toSeqno
      if toSeqno<0 ∨ toSeqno≤fromSeqno then some (s, ⟨fromSeqno,toSeqno,[]⟩)
      else
        let r := s.mapTurns c 2 fromSeqno.toNat toSeqno.toNat 0 []
        some (s, ⟨fromSeqno,r.1,r.2⟩)

/-- A map that is not empty says of every piece it covers what `has_piece` says, and has a bit
for each. -/
def MapAgrees (now : ℕ) (channelID : List Byte) (fromSeqno toSeqno : ℤ) : Prop :=
  ∀ s' m, s.getPieceMap now channelID fromSeqno toSeqno = some (s', m) → m.bytes≠[] →
    (∀ i : ℕ, m.fromSeqno + i ≤ m.toSeqno →
      s'.hasPiece channelID (m.fromSeqno.toNat+i) = some (isBit m.bytes i)) ∧
    m.toSeqno - m.fromSeqno + 1 ≤ 8*m.bytes.length

/-- Another cache with the same channels and the same chunks; what their bitsets say may differ. -/
structure SameChunks (t : OpenedCache) : Prop where
  geometry_eq : t.geometry=s.geometry
  channels_eq : t.channels=s.channels
  isSome_eq (k : ℕ) : (t.chunks k).isSome = (s.chunks k).isSome

/-- The map of the pieces from `lo` to `hi` can be made of whole bytes: the first chunk is not
there, or `lo` starts a byte of its bitset and all the pieces are in that chunk or, if chunks
are whole bytes, in it and in the next one, which is there. -/
def WholeBytes (c : Channel) (lo hi : ℕ) : Prop :=
  s.chunkOf c lo = none ∨
    lo % s.geometry.pieceCntPerChunk % 8 = 0 ∧
      (hi / s.geometry.pieceCntPerChunk = lo / s.geometry.pieceCntPerChunk ∨
        s.geometry.pieceCntPerChunk % 8 = 0 ∧
        hi / s.geometry.pieceCntPerChunk = lo / s.geometry.pieceCntPerChunk + 1 ∧ s.chunkOf c hi ≠ none)

def firstPiece (fromSeqno : ℤ) : ℤ := fromSeqno / 8 * 8

def lastPiece (c : Channel) (toSeqno : ℤ) : ℤ := min toSeqno (c.origPieceCount.read - 1)

/-- The requests that come to the loop; the map of any other is empty. -/
structure ReachesLoop (channelID : List Byte) (fromSeqno toSeqno : ℤ) (c : Channel) : Prop where
  from_nonneg : 0≤fromSeqno
  from_lt : fromSeqno<toSeqno
  channel : s.channels (.ofString channelID) = some c
  valid : c.origPieceCount.IsValid
  first_lt : firstPiece fromSeqno < lastPiece c toSeqno

def MapFits (channelID : List Byte) (fromSeqno toSeqno : ℤ) : Prop :=
  ∀ c, s.ReachesLoop channelID fromSeqno toSeqno c →
    s.WholeBytes c (firstPiece fromSeqno).toNat (lastPiece c toSeqno).toNat

end OpenedCache

section Bits

theorem getLsbD_byteAt (bits : ℕ → Bool) (k : ℕ) {j : ℕ} (hj : j<8) :
    (byteAt bits k).getLsbD (7 - j) = bits (8 * k + j) := by
  have hmsb : (byteAt bits k).getMsbD j = bits (8 * k + j) := by
    rw [byteAt,BitVec.getMsbD_ofBoolListBE]
    interval_cases j <;> rfl
  rw [← hmsb,BitVec.getMsbD_eq_getLsbD,decide_eq_true hj,Bool.true_and]

@[simp] theorem length_bitsetBytes (bits : ℕ → Bool) (k₁ k₂ : ℕ) :
    (bitsetBytes bits k₁ k₂).length = k₂ + 1 - k₁ := by
  simp [bitsetBytes]

theorem isBit_bitsetBytes (bits : ℕ → Bool) {k₁ k₂ i : ℕ} (hi : i / 8 < k₂ + 1 - k₁) :
    isBit (bitsetBytes bits k₁ k₂) i = bits (8 * k₁ + i) := by
  have hbyte : (bitsetBytes bits k₁ k₂).getD (i / 8) 0 = byteAt bits (k₁ + i / 8) := by
    simp [bitsetBytes,getD_eq_getElem?_getD,hi]
  rw [isBit,hbyte,getLsbD_byteAt bits _ (Nat.mod_lt i (by omega))]
  congr 1
  omega

theorem isBit_append_left {a b : List Byte} {i : ℕ} (hi : i / 8 < a.length) :
    isBit (a++b) i = isBit a i := by
  rw [isBit,isBit,getD_append _ _ _ _ hi]

theorem isBit_append_right (a b : List Byte) (i : ℕ) : isBit (a++b) (8 * a.length + i) = isBit b i := by
  have hdiv : (8 * a.length + i) / 8 = a.length + i / 8 := by omega
  have hmod : (8 * a.length + i) % 8 = i % 8 := by omega
  rw [isBit,isBit,hdiv,hmod,getD_append_right _ _ _ _ (by omega),Nat.add_sub_cancel_left]

theorem lt_length_of_isBit {a : List Byte} {i : ℕ} (h : isBit a i = true) : i / 8 < a.length := by
  by_contra hlen
  rw [isBit,getD_eq_default _ _ (by omega)] at h
  simp at h

theorem isBit_stitch {pieceMap : List Byte} {i : ℕ} (h : isBit pieceMap i = true) (gap : ℕ)
    (tmp : List Byte) : isBit (stitch gap pieceMap tmp) i = true := by
  cases tmp with
  | nil => exact h
  | cons b tmp =>
    have hlen := lt_length_of_isBit h
    rw [stitch,isBit_append_left (by rwa [length_modify])]
    rw [isBit,getD_eq_getElem?_getD,List.getElem?_eq_getElem hlen] at h
    rw [isBit,getD_eq_getElem?_getD,List.getElem?_modify,List.getElem?_eq_getElem hlen]
    by_cases hlast : pieceMap.length - 1 = i / 8
    · rw [Option.getD_some] at h
      simp [hlast,h]
    · simpa [hlast] using h

end Bits

namespace OpenedCache

variable {s t : OpenedCache} {c : Channel} {channelID : List Byte} {lo hi : ℕ} {ck : Chunk}

section Turns

theorem le_mapTurns (s : OpenedCache) (c : Channel) (turns realfrom toSeqno gap : ℕ)
    (pieceMap : List Byte) : toSeqno ≤ (s.mapTurns c turns realfrom toSeqno gap pieceMap).1 := by
  induction turns generalizing realfrom gap pieceMap with
  | zero => exact le_rfl
  | succ turns ih =>
    rw [mapTurns]
    cases s.chunkOf c realfrom with
    | none => exact le_rfl
    | some ck =>
      dsimp only
      split
      · assumption
      · apply ih

theorem isBit_mapTurns (s : OpenedCache) (c : Channel) (turns realfrom toSeqno gap : ℕ)
    {pieceMap : List Byte} {i : ℕ} (h : isBit pieceMap i = true) :
    isBit (s.mapTurns c turns realfrom toSeqno gap pieceMap).2 i = true := by
  induction turns generalizing realfrom gap pieceMap with
  | zero => exact h
  | succ turns ih =>
    rw [mapTurns]
    cases s.chunkOf c realfrom with
    | none => exact h
    | some ck =>
      have hnext (bytes : List Byte) :
          isBit (if gap=0 ∨ pieceMap=[] then pieceMap ++ bytes else stitch gap pieceMap bytes) i =
          true := by
        split
        · rwa [isBit_append_left (lt_length_of_isBit h)]
        · exact isBit_stitch h gap bytes
      dsimp only
      split
      · exact hnext _
      · exact ih _ _ (hnext _)

theorem mapTurns_none (h : s.chunkOf c lo = none) (turns gap : ℕ) (pieceMap : List Byte) :
    s.mapTurns c turns lo hi gap pieceMap = (hi, pieceMap) := by
  cases turns with
  | zero => rfl
  | succ turns => rw [mapTurns,h]

theorem mapTurns_last (hck : s.chunkOf c lo = some ck)
    (hq : hi / s.geometry.pieceCntPerChunk = lo / s.geometry.pieceCntPerChunk) (turns : ℕ)
    (pieceMap : List Byte) : s.mapTurns c (turns+1) lo hi 0 pieceMap =
      (hi, pieceMap ++ bitsetBytes ck.pieceBitset (lo % s.geometry.pieceCntPerChunk / 8)
        (hi % s.geometry.pieceCntPerChunk / 8)) := by
  have hrealto : realto s.geometry.pieceCntPerChunk lo hi = hi := if_neg (not_not.mpr hq)
  rw [mapTurns,hck]
  dsimp only
  rw [hrealto,if_pos le_rfl,if_pos (.inl rfl)]

theorem mapTurns_first (hck : s.chunkOf c lo = some ck)
    (hq : lo / s.geometry.pieceCntPerChunk < hi / s.geometry.pieceCntPerChunk) (turns : ℕ)
    (pieceMap : List Byte) : s.mapTurns c (turns+1) lo hi 0 pieceMap =
      let nextTo := (lo / s.geometry.pieceCntPerChunk + 1) * s.geometry.pieceCntPerChunk
      s.mapTurns c turns (nextFrom nextTo) hi (nextFrom nextTo - nextTo)
        (pieceMap ++ bitsetBytes ck.pieceBitset
        (lo % s.geometry.pieceCntPerChunk / 8) ((s.geometry.pieceCntPerChunk - 1) / 8)) := by
  have hcnt := s.geometry.pieceCnt_pos
  have hrealto : realto s.geometry.pieceCntPerChunk lo hi =
      (lo / s.geometry.pieceCntPerChunk + 1) * s.geometry.pieceCntPerChunk - 1 := if_pos hq.ne'
  have hhi : (lo / s.geometry.pieceCntPerChunk + 1) * s.geometry.pieceCntPerChunk ≤ hi :=
    (Nat.mul_le_mul_right _ hq).trans (Nat.div_mul_le_self hi _)
  have hpos : 0 < (lo / s.geometry.pieceCntPerChunk + 1) * s.geometry.pieceCntPerChunk :=
    Nat.mul_pos (Nat.succ_pos _) hcnt
  have hmod : ((lo / s.geometry.pieceCntPerChunk + 1) * s.geometry.pieceCntPerChunk - 1) %
      s.geometry.pieceCntPerChunk = s.geometry.pieceCntPerChunk - 1 := by
    rw [Nat.succ_mul,Nat.add_sub_assoc hcnt,Nat.add_comm,Nat.add_mul_mod_self_right,
      Nat.mod_eq_of_lt (by omega)]
  rw [mapTurns,hck]
  dsimp only
  rw [hrealto,if_neg (by omega),if_pos (.inl rfl),hmod,Nat.sub_add_cancel hpos]

theorem nextFrom_of_mod {n : ℕ} (h : n % 8 = 0) : nextFrom n = n := if_neg (not_not.mpr h)

end Turns

section Pieces

theorem chunkOf_eq_of_div {n m : ℕ} (h : n / s.geometry.pieceCntPerChunk =
    m / s.geometry.pieceCntPerChunk) (c : Channel) : s.chunkOf c n = s.chunkOf c m := by
  rw [chunkOf,chunkOf,Geometry.origChunkId_eq,Geometry.origChunkId_eq,h]

theorem hasPiece_of_chunkOf (hc : s.channels (.ofString channelID) = some c) {seqno : ℕ}
    (hck : s.chunkOf c seqno = some ck) :
    s.hasPiece channelID seqno = some (ck.pieceBitset (seqno % s.geometry.pieceCntPerChunk)) := by
  rw [chunkOf] at hck
  split at hck
  · exact absurd hck.symm (Option.some_ne_none _)
  · rename_i hvalid
    rw [Channel.cacheChunkId] at hvalid hck
    by_cases hcount : c.origChunkCount ≤ s.geometry.origChunkId seqno
    · exact absurd (if_pos hcount) hvalid
    · rw [if_neg hcount] at hvalid hck
      rw [hasPiece,findPiece,hc]
      dsimp only
      rw [if_neg hcount,if_neg hvalid,hck]
      cases hbit : ck.pieceBitset (seqno % s.geometry.pieceCntPerChunk) <;> simp [hbit]

theorem exists_of_hasPiece {seqno : ℕ} (h : s.hasPiece channelID seqno = some true) :
    ∃ k ck, s.chunks k = some ck ∧ ck.pieceBitset (seqno % s.geometry.pieceCntPerChunk) = true := by
  rw [hasPiece,findPiece] at h
  cases hc : s.channels (.ofString channelID) with
  | none => simp [hc] at h
  | some c =>
    rw [hc] at h
    dsimp only at h
    split at h
    · simp at h
    · split at h
      · simp at h
      · cases hck : s.chunks (c.orgiToCacheChunk (s.geometry.origChunkId seqno)) with
        | none => simp [hck] at h
        | some ck =>
          refine ⟨_,ck,hck,?_⟩
          by_contra hbit
          simp [hck,hbit] at h

end Pieces

/-- What the loop makes of the pieces from `lo` to `hi` agrees with `has_piece`. -/
def TurnsAgree (s : OpenedCache) (c : Channel) (channelID : List Byte) (lo hi : ℕ) : Prop :=
  let r := s.mapTurns c 2 lo hi 0 []
  r.2≠[] →
    (∀ i, lo + i ≤ r.1 → s.hasPiece channelID (lo+i) = some (isBit r.2 i)) ∧ r.1+1 ≤ lo + 8 * r.2.length

section Enough

theorem div_add_eq {cnt i : ℕ} (hle : lo+i≤hi) (h : hi / cnt = lo / cnt) : (lo+i) / cnt = lo / cnt :=
  le_antisymm ((Nat.div_le_div_right hle).trans h.le) (Nat.div_le_div_right (Nat.le_add_right lo i))

theorem mod_add_eq {cnt i : ℕ} (h : (lo+i) / cnt = lo / cnt) : (lo+i) % cnt = lo % cnt + i := by
  have hlo := Nat.div_add_mod lo cnt
  have hsum := Nat.div_add_mod (lo+i) cnt
  rw [h] at hsum
  omega

theorem hasPiece_eq_isBit_bitsetBytes (hc : s.channels (.ofString channelID) = some c)
    (hck : s.chunkOf c lo = some ck) (hbyte : lo % s.geometry.pieceCntPerChunk % 8 = 0) {i k : ℕ}
    (hi : (lo+i) / s.geometry.pieceCntPerChunk = lo / s.geometry.pieceCntPerChunk)
    (hk : (lo % s.geometry.pieceCntPerChunk + i) / 8 ≤ k) : s.hasPiece channelID (lo+i) =
      some (isBit (bitsetBytes ck.pieceBitset (lo % s.geometry.pieceCntPerChunk / 8) k) i) := by
  rw [hasPiece_of_chunkOf hc ((chunkOf_eq_of_div hi c).trans hck),isBit_bitsetBytes _ (by omega),
    mod_add_eq hi]
  congr 2
  omega

theorem turnsAgree_of_one (hc : s.channels (.ofString channelID) = some c)
    (hck : s.chunkOf c lo = some ck) (hbyte : lo % s.geometry.pieceCntPerChunk % 8 = 0)
    (hq : hi / s.geometry.pieceCntPerChunk = lo / s.geometry.pieceCntPerChunk) (hle : lo≤hi) :
    s.TurnsAgree c channelID lo hi := by
  have hmod : hi % s.geometry.pieceCntPerChunk = lo % s.geometry.pieceCntPerChunk + (hi - lo) := by
    obtain ⟨i,rfl⟩ := Nat.exists_eq_add_of_le hle
    rw [mod_add_eq hq,Nat.add_sub_cancel_left]
  rw [TurnsAgree,mapTurns_last hck hq]
  intro _
  constructor
  · intro i hi
    exact hasPiece_eq_isBit_bitsetBytes hc hck hbyte (div_add_eq hi hq) (by omega)
  · rw [nil_append,length_bitsetBytes]
    omega

theorem add_length_first {cnt : ℕ} (hcnt : 0<cnt) (hwhole : cnt % 8 = 0) (hbyte : lo % cnt % 8 = 0) :
    lo + 8 * ((cnt - 1) / 8 + 1 - lo % cnt / 8) = (lo / cnt + 1) * cnt := by
  have hlo := Nat.div_add_mod lo cnt
  have hlt := Nat.mod_lt lo hcnt
  rw [Nat.add_mul (lo / cnt),Nat.mul_comm (lo / cnt)]
  omega

theorem mapTurns_whole (hck : s.chunkOf c lo = some ck) (hwhole : s.geometry.pieceCntPerChunk % 8 = 0)
    (hq : lo / s.geometry.pieceCntPerChunk < hi / s.geometry.pieceCntPerChunk) (turns : ℕ)
    (pieceMap : List Byte) : s.mapTurns c (turns+1) lo hi 0 pieceMap =
      s.mapTurns c turns ((lo / s.geometry.pieceCntPerChunk + 1) * s.geometry.pieceCntPerChunk) hi 0
        (pieceMap ++ bitsetBytes ck.pieceBitset (lo % s.geometry.pieceCntPerChunk / 8)
          ((s.geometry.pieceCntPerChunk - 1) / 8)) := by
  have hmod : (lo / s.geometry.pieceCntPerChunk + 1) * s.geometry.pieceCntPerChunk % 8 = 0 := by
    rw [Nat.mul_mod,hwhole,Nat.mul_zero,Nat.zero_mod]
  rw [mapTurns_first hck hq]
  dsimp only
  rw [nextFrom_of_mod hmod,Nat.sub_self]

theorem turnsAgree_of_two (hc : s.channels (.ofString channelID) = some c)
    (hck : s.chunkOf c lo = some ck)
    (hbyte : lo % s.geometry.pieceCntPerChunk % 8 = 0) (hwhole : s.geometry.pieceCntPerChunk % 8 = 0)
    (hq : hi / s.geometry.pieceCntPerChunk = lo / s.geometry.pieceCntPerChunk + 1) {ck' : Chunk}
    (hck' : s.chunkOf c hi = some ck') : s.TurnsAgree c channelID lo hi := by
  have hcnt := s.geometry.pieceCnt_pos
  have hlen := add_length_first hcnt hwhole hbyte
  have hnext : (lo / s.geometry.pieceCntPerChunk + 1) *
    s.geometry.pieceCntPerChunk / s.geometry.pieceCntPerChunk =
      lo / s.geometry.pieceCntPerChunk + 1 := Nat.mul_div_cancel _ hcnt
  have hzero : (lo / s.geometry.pieceCntPerChunk + 1) *
    s.geometry.pieceCntPerChunk % s.geometry.pieceCntPerChunk = 0 :=
    Nat.mul_mod_left _ _
  have hhi := Nat.div_add_mod hi s.geometry.pieceCntPerChunk
  rw [hq,Nat.mul_comm] at hhi
  have hsecond := (chunkOf_eq_of_div (hnext.trans hq.symm) c).trans hck'
  rw [TurnsAgree,mapTurns_whole hck hwhole (by omega),mapTurns_last hsecond (hq.trans hnext.symm),hzero,
    Nat.zero_div,nil_append]
  intro _
  constructor
  · intro i hle
    by_cases hfirst : lo+i < (lo / s.geometry.pieceCntPerChunk + 1) * s.geometry.pieceCntPerChunk
    · -- a piece of the first chunk
      have hdiv : (lo+i) / s.geometry.pieceCntPerChunk = lo / s.geometry.pieceCntPerChunk :=
        le_antisymm (Nat.le_of_lt_succ (Nat.div_lt_of_lt_mul (by rwa [Nat.mul_comm])))
          (Nat.div_le_div_right (Nat.le_add_right lo i))
      rw [isBit_append_left (by rw [length_bitsetBytes]; omega)]
      exact hasPiece_eq_isBit_bitsetBytes hc hck hbyte hdiv (by omega)
    · -- a piece of the second
      obtain ⟨j,hj⟩ := Nat.exists_eq_add_of_le (Nat.le_of_not_lt hfirst)
      have hplace : i = 8 * ((s.geometry.pieceCntPerChunk - 1) / 8 + 1 -
        lo % s.geometry.pieceCntPerChunk / 8) + j := by
        omega
      have hdiv : ((lo / s.geometry.pieceCntPerChunk + 1) * s.geometry.pieceCntPerChunk + j) /
          s.geometry.pieceCntPerChunk =
          (lo / s.geometry.pieceCntPerChunk + 1) *
          s.geometry.pieceCntPerChunk / s.geometry.pieceCntPerChunk :=
        div_add_eq (hj.symm.le.trans hle) (hq.trans hnext.symm)
      have hbyte' : ((lo / s.geometry.pieceCntPerChunk + 1) * s.geometry.pieceCntPerChunk %
          s.geometry.pieceCntPerChunk + j) / 8 ≤ hi % s.geometry.pieceCntPerChunk / 8 := by
        omega
      have hbits := hasPiece_eq_isBit_bitsetBytes hc hsecond (by rw [hzero]) hdiv hbyte'
      rw [hzero,Nat.zero_div] at hbits
      rw [hj,hbits,hplace]
      have hright := isBit_append_right (bitsetBytes ck.pieceBitset (lo % s.geometry.pieceCntPerChunk / 8)
        ((s.geometry.pieceCntPerChunk - 1) / 8))
          (bitsetBytes ck'.pieceBitset 0 (hi % s.geometry.pieceCntPerChunk / 8)) j
      rw [length_bitsetBytes] at hright
      rw [hright]
  · rw [length_append,length_bitsetBytes,length_bitsetBytes]
    omega

theorem turnsAgree_of_wholeBytes (hc : s.channels (.ofString channelID) = some c) (hle : lo≤hi)
    (h : s.WholeBytes c lo hi) : s.TurnsAgree c channelID lo hi := by
  rcases hck : s.chunkOf c lo with _ | ck
  · rw [TurnsAgree,mapTurns_none hck]
    exact fun hne => absurd rfl hne
  · obtain hnone | ⟨hbyte,hq | ⟨hwhole,hq,hnext⟩⟩ := h
    · exact absurd (hck.symm.trans hnone) (Option.some_ne_none _)
    · exact turnsAgree_of_one hc hck hbyte hq hle
    · obtain ⟨ck',hck'⟩ := Option.ne_none_iff_exists'.mp hnext
      exact turnsAgree_of_two hc hck hbyte hwhole hq hck'

end Enough

section Needed

def withBits (s : OpenedCache) (bits : ℕ → Bool) : OpenedCache :=
  { s with chunks := fun k => (s.chunks k).map fun ck => { ck with pieceBitset := bits } }

theorem sameChunks_withBits (s : OpenedCache) (bits : ℕ → Bool) : s.SameChunks (s.withBits bits) :=
  ⟨rfl,rfl,fun _ => Option.isSome_map⟩

theorem SameChunks.chunkOf_eq_none (h : s.SameChunks t) (c : Channel) (seqno : ℕ) :
    t.chunkOf c seqno = none ↔ s.chunkOf c seqno = none := by
  rw [chunkOf,chunkOf,h.geometry_eq]
  split
  · rfl
  · rw [← Option.isNone_iff_eq_none,← Option.isNone_iff_eq_none,← Option.not_isSome,← Option.not_isSome,
      h.isSome_eq]

theorem SameChunks.wholeBytes (h : s.SameChunks t) (hfits : s.WholeBytes c lo hi) :
    t.WholeBytes c lo hi := by
  rw [WholeBytes,ne_eq,h.chunkOf_eq_none,h.chunkOf_eq_none,h.geometry_eq]
  exact hfits

theorem chunkOf_withBits (hck : s.chunkOf c lo = some ck) (bits : ℕ → Bool) :
    (s.withBits bits).chunkOf c lo = some { ck with pieceBitset := bits } := by
  have hmap : (s.withBits bits).chunkOf c lo =
      (s.chunkOf c lo).map fun ck => { ck with pieceBitset := bits } := by
    rw [chunkOf,chunkOf,apply_ite (Option.map _)]
    rfl
  rw [hmap,hck,Option.map_some]

theorem bits_of_hasPiece_withBits {bits : ℕ → Bool} {seqno : ℕ}
    (h : (s.withBits bits).hasPiece channelID seqno = some true) :
    bits (seqno % s.geometry.pieceCntPerChunk) = true := by
  obtain ⟨k,ck,hck,hbit⟩ := exists_of_hasPiece h
  obtain ⟨ck₀,-,rfl⟩ := Option.map_eq_some_iff.mp hck
  exact hbit

theorem not_turnsAgree_of_isBit {bits : ℕ → Bool} {i : ℕ}
    (hbit : isBit ((s.withBits bits).mapTurns c 2 lo hi 0 []).2 i = true) (hmem : lo+i≤hi)
    (hclear : bits ((lo+i) % s.geometry.pieceCntPerChunk) = false) :
    ¬ (s.withBits bits).TurnsAgree c channelID lo hi := by
  intro hagree
  have hne : ((s.withBits bits).mapTurns c 2 lo hi 0 []).2 ≠ [] :=
    length_pos_iff.mp (Nat.zero_lt_of_lt (lt_length_of_isBit hbit))
  have hpiece := (hagree hne).1 i (hmem.trans (le_mapTurns _ _ _ _ _ _ _))
  rw [hbit] at hpiece
  rw [bits_of_hasPiece_withBits hpiece] at hclear
  exact absurd hclear (by decide)

section
variable (hck : s.chunkOf c lo = some ck)
include hck

theorem exists_not_turnsAgree_of_offset (hle : lo≤hi)
    (hbyte : lo % s.geometry.pieceCntPerChunk % 8 ≠ 0) :
    ∃ bits, ¬ (s.withBits bits).TurnsAgree c channelID lo hi := by
  refine ⟨fun j => j == 8 * (lo % s.geometry.pieceCntPerChunk / 8),?_⟩
  have hck' := chunkOf_withBits hck fun j => j == 8 * (lo % s.geometry.pieceCntPerChunk / 8)
  apply not_turnsAgree_of_isBit (i := 0)
  · rcases Nat.eq_or_lt_of_le (Nat.div_le_div_right (c := s.geometry.pieceCntPerChunk) hle) with heq | hlt
    · have hmod : lo % s.geometry.pieceCntPerChunk ≤ hi % s.geometry.pieceCntPerChunk := by
        obtain ⟨i,rfl⟩ := Nat.exists_eq_add_of_le hle
        rw [mod_add_eq heq.symm]
        exact Nat.le_add_right _ _
      have hbytes : 0 / 8 < hi % s.geometry.pieceCntPerChunk / 8 + 1 -
        lo % s.geometry.pieceCntPerChunk / 8 := by
        omega
      rw [mapTurns_last hck' heq.symm,nil_append]
      exact (isBit_bitsetBytes _ hbytes).trans (beq_self_eq_true _)
    · have hmod := Nat.mod_lt lo s.geometry.pieceCnt_pos
      have hbytes : 0 / 8 < (s.geometry.pieceCntPerChunk - 1) / 8 + 1 -
        lo % s.geometry.pieceCntPerChunk / 8 := by
        omega
      rw [mapTurns_first hck' hlt]
      apply isBit_mapTurns
      exact (isBit_bitsetBytes _ hbytes).trans (beq_self_eq_true _)
  · exact hle
  · rw [Nat.add_zero,beq_eq_false_iff_ne]
    omega

theorem exists_not_turnsAgree_of_filling
    (hbyte : lo % s.geometry.pieceCntPerChunk % 8 = 0) (hcnt : s.geometry.pieceCntPerChunk % 8 ≠ 0)
    (hq : lo / s.geometry.pieceCntPerChunk < hi / s.geometry.pieceCntPerChunk) :
    ∃ bits, ¬ (s.withBits bits).TurnsAgree c channelID lo hi := by
  refine ⟨fun j => j == s.geometry.pieceCntPerChunk,?_⟩
  have hck' := chunkOf_withBits hck fun j => j == s.geometry.pieceCntPerChunk
  have hmod := Nat.mod_lt lo s.geometry.pieceCnt_pos
  have hnext : lo + (s.geometry.pieceCntPerChunk - lo % s.geometry.pieceCntPerChunk) =
      (lo / s.geometry.pieceCntPerChunk + 1) * s.geometry.pieceCntPerChunk := by
    have hlo := Nat.div_add_mod lo s.geometry.pieceCntPerChunk
    rw [Nat.succ_mul,Nat.mul_comm]
    omega
  have hbytes : (s.geometry.pieceCntPerChunk - lo % s.geometry.pieceCntPerChunk) / 8 <
      (s.geometry.pieceCntPerChunk - 1) / 8 + 1 - lo % s.geometry.pieceCntPerChunk / 8 := by omega
  have hplace : 8 * (lo % s.geometry.pieceCntPerChunk / 8) +
      (s.geometry.pieceCntPerChunk - lo % s.geometry.pieceCntPerChunk) =
      s.geometry.pieceCntPerChunk := by omega
  apply not_turnsAgree_of_isBit (i := s.geometry.pieceCntPerChunk - lo % s.geometry.pieceCntPerChunk)
  · rw [mapTurns_first hck' hq]
    apply isBit_mapTurns
    exact (isBit_bitsetBytes _ hbytes).trans (beq_iff_eq.mpr hplace)
  · rw [hnext]
    exact (Nat.mul_le_mul_right _ hq).trans (Nat.div_mul_le_self hi _)
  · rw [hnext,Nat.mul_mod_left,beq_eq_false_iff_ne]
    exact s.geometry.pieceCnt_pos.ne

theorem not_turnsAgree_of_short (hbyte : lo % s.geometry.pieceCntPerChunk % 8 = 0)
    (hwhole : s.geometry.pieceCntPerChunk % 8 = 0)
    (hq : lo / s.geometry.pieceCntPerChunk < hi / s.geometry.pieceCntPerChunk)
    (hnext : hi / s.geometry.pieceCntPerChunk = lo / s.geometry.pieceCntPerChunk + 1 →
      s.chunkOf c hi = none) :
    ¬ s.TurnsAgree c channelID lo hi := by
  have hcnt := s.geometry.pieceCnt_pos
  have hlen := add_length_first hcnt hwhole hbyte
  have hdiv : (lo / s.geometry.pieceCntPerChunk + 1) *
    s.geometry.pieceCntPerChunk / s.geometry.pieceCntPerChunk =
      lo / s.geometry.pieceCntPerChunk + 1 := Nat.mul_div_cancel _ hcnt
  have hzero : (lo / s.geometry.pieceCntPerChunk + 1) *
    s.geometry.pieceCntPerChunk % s.geometry.pieceCntPerChunk = 0 :=
    Nat.mul_mod_left _ _
  have hle (m : ℕ) (hm : m+1 ≤ hi / s.geometry.pieceCntPerChunk) :
    (m+1) * s.geometry.pieceCntPerChunk ≤ hi :=
    (Nat.mul_le_mul_right _ hm).trans (Nat.div_mul_le_self hi _)
  have hmod := Nat.mod_lt lo hcnt
  rw [TurnsAgree,mapTurns_whole hck hwhole hq,nil_append]
  intro hagree
  cases hck' : s.chunkOf c ((lo / s.geometry.pieceCntPerChunk + 1) * s.geometry.pieceCntPerChunk) with
  | none =>
    have hfirst := hle _ hq
    rw [mapTurns_none hck'] at hagree
    have hshort := (hagree (length_pos_iff.mp (by rw [length_bitsetBytes]; omega))).2
    rw [length_bitsetBytes] at hshort
    omega
  | some ck' =>
    have hthird : lo / s.geometry.pieceCntPerChunk + 1 < hi / s.geometry.pieceCntPerChunk := by
      rcases Nat.eq_or_lt_of_le (Nat.succ_le_of_lt hq) with heq | hlt
      · rw [chunkOf_eq_of_div (hdiv.trans heq) c,hnext heq.symm] at hck'
        exact absurd hck'.symm (Option.some_ne_none _)
      · exact hlt
    have hsecond := hle _ hthird
    have hlen' := add_length_first hcnt hwhole (by rw [hzero])
    rw [hzero,hdiv] at hlen'
    rw [mapTurns_whole hck' hwhole (by rwa [hdiv]),mapTurns,hzero] at hagree
    have hshort := (hagree (length_pos_iff.mp (by rw [length_append,length_bitsetBytes]; omega))).2
    rw [length_append,length_bitsetBytes,length_bitsetBytes] at hshort
    omega

end

theorem exists_not_turnsAgree (hle : lo≤hi) (h : ¬ s.WholeBytes c lo hi) :
    ∃ t, s.SameChunks t ∧ ¬ t.TurnsAgree c channelID lo hi := by
  obtain ⟨hnone,hrest⟩ := not_or.mp h
  obtain ⟨ck,hck⟩ := Option.ne_none_iff_exists'.mp hnone
  have hwith : (∃ bits, ¬ (s.withBits bits).TurnsAgree c channelID lo hi) →
      ∃ t, s.SameChunks t ∧ ¬ t.TurnsAgree c channelID lo hi :=
    fun ⟨bits,hbits⟩ => ⟨_,s.sameChunks_withBits bits,hbits⟩
  by_cases hbyte : lo % s.geometry.pieceCntPerChunk % 8 = 0
  · have hlater : lo / s.geometry.pieceCntPerChunk < hi / s.geometry.pieceCntPerChunk :=
      lt_of_le_of_ne (Nat.div_le_div_right hle) fun heq => hrest ⟨hbyte,.inl heq.symm⟩
    by_cases hwhole : s.geometry.pieceCntPerChunk % 8 = 0
    · refine ⟨s,⟨rfl,rfl,fun _ => rfl⟩,not_turnsAgree_of_short hck hbyte hwhole hlater fun heq => ?_⟩
      by_contra hnext
      exact hrest ⟨hbyte,.inr ⟨hwhole,heq,hnext⟩⟩
    · exact hwith (exists_not_turnsAgree_of_filling hck hbyte hwhole hlater)
  · exact hwith (exists_not_turnsAgree_of_offset hck hle hbyte)

end Needed

section Requests

variable {now : ℕ} {fromSeqno toSeqno : ℤ}

theorem ite_eq_lastPiece : (if c.origPieceCount.read≤toSeqno then c.origPieceCount.read -
    1 else toSeqno) = lastPiece c toSeqno := by
  rw [lastPiece]
  split <;> omega

theorem getPieceMap_of_reachesLoop (h : s.ReachesLoop channelID fromSeqno toSeqno c) :
    s.getPieceMap now channelID fromSeqno toSeqno =
      let r := s.mapTurns c 2 (firstPiece fromSeqno).toNat (lastPiece c toSeqno).toNat 0 []
      some (s, ⟨firstPiece fromSeqno,r.1,r.2⟩) := by
  have hnonneg := h.from_nonneg
  have hfrom_lt := h.from_lt
  have hfirst_lt := h.first_lt
  rw [getPieceMap,if_neg (by omega),h.channel]
  dsimp only
  rw [if_neg (not_not.mpr h.valid),ite_eq_lastPiece,← firstPiece,if_neg]
  rw [firstPiece] at hfirst_lt ⊢
  omega

theorem bytes_eq_nil_of_not_reachesLoop (h : ∀ c, ¬ s.ReachesLoop channelID fromSeqno toSeqno c)
    {m : PieceMap}
    (hmap : s.getPieceMap now channelID fromSeqno toSeqno = some (t, m)) : m.bytes=[] := by
  rw [getPieceMap] at hmap
  by_cases hrequest : fromSeqno<0 ∨ toSeqno<0 ∨ toSeqno≤fromSeqno
  · rw [if_pos hrequest] at hmap
    cases hmap
    rfl
  rw [if_neg hrequest] at hmap
  cases hc : s.channels (.ofString channelID) with
  | none =>
    rw [hc] at hmap
    cases hmap
    rfl
  | some c =>
    rw [hc] at hmap
    dsimp only at hmap
    by_cases hvalid : c.origPieceCount.IsValid
    · rw [if_neg (not_not.mpr hvalid),ite_eq_lastPiece,← firstPiece] at hmap
      have hstop : lastPiece c toSeqno ≤ firstPiece fromSeqno := by
        by_contra hlt
        exact h c ⟨by omega,by omega,hc,hvalid,by omega⟩
      rw [if_pos (.inr hstop)] at hmap
      cases hmap
      rfl
    · rw [if_pos hvalid] at hmap
      obtain ⟨_,-,heq⟩ := Option.map_eq_some_iff.mp hmap
      cases heq
      rfl

theorem mapAgrees_iff (s : OpenedCache) (now : ℕ) (channelID : List Byte) (fromSeqno toSeqno : ℤ) :
    s.MapAgrees now channelID fromSeqno toSeqno ↔ ∀ c, s.ReachesLoop channelID fromSeqno toSeqno c →
      s.TurnsAgree c channelID (firstPiece fromSeqno).toNat (lastPiece c toSeqno).toNat := by
  have hfirst {c : Channel} (hc : s.ReachesLoop channelID fromSeqno toSeqno c) :
      ((firstPiece fromSeqno).toNat : ℤ) = firstPiece fromSeqno := by
    have hnonneg := hc.from_nonneg
    rw [firstPiece]
    omega
  constructor
  · intro h c hc hne
    have hmap := h s _ (getPieceMap_of_reachesLoop hc) hne
    dsimp only at hmap
    constructor
    · intro i hi
      apply hmap.1
      omega
    · omega
  · intro h t m hmap hne
    by_cases hreaches : ∃ c, s.ReachesLoop channelID fromSeqno toSeqno c
    · obtain ⟨c,hc⟩ := hreaches
      rw [getPieceMap_of_reachesLoop hc] at hmap
      cases hmap
      obtain ⟨hbits,hlen⟩ := h c hc hne
      have := hfirst hc
      constructor
      · intro i hi
        dsimp only at hi
        exact hbits i (by omega)
      · dsimp only
        omega
    · exact absurd (bytes_eq_nil_of_not_reachesLoop (not_exists.mp hreaches) hmap) hne

/-- Every cache with the same chunks answers a request for a piece map as `has_piece` would if
and only if the map is made of whole bytes or empty. -/
theorem piece_map_agrees_iff (s : OpenedCache) (now : ℕ) (channelID : List Byte) (fromSeqno toSeqno : ℤ) :
    (∀ t, s.SameChunks t → t.MapAgrees now channelID fromSeqno toSeqno) ↔
      s.MapFits channelID fromSeqno toSeqno := by
  simp only [mapAgrees_iff]
  constructor
  · intro h c hc
    by_contra hfits
    obtain ⟨t,ht,hnot⟩ := exists_not_turnsAgree (Int.toNat_le_toNat hc.first_lt.le) hfits
    exact hnot (h t ht c { hc with channel := by rw [ht.channels_eq,hc.channel] })
  · intro h t ht c hc
    exact turnsAgree_of_wholeBytes hc.channel (Int.toNat_le_toNat hc.first_lt.le)
      (ht.wholeBytes (h c { hc with channel := by rw [← ht.channels_eq,hc.channel] }))

end Requests

def twoFullChunks : CacheFile :=
  Cache.smallFile fun i => Cache.smallLine 1 { Chunk.new i 2 with pieceBitset := fun j => decide (j<2) }

/-- The chunks have two pieces each. The map of the four pieces shows those of the first chunk
only, although the last piece it reports is the fourth. -/
theorem full_chunk_not_shown : ∃ s,
    ((Cache.closed [] none (some twoFullChunks)).doOpen Cache.smallLayout 128 true).1 = .opened s ∧
    ¬ s.MapAgrees 0 [1] 0 3 := by
  refine ⟨_,rfl,fun h => ?_⟩
  have hpiece := (h _ _ rfl (by decide +kernel)).1 2 (by decide +kernel)
  revert hpiece
  decide +kernel

end OpenedCache
end P2Streaming.DiskCache
