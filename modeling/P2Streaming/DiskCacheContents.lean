import P2Streaming.DiskCacheEviction

/-!
# What the disk cache holds

The pieces whose bits are set lie in the file as they were written last, under their channel
and sequence number. The bits in the header lines are among those in memory, so the same is
true of the tables that a load makes. Evictions keep this as long as the number of the cache
chunk lies below the chunk count of the channel that loses it.
-/
namespace P2Streaming.DiskCache
open BigEndianBytes ByteStores OpenedCache Verifiable List

theorem Layout.pieceCnt_pos (l : Layout) : 0<l.pieceCntPerChunk :=
  Nat.div_pos (Nat.le_of_dvd l.chunkLen_pos l.pieceLen_dvd) l.pieceLen_pos

theorem Layout.chunkLen_eq (l : Layout) : l.chunkLen=l.pieceCntPerChunk*l.pieceLen :=
  (Nat.div_mul_cancel l.pieceLen_dvd).symm

namespace Geometry

variable (g : Geometry)

theorem origChunkId_eq (seqno : ℕ) : g.origChunkId seqno = seqno / g.pieceCntPerChunk := by
  rw [origChunkId,g.chunkLen_eq,Nat.mul_div_mul_right _ _ g.pieceLen_pos]

theorem pieceOffset_eq (k seqno : ℕ) :
    g.pieceOffset k seqno = (k * g.pieceCntPerChunk + seqno % g.pieceCntPerChunk) * g.pieceLen := by
  rw [pieceOffset,g.chunkLen_eq]
  ring

theorem pieceOffset_disjoint {k k' seqno seqno' : ℕ}
    (h : k≠k' ∨ seqno % g.pieceCntPerChunk ≠ seqno' % g.pieceCntPerChunk) :
    g.pieceOffset k seqno + g.pieceLen ≤ g.pieceOffset k' seqno' ∨
      g.pieceOffset k' seqno' + g.pieceLen ≤ g.pieceOffset k seqno := by
  have hr := Nat.mod_lt seqno g.pieceCnt_pos
  have hr' := Nat.mod_lt seqno' g.pieceCnt_pos
  have hdiv {r q : ℕ} (hq : q<g.pieceCntPerChunk) :
      (r * g.pieceCntPerChunk + q) / g.pieceCntPerChunk = r := by
    rw [Nat.add_comm,Nat.add_mul_div_right _ _ g.pieceCnt_pos,Nat.div_eq_of_lt hq,Nat.zero_add]
  have hne : k * g.pieceCntPerChunk + seqno % g.pieceCntPerChunk ≠
      k' * g.pieceCntPerChunk + seqno' % g.pieceCntPerChunk := by
    intro heq
    have hk : k=k' := (hdiv (r := k) hr).symm.trans
      ((congrArg (· / g.pieceCntPerChunk) heq).trans (hdiv hr'))
    subst hk
    rcases h with h | h
    · exact h rfl
    · exact h (by omega)
  rw [pieceOffset_eq,pieceOffset_eq,← Nat.succ_mul,← Nat.succ_mul]
  rcases Nat.lt_or_gt_of_ne hne with hlt | hgt
  · exact .inl (Nat.mul_le_mul_right _ hlt)
  · exact .inr (Nat.mul_le_mul_right _ hgt)

theorem pieceOffset_le {k : ℕ} (hk : k<g.chunkCnt) (seqno : ℕ) :
    g.pieceOffset k seqno + g.pieceLen ≤ g.fileLen := by
  have hr := Nat.mod_lt seqno g.pieceCnt_pos
  have hslot : k * g.pieceCntPerChunk + seqno % g.pieceCntPerChunk + 1 ≤
    g.chunkCnt*g.pieceCntPerChunk := by
    have hmul := Nat.mul_le_mul_right g.pieceCntPerChunk hk
    rw [Nat.succ_mul] at hmul
    omega
  rw [pieceOffset_eq,fileLen,g.chunkLen_eq,← Nat.succ_mul,← Nat.mul_assoc]
  exact Nat.mul_le_mul_right _ hslot

def Stored (data : ℕ → Byte) (k seqno : ℕ) (bytes : List Byte) : Prop :=
  parseRecord g seqno (read data (g.pieceOffset k seqno) g.pieceLen) = some bytes

variable {g} {data : ℕ → Byte} {k seqno : ℕ} {w : Write}

theorem length_record : (record w).length = 16+w.buf.length := by
  simp [record]
  omega

section
variable (hlen : w.buf.length+16≤g.pieceLen)
include hlen

theorem parseRecord_record (hseq : w.seqno<2^31)
    (rest : List Byte) : parseRecord g w.seqno (record w ++ rest) = some w.buf := by
  have hlt := g.pieceLen_lt
  have hreadLen : (write w.buf.length : Verifiable 4).read = w.buf.length :=
    read_write (by decide) (by norm_num) (by norm_num; omega)
  have hreadSeq : (write w.seqno : Verifiable 4).read = w.seqno :=
    read_write (by decide) (by norm_num) (by norm_num; omega)
  have hfirst : ofBytes 4 (record w ++ rest) = .write w.buf.length := by
    rw [record,append_assoc,append_assoc,ofBytes_toBytes]
  have hdrop {v : Verifiable 4} {l : List Byte} : (v.toBytes++l).drop 8 = l :=
    drop_left' (by simp)
  have hsecond : ofBytes 4 ((record w ++ rest).drop 8) = .write w.seqno := by
    rw [record,append_assoc,append_assoc,hdrop,ofBytes_toBytes]
  have hthird : (record w ++ rest).drop 16 = w.buf ++ rest := by
    rw [record,append_assoc,append_assoc,show 16 = 8 + 8 from rfl,← drop_drop,
      hdrop,hdrop]
  unfold parseRecord
  dsimp only
  rw [hfirst,hsecond,hthird,hreadLen,hreadSeq,if_neg]
  · rw [Int.toNat_natCast,take_left]
  · simp only [isValid_write,not_true_eq_false,false_or,ne_eq,not_or]
    omega

theorem stored_write_self (hseq : w.seqno<2^31) :
    g.Stored (write data (g.pieceOffset k w.seqno) (record w)) k w.seqno w.buf := by
  unfold Stored
  have hle : (record w).length ≤ g.pieceLen := by rw [length_record]; omega
  rw [← take_append_drop (record w).length (read _ _ _),take_read_write hle]
  exact parseRecord_record hlen hseq _

theorem stored_write_other {k' : ℕ} {bytes : List Byte}
    (hne : k≠k' ∨ seqno % g.pieceCntPerChunk ≠ w.seqno % g.pieceCntPerChunk)
    (h : g.Stored data k seqno bytes) :
    g.Stored (write data (g.pieceOffset k' w.seqno) (record w)) k seqno bytes := by
  unfold Stored
  rw [read_write_of_disjoint]
  · exact h
  · have hd := g.pieceOffset_disjoint hne
    rw [length_record]
    omega

end

end Geometry

namespace Channel

variable {p : ℕ}

theorem counted_new {total : ℕ} (hp : 0<p) (hp' : p≤5*1024) (hpos : 0<total)
    (hle : (total + p - 1) / p ≤ 0xfffe) :
    (new total p).Counted p ∧ (new total p).origChunkCount = ((total + p - 1) / p : ℕ) := by
  have hdiv := Nat.lt_div_mul_add hp (a := total + p - 1)
  have hmul := Nat.mul_le_mul_right p hle
  have hread : (write total : Verifiable 4).read = total :=
    read_write (by decide) (by norm_num) (by norm_num; omega)
  have hcast : ((total : ℤ) + p - 1).tdiv p = ((total + p - 1) / p : ℕ) := by
    rw [show (total : ℤ) + p - 1 = (total + p - 1 : ℕ) by omega]
    exact Int.ofNat_tdiv _ _
  have hone : 0 < (total + p - 1) / p := Nat.div_pos (by omega) hp
  have hcount : (new total p).origChunkCount = ((total + p - 1) / p : ℕ) := by
    have hmod : (total + p - 1) / p % 2^32 = (total + p - 1) / p := Nat.mod_eq_of_lt (by omega)
    simp only [new,BitVec.toInt_eq_toNat_cond,BitVec.toNat_ofNat,hmod]
    rw [if_pos (by omega)]
  have hquot : ((new total p).origPieceCount.read + p - 1).tdiv p = ((total + p - 1) / p : ℕ) := by
    change ((write total : Verifiable 4).read + p - 1).tdiv p = _
    rw [hread,hcast]
  have hok : ¬ (¬ (new total p).origPieceCount.IsValid ∨
      ((new total p).origPieceCount.read + p - 1).tdiv p ≤ 0 ∨
      0xfffe < ((new total p).origPieceCount.read + p - 1).tdiv p) := by
    have hvalid : (new total p).origPieceCount.IsValid := isValid_write _
    rw [hquot,not_or,not_not,not_or]
    exact ⟨hvalid,by omega,by omega⟩
  refine ⟨?_,hcount⟩
  rw [Counted,hcount]
  unfold ofDisk
  rw [if_neg hok]
  exact congrArg some hquot

theorem fresh_new (total : ℕ) : (new total p).Fresh := ⟨rfl,fun _ => rfl⟩

theorem Counted.lt {c : Channel} (h : c.Counted p) (hp : 0<p) {seqno : ℕ}
    (hlt : (seqno : ℤ) < c.origPieceCount.read) : ((seqno / p : ℕ) : ℤ) < c.origChunkCount := by
  obtain ⟨c₀,hd,hcount⟩ := Option.map_eq_some_iff.mp h
  have hc₀ : c₀.origChunkCount = (c.origPieceCount.read + p - 1).tdiv p := by
    unfold ofDisk at hd
    dsimp only at hd
    split_ifs at hd
    rw [← Option.some.inj hd]
  rw [← hcount,hc₀,Int.tdiv_eq_ediv_of_nonneg (by omega)]
  refine Int.lt_of_add_one_le (Int.le_ediv_of_mul_le (by omega) ?_)
  have hmul : ((seqno / p : ℕ) : ℤ) * p ≤ seqno := by exact_mod_cast Nat.div_mul_le_self seqno p
  rw [Int.add_mul]
  omega

theorem Counted.isValid {c : Channel} (h : c.Counted p) : c.origPieceCount.IsValid := by
  obtain ⟨c₀,hd,-⟩ := Option.map_eq_some_iff.mp h
  exact (Tables.ofDisk_spec hd).2.2

end Channel

/-- A piece that is still there, or the last one written: the bytes by name of the channel and
sequence number. -/
abbrev Pieces := List Byte → ℕ → Option (List Byte)

def Pieces.remember (pieces : Pieces) (w : Write) : Pieces :=
  fun name seqno => if name=w.channelID ∧ seqno=w.seqno then some w.buf else pieces name seqno

def Pieces.forget (pieces : Pieces) (g : Geometry) (id : ChannelUuid) (origChunkID : ℕ) : Pieces :=
  fun name seqno => if ChannelUuid.ofString name = id ∧ g.origChunkId seqno = origChunkID then none
    else pieces name seqno

namespace OpenedCache

variable {s : OpenedCache} {pieces : Pieces} {k : ℕ} {w : Write} {c : Choices}

/-- The tables reflect the header lines, and every bit that is set stands for a piece that is
still there. -/
structure Holds (s : OpenedCache) (pieces : Pieces) : Prop where
  reflected : s.Reflected
  accepted : Cache.Accepts s.geometry.toLayout s.file.param
  fileLen : s.file.param.fileLen.read=s.geometry.fileLen
  piece : ∀ k ck, s.chunks k = some ck → ∃ name, name.length≤20 ∧
    (s.file.lines k).id = .ofString name ∧ ∀ piece<s.geometry.pieceCntPerChunk, ck.pieceBitset piece →
      ∃ bytes, pieces name (ck.orig * s.geometry.pieceCntPerChunk + piece) = some bytes ∧
        s.geometry.Stored s.file.data k (ck.orig * s.geometry.pieceCntPerChunk + piece) bytes
  mirrored : ∀ k ck, s.chunks k = some ck → ∀ piece, (s.file.lines k).chunk.pieceBitset piece →
    ck.pieceBitset piece

def ownerOf (s : OpenedCache) (k : ℕ) : Option (ChannelUuid × ℕ) :=
  (s.chunks k).map fun ck => ((s.file.lines k).id, ck.orig)

/-- The pieces that a turn of `write_piece` leaves when it evicts a chunk. -/
def piecesKept (s : OpenedCache) (w : Write) (c : Choices) (pieces : Pieces) : Pieces :=
  match s.placement w c with
  | .evicts k => (s.ownerOf k).elim pieces fun o => pieces.forget s.geometry o.1 o.2
  | _ => pieces

/-- The pieces behind a turn of `write_piece`. -/
def piecesAfter (s : OpenedCache) (w : Write) (c : Choices) (outcome : Outcome) (pieces : Pieces) :
    Pieces :=
  if outcome = .written then (s.piecesKept w c pieces).remember w else s.piecesKept w c pieces

theorem of_piecesKept {name bytes : List Byte} {seqno : ℕ}
    (h : s.piecesKept w c pieces name seqno = some bytes) : pieces name seqno = some bytes := by
  unfold piecesKept at h
  cases hp : s.placement w c <;> simp only [hp] at h <;> try exact h
  cases ho : s.ownerOf _ with
  | none => rwa [ho] at h
  | some o =>
    rw [ho,Option.elim_some,Pieces.forget] at h
    split_ifs at h
    exact h

/-- The number of an evicted cache chunk lies below the chunk count of its channel. -/
def EvictsFairly (s : OpenedCache) (w : Write) (c : Choices) : Prop :=
  match s.placement w c with
  | .evicts k => ∀ ch ∈ s.channels (s.file.lines k).id, k<ch.origChunkCount
  | _ => True

instance (s : OpenedCache) (w : Write) (c : Choices) : Decidable (s.EvictsFairly w c) :=
  show Decidable (match s.placement w c with | .evicts _ => _ | _ => True) from
    match s.placement w c with
    | .evicts k => inferInstanceAs (Decidable (∀ ch ∈ s.channels (s.file.lines k).id,
      k<ch.origChunkCount))
    | .held _ | .hole _ _ | .refused _ | .erasesChannel | .undefined => instDecidableTrue

/-- The condition on a turn of `write_piece`: the name fits, the piece is one of the channel,
the channel has no more chunks than a load accepts, the payload fits into its place, and an
eviction is fair. -/
structure FairWrite (s : OpenedCache) (w : Write) (c : Choices) : Prop where
  name : w.channelID.length≤20
  seqno : w.seqno<w.totalPieceCnt
  chunks : (w.totalPieceCnt + s.geometry.pieceCntPerChunk - 1) / s.geometry.pieceCntPerChunk ≤ 0xfffe
  payload : w.buf.length+16 ≤ s.geometry.pieceLen
  evicts : s.EvictsFairly w c

instance (s : OpenedCache) (w : Write) (c : Choices) : Decidable (s.FairWrite w c) :=
  decidable_of_iff (w.channelID.length≤20 ∧ w.seqno<w.totalPieceCnt ∧
    (w.totalPieceCnt + s.geometry.pieceCntPerChunk - 1) / s.geometry.pieceCntPerChunk ≤ 0xfffe ∧
    w.buf.length + 16 ≤ s.geometry.pieceLen ∧ s.EvictsFairly w c)
    ⟨fun ⟨a,b,c,d,e⟩ => ⟨a,b,c,d,e⟩,fun ⟨a,b,c,d,e⟩ => ⟨a,b,c,d,e⟩⟩

/-- The search among all channels, when it is needed, visits all of them. -/
def VisitsAll (s : OpenedCache) (c : Choices) : Prop := c.canWriteNewChunk = false → s.Complete c

theorem Holds.piece_of_name (h : s.Holds pieces) {channelID : List Byte} (hw : channelID.length≤20)
    {ck : Chunk} (hk : s.chunks k = some ck) (hid : (s.file.lines k).id = .ofString channelID) :
    ∀ piece<s.geometry.pieceCntPerChunk, ck.pieceBitset piece →
      ∃ bytes, pieces channelID (ck.orig * s.geometry.pieceCntPerChunk + piece) = some bytes ∧
        s.geometry.Stored s.file.data k (ck.orig * s.geometry.pieceCntPerChunk + piece) bytes := by
  obtain ⟨name,hlen,hname,hpieces⟩ := h.piece k ck hk
  rw [← ChannelUuid.ofString_injOn hlen hw (hname.symm.trans hid)]
  exact hpieces

theorem FairWrite.seqno_lt (h : s.FairWrite w c) : w.seqno<2^31 := by
  have hp := s.geometry.pieceCnt_pos
  have hp' : s.geometry.pieceCntPerChunk≤5*1024 := s.geometry.pieces_le
  have hdiv := Nat.lt_div_mul_add hp (a := w.totalPieceCnt + s.geometry.pieceCntPerChunk - 1)
  have hmul := Nat.mul_le_mul_right s.geometry.pieceCntPerChunk h.chunks
  have hseq := h.seqno
  omega

structure Enters (s : OpenedCache) (w : Write) : Prop where
  channel : s.channels (.ofString w.channelID) = some (s.channelOf w) ∨
    (s.channels (.ofString w.channelID) = none ∧ (s.channelOf w).Fresh)
  counted : (s.channelOf w).Counted s.geometry.pieceCntPerChunk
  lt : (s.geometry.origChunkId w.seqno : ℤ) < (s.channelOf w).origChunkCount
  new : s.geometry.origChunkId w.seqno ∉ (s.channelOf w).cachedChunks
  small : s.geometry.origChunkId w.seqno < 2^15 * 2

/-- The cache chunk that a write finds is the one of its original chunk. -/
structure Finds (s : OpenedCache) (w : Write) (k : ℕ) (ch : Channel) (ck : Chunk) : Prop where
  chunk : s.chunks k = some ck
  channel : s.channels (.ofString w.channelID) = some ch
  id : (s.file.lines k).id = .ofString w.channelID
  orig : ck.orig = s.geometry.origChunkId w.seqno
  keep : ch.keep k (s.geometry.origChunkId w.seqno) = ch

theorem placement_spec (h : s.Reflected) (hw : s.FairWrite w c) (hall : s.VisitsAll c) :
    (∃ k ch ck, s.placement w c = .held k ∧ s.Finds w k ch ck) ∨
    (∃ k size, s.placement w c = .hole k size ∧ k∈s.holeChunks ∧ s.Enters w) ∨
    (∃ size, s.placement w c = .refused size) ∨
    ∃ k ck, s.placement w c = .evicts k ∧ s.chunks k = some ck := by
  have hp := s.geometry.pieceCnt_pos
  have horig := s.geometry.origChunkId_eq w.seqno
  have hdivlt : w.seqno / s.geometry.pieceCntPerChunk < 0xfffe := by
    have hle : w.seqno / s.geometry.pieceCntPerChunk + 1 ≤
        (w.totalPieceCnt + s.geometry.pieceCntPerChunk - 1) / s.geometry.pieceCntPerChunk := by
      rw [Nat.le_div_iff_mul_le hp,Nat.succ_mul]
      have := Nat.div_mul_le_self w.seqno s.geometry.pieceCntPerChunk
      have := hw.seqno
      omega
    have := hw.chunks
    omega
  have alloc (henters : s.Enters w) (hplace : s.placement w c = s.allocation w c) :
      (∃ k ch ck, s.placement w c = .held k ∧ s.Finds w k ch ck) ∨
      (∃ k size, s.placement w c = .hole k size ∧ k∈s.holeChunks ∧ s.Enters w) ∨
      (∃ size, s.placement w c = .refused size) ∨
      ∃ k ck, s.placement w c = .evicts k ∧ s.chunks k = some ck := by
    rw [hplace]
    rcases h.allocation_spec w hall with hev | ⟨k,size,hhole,hk⟩ | href
    · exact .inr (.inr (.inr hev))
    · exact .inr (.inl ⟨k,size,hhole,hk,henters⟩)
    · exact .inr (.inr (.inl href))
  cases hc : s.channels (.ofString w.channelID) with
  | none =>
    have hnew : s.channelOf w = .new w.totalPieceCnt s.geometry.pieceCntPerChunk := by
      rw [channelOf,hc,Option.getD_none]
    obtain ⟨hcounted,hcount⟩ := Channel.counted_new hp s.geometry.pieces_le
      (by have := hw.seqno; omega) hw.chunks
    refine alloc ⟨.inr ⟨hc,hnew ▸ Channel.fresh_new _⟩,hnew ▸ hcounted,?_,?_,by omega⟩ ?_
    · rw [hnew,hcount,horig]
      have hle : w.seqno / s.geometry.pieceCntPerChunk + 1 ≤
          (w.totalPieceCnt + s.geometry.pieceCntPerChunk - 1) / s.geometry.pieceCntPerChunk := by
        rw [Nat.le_div_iff_mul_le hp,Nat.succ_mul]
        have := Nat.div_mul_le_self w.seqno s.geometry.pieceCntPerChunk
        have := hw.seqno
        omega
      exact_mod_cast hle
    · rw [hnew]
      exact Finset.notMem_empty _
    · unfold placement
      rw [hc]
  | some ch =>
    have he := h.channel _ ch hc
    have hof : s.channelOf w = ch := by rw [channelOf,hc,Option.getD_some]
    have hvalid : ¬ ¬ ch.origPieceCount.IsValid := not_not.mpr he.counted.isValid
    by_cases hseq : ch.origPieceCount.read≤w.seqno
    · refine .inr (.inr (.inl ⟨s.file.size,?_⟩))
      unfold placement
      rw [hc]
      exact (if_neg hvalid).trans (if_pos hseq)
    have hlt : ((s.geometry.origChunkId w.seqno : ℕ) : ℤ) < ch.origChunkCount := by
      rw [horig]
      exact he.counted.lt hp (not_le.mp hseq)
    have hcache : ch.cacheChunkId (s.geometry.origChunkId w.seqno) =
        ch.orgiToCacheChunk (s.geometry.origChunkId w.seqno) := if_neg (not_le.mpr hlt)
    by_cases hmem : s.geometry.origChunkId w.seqno ∈ ch.cachedChunks
    · obtain ⟨ck,hck,hid,ho⟩ := he.cached _ hmem
      obtain ⟨hkn,hce⟩ := h.chunk _ ck hck
      obtain ⟨ch',hch',-,-,hto,hback⟩ := hce.channel
      obtain rfl : ch=ch' := Option.some.inj (hc.symm.trans (hid ▸ hch'))
      have hmax := s.geometry.chunkCnt_le
      have hne : ch.orgiToCacheChunk (s.geometry.origChunkId w.seqno) ≠ invalidChunkId := by
        have : Layout.maxChunkCnt < invalidChunkId := by decide
        omega
      refine .inl ⟨_,ch,ck,?_,hck,hc,hid,ho,?_⟩
      · unfold placement
        rw [hc]
        refine (if_neg hvalid).trans ((if_neg hseq).trans ?_)
        dsimp only
        rw [hcache,hck]
        exact if_neg (by simp [hne])
      · rw [ho] at hback
        have h1 : Function.update ch.cacheToOrigChunk
          (ch.orgiToCacheChunk (s.geometry.origChunkId w.seqno))
            (s.geometry.origChunkId w.seqno % 2^16) = ch.cacheToOrigChunk := by
          rw [Nat.mod_eq_of_lt (by omega),Function.update_eq_self_iff]
          exact hback.symm
        have h2 : Function.update ch.orgiToCacheChunk (s.geometry.origChunkId w.seqno)
            (ch.orgiToCacheChunk (s.geometry.origChunkId w.seqno)) = ch.orgiToCacheChunk :=
          Function.update_eq_self _ _
        rw [Channel.keep,h1,h2]
    · refine alloc ⟨.inl (hof ▸ hc),hof ▸ he.counted,hof ▸ hlt,hof ▸ hmem,by omega⟩ ?_
      unfold placement
      rw [hc]
      refine (if_neg hvalid).trans ((if_neg hseq).trans ?_)
      rw [hcache,he.free _ hlt hmem]
      exact if_pos (.inl rfl)

end OpenedCache

end P2Streaming.DiskCache
