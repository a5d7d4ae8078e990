import P2Streaming.DiskCacheContents

/-!
# Turns of `write_piece`

A turn that writes puts the piece into a cache chunk of its original chunk, found or taken
from the holes; a turn that evicts releases a chunk with its pieces. Both keep what the cache
holds in step with what was written.
-/
namespace P2Streaming.DiskCache
open BigEndianBytes ByteStores Function

namespace OpenedCache

variable {s : OpenedCache} {pieces : Pieces} {k : ℕ} {w : Write} {c : Choices}

theorem mul_add_div_mod {o piece p : ℕ} (h : piece<p) :
    (o * p + piece) / p = o ∧ (o * p + piece) % p = piece := by
  have hp : 0<p := by omega
  constructor
  · rw [Nat.add_comm,Nat.add_mul_div_right _ _ hp,Nat.div_eq_of_lt h,Nat.zero_add]
  · rw [Nat.add_comm,Nat.add_mul_mod_self_right,Nat.mod_eq_of_lt h]

/-- A piece has been written into cache chunk `k`. -/
structure Wrote (s : OpenedCache) (w : Write) (k : ℕ) (ck' : Chunk) (s' : OpenedCache) : Prop where
  geometry : s'.geometry=s.geometry
  param : s'.file.param=s.file.param
  reflected : s'.Reflected
  chunks : s'.chunks = update s.chunks k (some ck')
  data : s'.file.data = write s.file.data (s.geometry.pieceOffset k w.seqno) (record w)
  lines : ∀ j≠k, s'.file.lines j = s.file.lines j
  id : (s'.file.lines k).id = .ofString w.channelID
  orig : ck'.orig = s.geometry.origChunkId w.seqno
  bits : ∀ piece, ck'.pieceBitset piece → piece = w.seqno % s.geometry.pieceCntPerChunk ∨
    ∃ ck, s.chunks k = some ck ∧ ck.orig=ck'.orig ∧ (s.file.lines k).id = .ofString w.channelID ∧
      ck.pieceBitset piece
  mirrored : ∀ piece, (s'.file.lines k).chunk.pieceBitset piece → ck'.pieceBitset piece

theorem Holds.wrote {s' : OpenedCache} {ck' : Chunk} (h : s.Holds pieces) (hw : s.FairWrite w c)
    (hs : s.Wrote w k ck' s') : s'.Holds (pieces.remember w) := by
  have hseq : ck'.orig * s.geometry.pieceCntPerChunk + w.seqno % s.geometry.pieceCntPerChunk =
    w.seqno := by
    rw [hs.orig,Geometry.origChunkId_eq,Nat.mul_comm]
    exact Nat.div_add_mod _ _
  have hchunk : s'.chunks k = some ck' := by rw [hs.chunks,update_self]
  refine ⟨hs.reflected,by rw [hs.geometry,hs.param]; exact h.accepted,
    by rw [hs.geometry,hs.param]; exact h.fileLen,fun j ckj hj => ?_,fun j ckj hj => ?_⟩
  · rw [hs.geometry,hs.data]
    by_cases hjk : j=k
    · subst hjk
      obtain rfl : ck'=ckj := Option.some.inj (hchunk.symm.trans hj)
      refine ⟨w.channelID,hw.name,hs.id,fun piece hpiece hbit => ?_⟩
      by_cases heq : piece = w.seqno % s.geometry.pieceCntPerChunk
      · rw [heq,hseq]
        exact ⟨w.buf,if_pos ⟨rfl,rfl⟩,Geometry.stored_write_self hw.payload hw.seqno_lt⟩
      · obtain ⟨ck,hck,ho,hid,hold⟩ := (hs.bits piece hbit).resolve_left heq
        obtain ⟨bytes,hbytes,hstored⟩ := h.piece_of_name hw.name hck hid piece hpiece hold
        rw [ho] at hbytes hstored
        refine ⟨bytes,(if_neg ?_).trans hbytes,Geometry.stored_write_other hw.payload (.inr ?_) hstored⟩
        · rintro ⟨-,hsame⟩
          omega
        · rw [(mul_add_div_mod hpiece).2]
          exact heq
    · have hj' : s.chunks j = some ckj := by
        rw [hs.chunks,update_of_ne hjk] at hj
        exact hj
      obtain ⟨name,hlen,hname,hpieces⟩ := h.piece j ckj hj'
      rw [hs.lines j hjk]
      refine ⟨name,hlen,hname,fun piece hpiece hbit => ?_⟩
      obtain ⟨bytes,hbytes,hstored⟩ := hpieces piece hpiece hbit
      refine ⟨bytes,(if_neg ?_).trans hbytes,Geometry.stored_write_other hw.payload (.inl hjk) hstored⟩
      rintro ⟨rfl,hsame⟩
      -- two cache chunks would hold the same original chunk
      refine hjk (hs.reflected.chunk_unique hj hchunk ?_ ?_)
      · rw [hs.lines j hjk,hname,hs.id]
      · rw [hs.orig,Geometry.origChunkId_eq,← hsame,(mul_add_div_mod hpiece).1]
  · by_cases hjk : j=k
    · subst hjk
      obtain rfl : ck'=ckj := Option.some.inj (hchunk.symm.trans hj)
      exact hs.mirrored
    · rw [hs.lines j hjk]
      rw [hs.chunks,update_of_ne hjk] at hj
      exact h.mirrored j ckj hj

def marked (ck : Chunk) (piece : ℕ) : Chunk := if ck.pieceBitset piece then ck else markPiece ck piece

variable {ck : Chunk}

theorem marked_bits {piece j : ℕ} (h : (marked ck piece).pieceBitset j) : j=piece ∨ ck.pieceBitset j := by
  unfold marked at h
  split_ifs at h
  · exact .inr h
  · by_cases hj : j=piece
    · exact .inl hj
    · refine .inr ?_
      simpa [markPiece,hj] using h

theorem bits_marked {piece j : ℕ} (h : ck.pieceBitset j) : (marked ck piece).pieceBitset j := by
  unfold marked
  split_ifs
  · exact h
  · by_cases hj : j=piece
    · simp [markPiece,hj]
    · simpa [markPiece,hj] using h

theorem marked_origChunkId (ck : Chunk) (piece : ℕ) : (marked ck piece).origChunkId = ck.origChunkId := by
  unfold marked
  split_ifs <;> rfl

theorem marked_good (h : ck.IsGood) (piece : ℕ) : (marked ck piece).IsGood := by
  unfold marked
  split_ifs
  · exact h
  · exact ⟨h.1,Verifiable.isValid_write _,h.2.2⟩

def heldFile (s : OpenedCache) (w : Write) (k : ℕ) (ck : Chunk) : CacheFile :=
  let piece := w.seqno % s.geometry.pieceCntPerChunk
  let s' := { s with
    chunks := update s.chunks k (some (marked ck piece))
    file := s.file.writeData (s.geometry.pieceOffset k w.seqno) (record w) }
  if ck.pieceBitset piece then s'.file else s'.mirrorBitset w k (marked ck piece)

variable {ch : Channel}

theorem writeInto_of_finds (hf : s.Finds w k ch ck)
    (hvalid : ck.cachedPieceCount.IsValid) (now : ℕ) :
    s.writeInto w now k false = some ({ s with
      chunks := update s.chunks k (some (marked ck (w.seqno % s.geometry.pieceCntPerChunk)))
      file := s.heldFile w k ck }, true) := by
  have hchannels : update s.channels (.ofString w.channelID)
      (some (ch.keep k (s.geometry.origChunkId w.seqno))) = s.channels := by
    rw [hf.keep,← hf.channel,update_eq_self]
  unfold writeInto heldFile marked
  dsimp only
  rw [hf.channel,hf.chunk]
  dsimp only
  rw [hchannels]
  by_cases hbit : ck.pieceBitset (w.seqno % s.geometry.pieceCntPerChunk)
  · simp [hbit]
  · simp [hbit,hvalid]

theorem heldFile_spec (hgood : ck.IsGood) (hlgood : (s.file.lines k).chunk.IsGood) :
    (s.heldFile w k ck).param = s.file.param ∧
    (s.heldFile w k ck).data = write s.file.data (s.geometry.pieceOffset k w.seqno) (record w) ∧
    (∀ j≠k, (s.heldFile w k ck).lines j = s.file.lines j) ∧
    ((s.heldFile w k ck).lines k).id = (s.file.lines k).id ∧
    ((s.heldFile w k ck).lines k).origPieceCount = (s.file.lines k).origPieceCount ∧
    ((s.heldFile w k ck).lines k).chunk.origChunkId = (s.file.lines k).chunk.origChunkId ∧
    ((s.heldFile w k ck).lines k).chunk.IsGood ∧
    ∀ piece, ((s.heldFile w k ck).lines k).chunk.pieceBitset piece →
      (s.file.lines k).chunk.pieceBitset piece ∨
        (marked ck (w.seqno % s.geometry.pieceCntPerChunk)).pieceBitset piece := by
  unfold heldFile mirrorBitset
  dsimp only
  split_ifs
  · exact ⟨rfl,rfl,fun _ _ => rfl,rfl,rfl,rfl,hlgood,fun _ hb => .inl hb⟩
  · refine ⟨rfl,rfl,fun j hj => update_of_ne hj _ _,?_⟩
    simp only [CacheFile.writeLine,update_self]
    refine ⟨rfl,rfl,rfl,⟨hlgood.1,(marked_good hgood _).2.1,hlgood.2.2⟩,fun piece hb => ?_⟩
    split_ifs at hb
    · exact .inr hb
    · exact .inl hb
  · exact ⟨rfl,rfl,fun _ _ => rfl,rfl,rfl,rfl,hlgood,fun _ hb => .inl hb⟩

theorem wrote_held (h : s.Holds pieces) (hf : s.Finds w k ch ck) :
    s.Wrote w k (marked ck (w.seqno % s.geometry.pieceCntPerChunk)) { s with
      chunks := update s.chunks k (some (marked ck (w.seqno % s.geometry.pieceCntPerChunk)))
      file := s.heldFile w k ck } := by
  obtain ⟨-,hentry⟩ := h.reflected.chunk k ck hf.chunk
  obtain ⟨hparam,hdata,hlines,hid,hcount,horig,hlgood,hbits⟩ :=
    heldFile_spec (w := w) hentry.good hentry.lineGood
  have hsame : (marked ck (w.seqno % s.geometry.pieceCntPerChunk)).orig = ck.orig := by
    rw [Chunk.orig,marked_origChunkId,Chunk.orig]
  refine ⟨rfl,hparam,?_,rfl,hdata,hlines,hid.trans hf.id,hsame.trans hf.orig,fun piece hb => ?_,
    fun piece hb => ?_⟩
  · exact h.reflected.replace hf.chunk (marked_good hentry.good _)
      (marked_origChunkId _ _) hid hcount horig
      hlgood hlines
  · rcases marked_bits hb with heq | hold
    · exact .inl heq
    · exact .inr ⟨ck,hf.chunk,hsame.symm,hf.id,hold⟩
  · rcases hbits piece hb with hline | hmem
    · exact bits_marked (h.mirrored k ck hf.chunk piece hline)
    · exact hmem

theorem writeInto_fresh {s₁ : OpenedCache} {size : ℕ} (he : s.Enters w)
    (hs : s.takeHole w k size = some s₁) (now : ℕ) :
    s₁.writeInto w now k true = some ({ s with
      channels := update s.channels (.ofString w.channelID)
        (some ((s.channelOf w).enter k (s.geometry.origChunkId w.seqno)))
      chunks := update s.chunks k
        (some (markPiece (.new (s.geometry.origChunkId w.seqno) 0)
          (w.seqno % s.geometry.pieceCntPerChunk)))
      holeChunks := s.holeChunks.erase k
      usedChunksCnt := s.usedChunksCnt+1
      file := ({ s.file with size := size }.writeData (s.geometry.pieceOffset k w.seqno)
        (record w)).writeLine k
        ⟨.ofString w.channelID,(s.channelOf w).origPieceCount,
          markPiece (.new (s.geometry.origChunkId w.seqno) 0)
            (w.seqno % s.geometry.pieceCntPerChunk)⟩ }, true) := by
  unfold takeHole at hs
  rw [if_neg (not_le.mpr he.lt)] at hs
  obtain rfl := Option.some.inj hs
  unfold writeInto
  simp [Chunk.new,Channel.enter,Channel.keep]

theorem orig_new {o : ℕ} (ho : o<2^16) (piece : ℕ) : (markPiece (.new o 0) piece).orig = o := by
  have hlt : o<65536 := ho
  simp [Chunk.orig,markPiece,Chunk.new,Verifiable.write,Nat.mod_eq_of_lt hlt]

theorem Reflected.entered {f : CacheFile} (h : s.Reflected) (hk : k∈s.holeChunks)
    (he : s.Enters w) (horig : ck.orig = s.geometry.origChunkId w.seqno) (hgood : ck.IsGood)
    (hlines : f.lines = update s.file.lines k
      ⟨.ofString w.channelID,(s.channelOf w).origPieceCount,ck⟩) :
    ({ s with
      channels := update s.channels (.ofString w.channelID)
        (some ((s.channelOf w).enter k (s.geometry.origChunkId w.seqno)))
      chunks := update s.chunks k (some ck)
      holeChunks := s.holeChunks.erase k
      usedChunksCnt := s.usedChunksCnt+1
      file := f } : OpenedCache).Reflected := by
  obtain ⟨hkn,hfree⟩ := h.holes k hk
  have hline : f.lines k = ⟨.ofString w.channelID,(s.channelOf w).origPieceCount,ck⟩ := by
    rw [hlines,update_self]
  have huuid : (f.lines k).uuid = (f.lines k).id := by
    rw [HeaderLine.uuid,hline]
    exact ChannelUuid.ofDisk_ofString _
  refine h.enter horig (fun j => ?_) hfree he.channel he.counted he.lt he.new hgood ?_ huuid ?_ ?_ ?_
    (fun j hj => ?_) (fun j hj => Finset.mem_erase.mp hj)
  · change j < s.geometry.chunkCnt ↔ _
    omega
  · rw [hline]
  · rw [hline]
  · rw [hline]
  · rw [hline]
    exact hgood
  · rw [hlines,update_of_ne hj]

theorem wrote_hole {s' s₁ : OpenedCache} {size now : ℕ} (h : s.Holds pieces) (hk : k∈s.holeChunks)
    (he : s.Enters w) (hs : s.takeHole w k size = some s₁)
    (hs' : s₁.writeInto w now k true = some (s', true)) :
    s.Wrote w k (markPiece (.new (s.geometry.origChunkId w.seqno) 0)
      (w.seqno % s.geometry.pieceCntPerChunk)) s' := by
  rw [writeInto_fresh he hs] at hs'
  obtain rfl := congrArg Prod.fst (Option.some.inj hs')
  have horig := orig_new he.small (w.seqno % s.geometry.pieceCntPerChunk)
  have hgood : (markPiece (.new (s.geometry.origChunkId w.seqno) 0)
      (w.seqno % s.geometry.pieceCntPerChunk)).IsGood :=
    ⟨Verifiable.isValid_write _,Verifiable.isValid_write _,Verifiable.isValid_write _⟩
  refine ⟨rfl,rfl,h.reflected.entered hk he horig hgood rfl,rfl,rfl,
    fun j hj => update_of_ne hj _ _,?_,horig,fun piece hb => ?_,fun piece hb => ?_⟩
  · simp [CacheFile.writeLine]
  · by_cases heq : piece = w.seqno % s.geometry.pieceCntPerChunk
    · exact .inl heq
    · simp [markPiece,Chunk.new,heq] at hb
  · simpa [CacheFile.writeLine] using hb

theorem eraseChunk_eq (h : s.Reflected) (hk : s.chunks k = some ck)
    (hc : s.channels (s.file.lines k).id = some ch) (hlt : k<ch.origChunkCount) (now : ℕ) :
    ∃ erasedChunks, s.eraseChunk now k = some { s with
      channels := update s.channels (s.file.lines k).id
        (if (ch.drop k).cachedChunks = ∅ then none else some (ch.drop k))
      chunks := update s.chunks k none
      holeChunks := insert k s.holeChunks
      usedChunksCnt := s.usedChunksCnt - 1
      erasedChunks := erasedChunks
      file := s.file.resetChunk k } := by
  obtain ⟨hkn,hentry⟩ := h.chunk k ck hk
  obtain ⟨ch',hc',-,hmem,-,hback⟩ := hentry.channel
  obtain rfl : ch=ch' := Option.some.inj (hc.symm.trans hc')
  have horig := (h.channel _ ch hc).lt _ hmem
  have hused : s.usedChunksCnt≠0 := by
    obtain ⟨keys,hkeys,hcard⟩ := h.used
    have := Finset.card_pos.mpr ⟨k,(hkeys k).mpr (by simp [hk])⟩
    omega
  refine ⟨(TimedKeepers.tryKeep TimedKeepers.timedKeeperMap now 5000
    ((s.file.lines k).id, ch.cacheToOrigChunk k)
    s.erasedChunks).1,?_⟩
  unfold eraseChunk forgetChunk
  dsimp only
  rw [hc,if_neg (by omega),if_neg (by omega)]
  dsimp only
  rw [if_pos ⟨hlt,by rw [hback]; exact horig⟩]
  rfl

theorem Holds.erased {now : ℕ} {s' : OpenedCache} (h : s.Holds pieces)
    (hk : s.chunks k = some ck) (hc : s.channels (s.file.lines k).id = some ch)
    (hlt : k<ch.origChunkCount) (hs : s.eraseChunk now k = some s') :
    s'.geometry=s.geometry ∧ s'.Holds (pieces.forget s.geometry (s.file.lines k).id ck.orig) := by
  obtain ⟨erasedChunks,heq⟩ := eraseChunk_eq h.reflected hk hc hlt now
  obtain rfl := Option.some.inj (hs.symm.trans heq)
  have hzero : (s.file.resetChunk k).lines k = .zero := update_self ..
  have hother : ∀ j≠k, (s.file.resetChunk k).lines j = s.file.lines j :=
    fun j hj => update_of_ne hj _ _
  have hold : ∀ j ckj, update s.chunks k none j = some ckj → j≠k ∧ s.chunks j = some ckj := by
    intro j ckj hj
    have hjk : j≠k := fun heq => by simp [heq] at hj
    exact ⟨hjk,(update_of_ne hjk _ _).symm.trans hj⟩
  refine ⟨rfl,?_,h.accepted,h.fileLen,fun j ckj hj => ?_,fun j ckj hj => ?_⟩
  · exact h.reflected.release hk hc (hzero ▸ HeaderLine.dead_zero) hother
  · obtain ⟨hjk,hj'⟩ := hold j ckj hj
    obtain ⟨name,hlen,hname,hpieces⟩ := h.piece j ckj hj'
    refine ⟨name,hlen,by rw [hother j hjk]; exact hname,fun piece hpiece hbit => ?_⟩
    obtain ⟨bytes,hbytes,hstored⟩ := hpieces piece hpiece hbit
    refine ⟨bytes,(if_neg ?_).trans hbytes,hstored⟩
    rintro ⟨hid,ho⟩
    refine hjk (h.reflected.chunk_unique hj' hk (hname.trans hid) ?_)
    rw [Geometry.origChunkId_eq,(mul_add_div_mod hpiece).1] at ho
    exact ho
  · obtain ⟨hjk,hj'⟩ := hold j ckj hj
    intro piece hb
    rw [hother j hjk] at hb
    exact h.mirrored j ckj hj' piece hb

theorem Holds.resized (h : s.Holds pieces) (size : ℕ) :
    ({ s with file := { s.file with size := size } } : OpenedCache).Holds pieces :=
  ⟨h.reflected,h.accepted,h.fileLen,h.piece,h.mirrored⟩

theorem Holds.writePiece (h : s.Holds pieces) (hw : s.FairWrite w c) (hall : s.VisitsAll c) :
    ∃ s' outcome, s.writePiece w c = some (s', outcome) ∧ s'.geometry=s.geometry ∧
      s'.Holds (s.piecesAfter w c outcome pieces) := by
  unfold OpenedCache.writePiece piecesAfter piecesKept
  rcases placement_spec h.reflected hw hall with ⟨k,ch,ck,hp,hf⟩ | ⟨k,size,hp,hk,he⟩ | ⟨size,
    hp⟩ | ⟨k,ck,hp,hk⟩
  · have hvalid := (h.reflected.chunk k ck hf.chunk).2.good.2.1
    rw [hp]
    dsimp only
    rw [writeInto_of_finds hf hvalid]
    exact ⟨_,_,rfl,rfl,h.wrote hw (wrote_held h hf)⟩
  · obtain ⟨s₁,hs₁⟩ : ∃ s₁, s.takeHole w k size = some s₁ := ⟨_,if_neg (not_le.mpr he.lt)⟩
    have hs' := writeInto_fresh he hs₁ c.now
    rw [hp]
    dsimp only
    rw [hs₁,Option.bind_some,hs']
    exact ⟨_,_,rfl,rfl,h.wrote hw (wrote_hole h hk he hs₁ hs')⟩
  · rw [hp]
    exact ⟨_,_,rfl,rfl,h.resized size⟩
  · obtain ⟨ch,hc,-⟩ := (h.reflected.chunk k ck hk).2.channel
    have hfair := hw.evicts
    unfold EvictsFairly at hfair
    rw [hp] at hfair
    obtain ⟨s',hs'⟩ : ∃ s', s.eraseChunk c.now k = some s' :=
      let ⟨_,heq⟩ := eraseChunk_eq h.reflected hk hc (hfair ch hc) c.now
      ⟨_,heq⟩
    obtain ⟨hg,hholds⟩ := h.erased hk hc (hfair ch hc) hs'
    have hnot (full : Prop) [Decidable full] :
      (if full then Outcome.notWritten else .again) ≠ .written := by
      split_ifs <;> nofun
    rw [hp]
    dsimp only
    rw [hs',Option.map_some]
    refine ⟨s',_,rfl,hg,?_⟩
    rw [if_neg (hnot _),ownerOf,hk,Option.map_some,Option.elim_some]
    exact hholds

end OpenedCache

end P2Streaming.DiskCache
