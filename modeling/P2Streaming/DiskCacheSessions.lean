import P2Streaming.DiskCacheAccounting
import P2Streaming.DiskCacheWrites

/-!
# Reading back what was written

A run writes and reads pieces, and opens the file again in a new process with the same
parameters. Along a run whose turns are fair, a read finds the bytes written last under the
same name and number or nothing, and after the file has been opened again every piece that is
reported was written, is still there and is read as it was written last.
-/
namespace P2Streaming.DiskCache
open BigEndianBytes ByteStores TransitionRuns Verifiable

namespace OpenedCache

variable {s : OpenedCache} {pieces : Pieces}

theorem Reflected.findPiece (h : s.Reflected) (id : ChannelUuid) (seqno : ℕ) :
    s.findPiece id seqno = some none ∨ ∃ k ck, s.findPiece id seqno = some (some k) ∧
      s.chunks k = some ck ∧ (s.file.lines k).id = id ∧ ck.orig = s.geometry.origChunkId seqno ∧
      ck.pieceBitset (seqno % s.geometry.pieceCntPerChunk) := by
  unfold OpenedCache.findPiece
  cases hc : s.channels id with
  | none => exact .inl rfl
  | some ch =>
    dsimp only
    have he := h.channel id ch hc
    by_cases hlt : ch.origChunkCount ≤ s.geometry.origChunkId seqno
    · exact .inl (if_pos hlt)
    rw [if_neg hlt]
    by_cases hmem : s.geometry.origChunkId seqno ∈ ch.cachedChunks
    · obtain ⟨ck,hck,hid,ho⟩ := he.cached _ hmem
      by_cases hinv : ch.orgiToCacheChunk (s.geometry.origChunkId seqno) = invalidChunkId
      · exact .inl (if_pos hinv)
      rw [if_neg hinv,hck,Option.map_some]
      by_cases hbit : ck.pieceBitset (seqno % s.geometry.pieceCntPerChunk)
      · rw [if_pos hbit]
        exact .inr ⟨_,ck,rfl,hck,hid,ho,hbit⟩
      · rw [if_neg hbit]
        exact .inl rfl
    · exact .inl (if_pos (he.free _ (not_le.mp hlt) hmem))

theorem Holds.readPiece (h : s.Holds pieces) (channelID : List Byte) (seqno : ℕ) :
    ∃ found, s.hasPiece channelID seqno = some found ∧ ∃ r, s.readPiece channelID seqno = some (s, r) ∧
      (found=r.isSome) ∧ (channelID.length≤20 → ∀ bytes, r = some bytes →
        pieces channelID seqno = some bytes) := by
  unfold OpenedCache.readPiece hasPiece
  rcases h.reflected.findPiece (.ofString channelID) seqno with hnone | ⟨k,ck,hfind,hck,hid,ho,hbit⟩
  · rw [hnone]
    exact ⟨false,rfl,none,rfl,rfl,nofun⟩
  · have hp := Nat.mod_lt seqno s.geometry.pieceCnt_pos
    have hseq : ck.orig * s.geometry.pieceCntPerChunk + seqno % s.geometry.pieceCntPerChunk = seqno := by
      rw [ho,Geometry.origChunkId_eq,Nat.mul_comm]
      exact Nat.div_add_mod _ _
    obtain ⟨name,hlen,hname,hpieces⟩ := h.piece k ck hck
    obtain ⟨bytes,hbytes,hstored⟩ := hpieces _ hp hbit
    rw [hseq] at hbytes hstored
    rw [hfind]
    dsimp only
    rw [hstored]
    refine ⟨true,rfl,some bytes,rfl,rfl,fun hlen' bytes' heq => ?_⟩
    obtain rfl := Option.some.inj heq
    rw [← ChannelUuid.ofString_injOn hlen hlen' (hname.symm.trans hid)]
    exact hbytes

theorem Holds.adapt (h : s.Holds pieces) (version : List Byte) :
    (Cache.adapt s.geometry version s.file).param = s.file.param ∧
    (Cache.adapt s.geometry version s.file).lines = s.file.lines ∧
    ∀ k<s.geometry.chunkCnt, ∀ seqno bytes, s.geometry.Stored s.file.data k seqno bytes →
      s.geometry.Stored (Cache.adapt s.geometry version s.file).data k seqno bytes := by
  unfold Cache.adapt
  dsimp only
  split_ifs with hlong hne hne
  · exact absurd h.fileLen hne
  · refine ⟨rfl,rfl,fun k hk seqno bytes hstored => ?_⟩
    have hle := s.geometry.pieceOffset_le hk seqno
    unfold Geometry.Stored at hstored ⊢
    rw [← hstored]
    refine congrArg _ (read_congr fun a _ ha => if_pos ?_)
    omega
  · exact absurd h.fileLen hne
  · exact ⟨rfl,rfl,fun _ _ _ _ hstored => hstored⟩

theorem Holds.reload (h : s.Holds pieces) (version : List Byte) :
    (⟨Tables.load s.geometry.pieceCntPerChunk
      (Cache.adapt s.geometry version s.file).lines s.geometry.chunkCnt,
      s.geometry,version,[],Cache.adapt s.geometry version s.file⟩ : OpenedCache).Holds pieces := by
  obtain ⟨hparam,hlines,hdata⟩ := h.adapt version
  obtain ⟨hreflects,hloaded⟩ := Tables.reflects_load h.reflected.loadable
  have hold : ∀ k ck, (Tables.load s.geometry.pieceCntPerChunk s.file.lines
    s.geometry.chunkCnt).chunks k = some ck →
      ck = (s.file.lines k).chunk ∧ k<s.geometry.chunkCnt ∧ ∃ ck₀, s.chunks k = some ck₀ ∧
      ck₀.orig=ck.orig := by
    intro k ck hk
    obtain ⟨hck,hlive⟩ := hloaded k ck hk
    obtain ⟨hkn,-⟩ := hreflects.chunk k ck hk
    cases hc : s.chunks k with
    | none => exact absurd (h.reflected.dead k hkn hc) hlive
    | some ck₀ =>
      have hentry := (h.reflected.chunk k ck₀ hc).2
      exact ⟨hck,hkn,ck₀,rfl,by rw [hck,Chunk.orig,Chunk.orig,hentry.origChunkId]⟩
  refine ⟨?_,?_,?_,fun k ck hk => ?_,fun k ck hk => ?_⟩
  · unfold Reflected
    rw [hlines]
    exact hreflects
  · rw [hparam]
    exact h.accepted
  · rw [hparam]
    exact h.fileLen
  all_goals
    simp only [hlines] at hk ⊢
    obtain ⟨hck,hkn,ck₀,hck₀,horig⟩ := hold k ck hk
  · obtain ⟨name,hlen,hname,hpieces⟩ := h.piece k ck₀ hck₀
    refine ⟨name,hlen,hname,fun piece hpiece hbit => ?_⟩
    rw [hck] at hbit
    obtain ⟨bytes,hbytes,hstored⟩ := hpieces piece hpiece (h.mirrored k ck₀ hck₀ piece hbit)
    rw [horig] at hbytes hstored
    exact ⟨bytes,hbytes,hdata k hkn _ _ hstored⟩
  · intro piece hbit
    rw [hck]
    exact hbit

end OpenedCache

namespace Geometry

theorem toLayout_of_ofFileLen {l : Layout} {fileLen : ℕ} {g : Geometry}
    (h : ofFileLen l fileLen = some g) : g.toLayout=l := by
  unfold ofFileLen at h
  split_ifs at h
  exact (Option.some.inj h) ▸ rfl

theorem fileLen_lt (g : Geometry) : g.fileLen<2^63 := by
  have hle : g.chunkCnt*g.chunkLen≤headerLen*g.chunkLen :=
    Nat.mul_le_mul_right _ (g.chunkCnt_le.trans (by decide))
  have hlt := g.chunkLen_lt
  rw [fileLen]
  rw [Nat.mul_comm] at hlt
  omega

theorem accepts_toParam (g : Geometry) {version : List Byte} (hv : version.take 6 = cacheVersion) :
    Cache.Accepts g.toLayout (g.toParam version) ∧ (g.toParam version).fileLen.read = g.fileLen := by
  have hread {x : ℕ} (hx : x<2^63) : (write x : Verifiable 8).read = x :=
    read_write (by decide) (by norm_num) (by norm_num; omega)
  have hfile := hread g.fileLen_lt
  have hchunk : g.chunkLen<2^63 := by
    have hlt := g.chunkLen_lt
    have hle : g.chunkLen*1≤g.chunkLen*headerLen := Nat.mul_le_mul_left _ (by decide)
    omega
  have hpiece : g.pieceLen<2^63 := g.pieceLen_lt.trans (by decide)
  have hpos : 0<g.fileLen := Nat.mul_pos g.chunkCnt_pos g.chunkLen_pos
  refine ⟨⟨hv,⟨isValid_write _,isValid_write _,isValid_write _,
    isValid_write _⟩,?_,?_,hread hchunk,hread hpiece⟩,hfile⟩
  · change 0 < (write g.fileLen : Verifiable 8).read
    rw [hfile]
    exact_mod_cast hpos
  · change BitVec.ofInt (8*8) g.chunkLen * BitVec.ofInt (8*8) g.chunkCnt = BitVec.ofInt (8*8) g.fileLen
    rw [← BitVec.ofInt_mul,fileLen,Nat.cast_mul,mul_comm (g.chunkLen : ℤ)]

end Geometry

/-- A cache with what was written to it last and what is still there of it. -/
structure Session where
  cache : Cache
  last : Pieces
  live : Pieces

/-- The file is opened again by a new process that has `version` in the memory of `param_`. -/
inductive SessionEvent where
  | writePiece (w : Write) (c : Choices)
  | readPiece (channelID : List Byte) (seqno : ℕ)
  | reopen (version : List Byte) (space : Bool)

namespace Session

variable (l : Layout) (fileLen : ℕ)

def start (version : List Byte) : Session :=
  ⟨(Cache.openFile version none none l fileLen true).1,fun _ _ => none,fun _ _ => none⟩

variable (x : Session)

def step : SessionEvent → Session
  | .writePiece w c =>
      let r := x.cache.writePiece w c false false
      { cache := r.1
        last := if r.2 = .written then x.last.remember w else x.last
        live := match x.cache with
          | .opened s => s.piecesAfter w c r.2 x.live
          | _ => x.live }
  | .readPiece channelID seqno => { x with cache := (x.cache.readPiece channelID seqno false false).1 }
  | .reopen version space => { x with cache := ((x.cache.restart version).doOpen l fileLen space).1 }

def Fair : SessionEvent → Prop
  | .writePiece w c =>
    match x.cache with
    | .opened s => s.FairWrite w c
    | _ => True
  | _ => True

instance (e : SessionEvent) : Decidable (x.Fair e) := by
  unfold Fair
  repeat' split
  all_goals infer_instance

def VisitsAll : SessionEvent → Prop
  | .writePiece _ c => ∀ s, x.cache = .opened s → s.VisitsAll c
  | _ => True

def Harmless (e : SessionEvent) : Prop := x.Fair e ∧ x.VisitsAll e

/-- The cache is open and holds what is still there of what was written last. -/
structure Sound (g : Geometry) (x : Session) (s : OpenedCache) : Prop where
  cache : x.cache = .opened s
  geometry : s.geometry=g
  holds : s.Holds x.live
  last : ∀ name seqno bytes, x.live name seqno = some bytes → x.last name seqno = some bytes

variable {l fileLen} {g : Geometry} {x} {s : OpenedCache}

theorem sound_start (hg : Geometry.ofFileLen l fileLen = some g) (version : List Byte) :
    ∃ s, (start l fileLen version).Sound g s := by
  have hopen : (Cache.openFile version none none l fileLen true).1 =
      .opened ⟨{ Tables.empty with holeChunks := Finset.range g.chunkCnt },g,
        cacheVersion ++ version.drop 6,[],
        Cache.create g (cacheVersion ++ version.drop 6)⟩ := by
    unfold Cache.openFile
    rw [hg]
    rfl
  have hversion : (cacheVersion ++ version.drop 6).take 6 = cacheVersion := by
    rfl
  obtain ⟨haccepts,hfile⟩ := g.accepts_toParam hversion
  refine ⟨_,hopen,rfl,⟨⟨nofun,nofun,fun _ _ _ => HeaderLine.dead_zero,fun k hk => ?_,∅,?_,rfl⟩,haccepts,
    hfile,nofun,nofun⟩,nofun⟩
  · exact ⟨Finset.mem_range.mp hk,rfl⟩
  · simp [Tables.empty]

theorem Sound.writePiece (h : x.Sound g s) {w : Write} {c : Choices} (he : x.Harmless (.writePiece w c)) :
    ∃ s', (x.step l fileLen (.writePiece w c)).Sound g s' := by
  obtain ⟨hfair,hall⟩ := he
  have hw : s.FairWrite w c := by
    unfold Fair at hfair
    rw [h.cache] at hfair
    exact hfair
  obtain ⟨s',outcome,hs',hgeo,hholds⟩ := h.holds.writePiece hw (hall s h.cache)
  have hwrite : x.cache.writePiece w c false false = (.opened s', outcome) := by
    rw [h.cache]
    unfold Cache.writePiece
    dsimp only [Cache.reopen]
    rw [hs']
  have hstep : x.step l fileLen (.writePiece w c) =
      ⟨.opened s',if outcome = .written then x.last.remember w else x.last,
        s.piecesAfter w c outcome x.live⟩ := by
    unfold step
    dsimp only
    rw [hwrite,h.cache]
  rw [hstep]
  refine ⟨s',rfl,hgeo.trans h.geometry,hholds,fun name seqno bytes hlive => ?_⟩
  change s.piecesAfter w c outcome x.live name seqno = some bytes at hlive
  change (if outcome = .written then x.last.remember w else x.last) name seqno = some bytes
  unfold OpenedCache.piecesAfter at hlive
  by_cases hout : outcome = .written
  · rw [if_pos hout] at hlive ⊢
    unfold Pieces.remember at hlive ⊢
    split_ifs at hlive ⊢
    · exact hlive
    · exact h.last name seqno bytes (OpenedCache.of_piecesKept hlive)
  · rw [if_neg hout] at hlive ⊢
    exact h.last name seqno bytes (OpenedCache.of_piecesKept hlive)

theorem Sound.readPiece (h : x.Sound g s) (channelID : List Byte) (seqno : ℕ) :
    ∃ found r, s.hasPiece channelID seqno = some found ∧
      x.cache.readPiece channelID seqno false false = (.opened s, r) ∧ found=r.isSome ∧
      (channelID.length≤20 → ∀ bytes, r = some bytes →
        x.live channelID seqno = some bytes ∧ x.last channelID seqno = some bytes) := by
  obtain ⟨found,hfound,r,hr,hsame,hbytes⟩ := h.holds.readPiece channelID seqno
  refine ⟨found,r,hfound,?_,hsame,fun hlen bytes hb => ?_⟩
  · rw [h.cache]
    unfold Cache.readPiece
    dsimp only [Cache.reopen]
    rw [hr]
  · have hlive := hbytes hlen bytes hb
    exact ⟨hlive,h.last _ _ _ hlive⟩

theorem Sound.reopen (h : x.Sound g s) (hg : Geometry.ofFileLen l fileLen = some g) (version : List Byte)
    (space : Bool) : ∃ s', (x.step l fileLen (.reopen version space)).Sound g s' := by
  have hl := Geometry.toLayout_of_ofFileLen hg
  obtain ⟨hcache,rfl,hholds,hlast⟩ := h
  have haccepts : (some s.file).filter (fun f => decide (Cache.Accepts l f.param)) = some s.file := by
    rw [Option.filter_eq_some_iff]
    exact ⟨rfl,decide_eq_true (hl ▸ hholds.accepted)⟩
  have hopen : ((x.cache.restart version).doOpen l fileLen space).1 =
      .opened ⟨Tables.load s.geometry.pieceCntPerChunk (Cache.adapt s.geometry version s.file).lines
        s.geometry.chunkCnt,s.geometry,version,[],Cache.adapt s.geometry version s.file⟩ := by
    rw [hcache]
    change (Cache.openFile version none (some s.file) l fileLen space).1 = _
    unfold Cache.openFile
    rw [hg]
    rw [haccepts]
  exact ⟨_,hopen,rfl,hholds.reload version,hlast⟩

theorem Sound.step (hg : Geometry.ofFileLen l fileLen = some g) {e : SessionEvent} (he : x.Harmless e)
    (h : ∃ s, x.Sound g s) : ∃ s', (x.step l fileLen e).Sound g s' := by
  obtain ⟨s,h⟩ := h
  cases e with
  | writePiece w c => exact h.writePiece he
  | reopen version space => exact h.reopen hg version space
  | readPiece channelID seqno =>
    obtain ⟨found,r,-,hread,-⟩ := h.readPiece channelID seqno
    exact ⟨s,congrArg Prod.fst hread,h.geometry,h.holds,h.last⟩

theorem sound_of_run (hg : Geometry.ofFileLen l fileLen = some g) (version : List Byte)
    {es : List SessionEvent} (h : AlongRun (step l fileLen) Harmless (start l fileLen version) es) :
    ∃ s, (es.foldl (step l fileLen) (start l fileLen version)).Sound g s :=
  invariant_of_run (fun x => ∃ s, x.Sound g s) (fun _ _ he hs => Sound.step hg he hs) h
    (sound_start hg version)

/-- Along a harmless run the cache stays open, and a read of any piece reports nothing or the
bytes that were written last under the name and the number. -/
theorem reads_last_written (hg : Geometry.ofFileLen l fileLen = some g) (version : List Byte)
    (es : List SessionEvent) (h : AlongRun (step l fileLen) Harmless (start l fileLen version) es) :
    let x := es.foldl (step l fileLen) (start l fileLen version)
    ∃ s, x.cache = .opened s ∧ ∀ channelID, channelID.length≤20 → ∀ seqno,
      ∃ r, x.cache.readPiece channelID seqno false false = (.opened s, r) ∧
        ∀ bytes, r = some bytes → x.last channelID seqno = some bytes := by
  intro x
  obtain ⟨s,hs⟩ := sound_of_run hg version h
  refine ⟨s,hs.cache,fun channelID hlen seqno => ?_⟩
  obtain ⟨-,r,-,hread,-,hbytes⟩ := hs.readPiece channelID seqno
  exact ⟨r,hread,fun bytes hb => (hbytes hlen bytes hb).2⟩

/-- After a harmless run and another open of the file, a piece that is reported has been
written, its chunk has not been evicted since, and it is read as it was written last. -/
theorem reopened_pieces_sound (hg : Geometry.ofFileLen l fileLen = some g) (version : List Byte)
    (es : List SessionEvent) (h : AlongRun (step l fileLen) Harmless (start l fileLen version) es)
    (version' : List Byte) (space : Bool) :
    let x := es.foldl (step l fileLen) (start l fileLen version)
    ∃ s, (x.step l fileLen (.reopen version' space)).cache = .opened s ∧
      ∀ channelID, channelID.length≤20 → ∀ seqno, s.hasPiece channelID seqno = some true →
        ∃ bytes, x.live channelID seqno = some bytes ∧ x.last channelID seqno = some bytes ∧
          s.readPiece channelID seqno = some (s, some bytes) := by
  intro x
  obtain ⟨s₀,hs₀⟩ := sound_of_run hg version h
  obtain ⟨s,hs⟩ := hs₀.reopen hg version' space
  refine ⟨s,hs.cache,fun channelID hlen seqno hhas => ?_⟩
  obtain ⟨found,hfound,r,hread,hsame,hlive⟩ := hs.holds.readPiece channelID seqno
  obtain rfl : true=found := Option.some.inj (hhas.symm.trans hfound)
  obtain ⟨bytes,rfl⟩ := Option.isSome_iff_exists.mp hsame.symm
  have hbytes := hlive hlen bytes rfl
  exact ⟨bytes,hbytes,hs.last _ _ _ hbytes,hread⟩

section Example

/-- Chunks of eight pieces of 32 bytes; the file has two of them. -/
def eightPieces : Layout :=
  { Cache.smallLayout with
    chunkLen := 256
    chunkLen_pos := by decide
    pieceLen_dvd := by decide
    pieces_le := by decide
    chunkLen_lt := by decide }

def roomy : SessionEvent → Bool
  | .writePiece _ c => c.canWriteNewChunk
  | _ => true

theorem harmless_of_roomy {es : List SessionEvent} (hfair : AlongRun (step l fileLen) Fair x es)
    (hroomy : es.all roomy) : AlongRun (step l fileLen) Harmless x es := by
  induction es generalizing x with
  | nil => trivial
  | cons e es ih =>
    rw [List.all_cons,Bool.and_eq_true] at hroomy
    refine ⟨⟨hfair.1,?_⟩,ih hfair.2 hroomy.2⟩
    cases e with
    | writePiece w c => exact fun _ _ hno => absurd hroomy.1 (by simp [roomy,hno])
    | readPiece | reopen => trivial

/-- A write of one byte, with the channels in the order of the hash table. -/
def small (id total seqno : ℕ) (byte : Byte) (order : List ℕ) : SessionEvent :=
  .writePiece ⟨[BitVec.ofNat 8 id],total,seqno,[byte]⟩
    ⟨order.map fun i => (.ofString [BitVec.ofNat 8 i], false),none,0,true,0⟩

theorem pieces_read_back :
    let es := [small 1 16 0 7 [],small 1 16 8 8 [],small 2 16 0 9 [1],small 2 16 0 9 [1]]
    let x := es.foldl (step eightPieces 512) (start eightPieces 512 [])
    (x.cache.readPiece [1] 8 false false).2 = some [8] ∧ (x.cache.readPiece [1] 0 false false).2 = none ∧
      ∀ seqno bytes, (x.cache.readPiece [2] seqno false false).2 = some bytes →
        x.last [2] seqno = some bytes := by
  intro es x
  have hrun : AlongRun (step eightPieces 512) Harmless (start eightPieces 512 []) es :=
    harmless_of_roomy (by decide +kernel) (by decide)
  obtain ⟨s,-,hreads⟩ := reads_last_written (l := eightPieces) rfl [] es hrun
  refine ⟨by decide +kernel,by decide +kernel,fun seqno bytes hb => ?_⟩
  obtain ⟨r,hread,hlast⟩ := hreads [2] (by decide) seqno
  exact hlast bytes (by rw [← hb,hread])

theorem piece_survives_reopening :
    let es := [small 1 16 0 7 [],small 1 16 1 8 []]
    let x := es.foldl (step eightPieces 512) (start eightPieces 512 [])
    ∃ s, (x.step eightPieces 512 (.reopen [] false)).cache = .opened s ∧
      s.hasPiece [1] 0 = some true ∧ x.live [1] 0 = some [7] ∧
        s.readPiece [1] 0 = some (s, some [7]) := by
  intro es x
  have hrun : AlongRun (step eightPieces 512) Harmless (start eightPieces 512 []) es :=
    harmless_of_roomy (by decide +kernel) (by decide)
  obtain ⟨s,hs,hpieces⟩ := reopened_pieces_sound (l := eightPieces) rfl [] es hrun [] false
  have hhas : (match (x.step eightPieces 512 (.reopen [] false)).cache with
    | .opened s => s.hasPiece [1] 0
    | _ => none) = some true := by decide +kernel
  rw [hs] at hhas
  obtain ⟨bytes,hlive,-,hread⟩ := hpieces [1] (by decide) 0 hhas
  have hseven : x.live [1] 0 = some [7] := by decide +kernel
  obtain rfl := Option.some.inj (hseven.symm.trans hlive)
  exact ⟨s,hs,hhas,hseven,hread⟩

/-- The chunk of channel 1 is evicted from cache chunk 1, which its chunk count does not
reach, and channel 3 takes the place. Channel 1 then reads the bytes of channel 3. -/
theorem evicted_piece_read_from_other_channel :
    let es := [small 2 16 0 2 [],small 1 8 0 1 [2],small 3 16 0 3 [1,2],small 3 16 0 3 [1,2]]
    let x := es.foldl (step eightPieces 512) (start eightPieces 512 [])
    (x.cache.readPiece [1] 0 false false).2 = some [3] ∧ x.last [1] 0 = some [1] := by
  decide +kernel

/-- The pieces that channel 1 goes on to write are reported for channel 3 after the next open. -/
theorem unwritten_piece_reported :
    let es := [small 2 16 0 2 [],small 1 8 0 1 [2],small 3 16 0 3 [1,2],small 3 16 0 3 [1,2]] ++
      (List.range 7).map fun i => small 1 8 (i+1) 1 [1,2,3]
    let x := es.foldl (step eightPieces 512) (start eightPieces 512 [])
    let x' := x.step eightPieces 512 (.reopen [] false)
    (x'.cache.readPiece [3] 5 false false).2 = some [1] ∧ x.last [3] 5 = none := by
  decide +kernel

end Example

end Session

end P2Streaming.DiskCache
