import P2Streaming.DiskCacheSessions

/-!
# Opening the disk cache with another length

When the length differs from the one in the file, the header lines from the last common one
on are reset and the parameter block is written anew, with whatever version text the memory
of the new process has. A piece survives this and the next open exactly when its cache chunk
is not the last common one and that text is the right one.
-/
namespace P2Streaming.DiskCache
open BigEndianBytes ByteStores Cache DiskCache.Geometry

namespace OpenedCache

variable {s : OpenedCache}

theorem findPiece_iff (h : s.Reflected) {id : ChannelUuid} {seqno k : ℕ} :
    s.findPiece id seqno = some (some k) ↔ ∃ ck, s.chunks k = some ck ∧ (s.file.lines k).id = id ∧
      ck.orig = s.geometry.origChunkId seqno ∧ ck.pieceBitset (seqno % s.geometry.pieceCntPerChunk) := by
  constructor
  · intro hfind
    rcases h.findPiece id seqno with hnone | ⟨j,ck,hj,hrest⟩
    · rw [hnone] at hfind
      exact nomatch hfind
    · obtain rfl : j=k := Option.some.inj (Option.some.inj (hj.symm.trans hfind))
      exact ⟨ck,hrest⟩
  · rintro ⟨ck,hck,rfl,ho,hbit⟩
    obtain ⟨hkn,hentry⟩ := h.chunk k ck hck
    obtain ⟨ch,hc,-,hmem,hto,-⟩ := hentry.channel
    have hlt := (h.channel _ ch hc).lt _ hmem
    have hne : k≠invalidChunkId := by
      have hmax := s.geometry.chunkCnt_le
      have : Layout.maxChunkCnt < invalidChunkId := by decide
      omega
    rw [ho] at hto hlt
    unfold findPiece
    rw [hc]
    dsimp only
    rw [if_neg (not_le.mpr hlt),hto,if_neg hne,hck,Option.map_some,if_pos hbit]

theorem answers_of_findPiece (h : s.Reflected) {channelID : List Byte} {seqno k : ℕ}
    (hfind : s.findPiece (.ofString channelID) seqno = some (some k)) :
    s.hasPiece channelID seqno = some true ∧ (s.readPiece channelID seqno).map Prod.snd =
      some (parseRecord s.geometry seqno (read s.file.data
        (s.geometry.pieceOffset k seqno) s.geometry.pieceLen)) := by
  obtain ⟨ck,hck,-⟩ := (findPiece_iff h).mp hfind
  refine ⟨by rw [hasPiece,hfind]; rfl,?_⟩
  unfold readPiece
  rw [hfind]
  dsimp only
  split
  · rename_i bytes hparse
    rw [hparse]
    rfl
  · rename_i hparse
    rw [hck,hparse]
    rfl

end OpenedCache

/-- A file of the cache: its parameter block is the one of the geometry, and its header lines
can be loaded. -/
structure CacheFile.Valid (f : CacheFile) (g : Geometry) : Prop where
  accepted : Cache.Accepts g.toLayout f.param
  chunkCnt : f.param.chunkCntPerFile.read=g.chunkCnt
  fileLen : f.param.fileLen.read=g.fileLen
  lines : Tables.Loadable g.pieceCntPerChunk g.chunkCnt f.lines

def loaded (g : Geometry) (version : List Byte) (f : CacheFile) : OpenedCache :=
  ⟨Tables.load g.pieceCntPerChunk (adapt g version f).lines g.chunkCnt,g,version,[],
    adapt g version f⟩

theorem openFile_of_accepts {l : Layout} {fileLen : ℕ} {g : Geometry} (hg : ofFileLen l fileLen = some g)
    {f : CacheFile} (h : Cache.Accepts l f.param) (version : List Byte) (geometry : Option Geometry)
    (space : Bool) :
    (openFile version geometry (some f) l fileLen space).1 = .opened (loaded g version f) := by
  have haccepts : (some f).filter (fun f => decide (Cache.Accepts l f.param)) = some f := by
    rw [Option.filter_eq_some_iff]
    exact ⟨rfl,decide_eq_true h⟩
  unfold openFile
  rw [hg]
  rw [haccepts]
  rfl

variable {g g' : Geometry} {f : CacheFile}

theorem adapt_of_fileLen (h : f.param.fileLen.read=g.fileLen) (version : List Byte) :
    (adapt g version f).param = f.param ∧ (adapt g version f).lines = f.lines := by
  unfold adapt
  dsimp only
  split_ifs with _ hne hne
  · exact absurd h hne
  · exact ⟨rfl,rfl⟩
  · exact absurd h hne
  · exact ⟨rfl,rfl⟩

theorem adapt_of_ne (hv : f.Valid g) (hne : f.param.fileLen.read≠g'.fileLen) (version : List Byte) :
    (adapt g' version f).param = g'.toParam version ∧
    ∀ k, (adapt g' version f).lines k =
      if min g.chunkCnt g'.chunkCnt - 1 ≤ k ∧
      k < max g.chunkCnt g'.chunkCnt then .zero else f.lines k := by
  have hold : f.param.chunkCntPerFile.read.toNat=g.chunkCnt := by rw [hv.chunkCnt]; rfl
  unfold adapt resize
  dsimp only
  split_ifs with hlong hne'
  · exact ⟨rfl,fun k => by simp only [CacheFile.truncate,hold]⟩
  · exact absurd hne hne'
  · exact ⟨rfl,fun k => by simp only [hold]⟩

theorem read_adapt {k : ℕ} (hk : k<g'.chunkCnt) (version : List Byte) (seqno : ℕ) :
    read (adapt g' version f).data (g'.pieceOffset k seqno) g'.pieceLen =
      read f.data (g'.pieceOffset k seqno) g'.pieceLen := by
  have hle := g'.pieceOffset_le hk seqno
  have htrunc : read (f.truncate (headerLen+g'.fileLen)).data (g'.pieceOffset k seqno) g'.pieceLen =
      read f.data (g'.pieceOffset k seqno) g'.pieceLen :=
    read_congr fun a _ ha => if_pos (by omega)
  unfold adapt resize
  dsimp only
  split_ifs
  · exact htrunc
  · exact htrunc
  · rfl
  · rfl

theorem CacheFile.Valid.fileLen_eq_iff (hv : f.Valid g) (hl : g'.toLayout=g.toLayout) :
    f.param.fileLen.read=g'.fileLen ↔ g.chunkCnt=g'.chunkCnt := by
  rw [hv.fileLen,Geometry.fileLen,Geometry.fileLen,congrArg Layout.chunkLen hl]
  exact ⟨fun h => Nat.eq_of_mul_eq_mul_right g.chunkLen_pos (by exact_mod_cast h),fun h => by rw [h]⟩

/-- What an open with the length of the second geometry finds of a valid file. -/
structure Resized (g g' : Geometry) (f f' : CacheFile) : Prop where
  lines : Tables.Loadable g'.pieceCntPerChunk g'.chunkCnt f'.lines
  keeps : ∀ k<g'.chunkCnt, ¬ (f'.lines k).Dead → f'.lines k = f.lines k ∧ k<g.chunkCnt ∧
    (g.chunkCnt=g'.chunkCnt ∨ k+1 < min g.chunkCnt g'.chunkCnt)
  kept : ∀ k < min g.chunkCnt g'.chunkCnt, (g.chunkCnt=g'.chunkCnt ∨ k+1 < min g.chunkCnt g'.chunkCnt) →
    f'.lines k = f.lines k

theorem CacheFile.Valid.resized (hv : f.Valid g) (hl : g'.toLayout=g.toLayout) (version : List Byte) :
    Resized g g' f (adapt g' version f) := by
  have hp : g'.pieceCntPerChunk=g.pieceCntPerChunk := congrArg Layout.pieceCntPerChunk hl
  by_cases hsame : g.chunkCnt=g'.chunkCnt
  · obtain ⟨-,hlines⟩ := adapt_of_fileLen ((hv.fileLen_eq_iff hl).mpr hsame) version
    refine ⟨?_,fun k hk _ => ⟨by rw [hlines],by omega,.inl hsame⟩,fun k _ _ => by rw [hlines]⟩
    rw [hlines,hp,← hsame]
    exact hv.lines
  · obtain ⟨-,hlines⟩ := adapt_of_ne hv (mt (hv.fileLen_eq_iff hl).mp hsame) version
    have hlive : ∀ k<g'.chunkCnt, ¬ ((adapt g' version f).lines k).Dead →
        (adapt g' version f).lines k = f.lines k ∧ k<g.chunkCnt ∧ k+1 < min g.chunkCnt g'.chunkCnt := by
      intro k hk hlive
      rw [hlines] at hlive ⊢
      split_ifs at hlive ⊢ with hreset
      · exact absurd HeaderLine.dead_zero hlive
      · exact ⟨rfl,by omega,by omega⟩
    refine ⟨⟨fun k hk hd => ?_,fun k hk j hj hdk hdj => ?_,fun k hk j hj hdk hdj => ?_⟩,fun k hk hd => ?_,
      fun k hk hor => ?_⟩
    · obtain ⟨heq,hkn,-⟩ := hlive k hk hd
      rw [heq] at hd ⊢
      rw [hp]
      exact hv.lines.line k hkn hd
    · obtain ⟨heq,hkn,-⟩ := hlive k hk hdk
      obtain ⟨heq',hjn,-⟩ := hlive j hj hdj
      rw [heq] at hdk ⊢
      rw [heq'] at hdj ⊢
      exact hv.lines.count k hkn j hjn hdk hdj
    · obtain ⟨heq,hkn,-⟩ := hlive k hk hdk
      obtain ⟨heq',hjn,-⟩ := hlive j hj hdj
      rw [heq] at hdk ⊢
      rw [heq'] at hdj ⊢
      exact hv.lines.unique k hkn j hjn hdk hdj
    · obtain ⟨heq,hkn,hlt⟩ := hlive k hk hd
      exact ⟨heq,hkn,.inr hlt⟩
    · rw [hlines]
      exact if_neg (by omega)

/-- The header lines of the file put the piece into the cache chunk. -/
def CacheFile.HasPiece (f : CacheFile) (g : Geometry) (id : ChannelUuid) (seqno k : ℕ) : Prop :=
  ¬ (f.lines k).Dead ∧ (f.lines k).id = id ∧ (f.lines k).chunk.orig = g.origChunkId seqno ∧
    (f.lines k).chunk.pieceBitset (seqno % g.pieceCntPerChunk)

variable {version : List Byte}

theorem reflected_loaded (h : Tables.Loadable g.pieceCntPerChunk g.chunkCnt (adapt g version f).lines) :
    (loaded g version f).Reflected :=
  (Tables.reflects_load h).1

variable {seqno k : ℕ}

theorem findPiece_loaded_iff
    (h : Tables.Loadable g.pieceCntPerChunk g.chunkCnt (adapt g version f).lines)
    {id : ChannelUuid} : (loaded g version f).findPiece id seqno = some (some k) ↔
      k < g.chunkCnt ∧ (adapt g version f).HasPiece g id seqno k := by
  have hr := reflected_loaded h
  rw [OpenedCache.findPiece_iff hr]
  constructor
  · rintro ⟨ck,hck,hid,ho,hbit⟩
    obtain ⟨rfl,hlive⟩ := (Tables.reflects_load h).2 k ck hck
    exact ⟨(hr.chunk k _ hck).1,hlive,hid,ho,hbit⟩
  · rintro ⟨hk,hlive,hid,ho,hbit⟩
    obtain ⟨ck,hck⟩ := Option.ne_none_iff_exists'.mp (mt (hr.dead k hk) hlive)
    obtain ⟨rfl,-⟩ := (Tables.reflects_load h).2 k ck hck
    exact ⟨_,hck,hid,ho,hbit⟩

/-- The second cache reports the piece, and reads what the first one reads. -/
def OpenedCache.Retains (s s' : OpenedCache) (channelID : List Byte) (seqno : ℕ) : Prop :=
  s'.hasPiece channelID seqno = some true ∧
    (s'.readPiece channelID seqno).map Prod.snd = (s.readPiece channelID seqno).map Prod.snd

variable {channelID : List Byte}

theorem OpenedCache.Retains.of_findPiece {s s' : OpenedCache} (hs : s.Reflected) (hs' : s'.Reflected)
    (hl : s'.geometry.toLayout=s.geometry.toLayout)
    (hfind : s.findPiece (.ofString channelID) seqno = some (some k))
    (hfind' : s'.findPiece (.ofString channelID) seqno = some (some k))
    (hdata : read s'.file.data (s.geometry.pieceOffset k seqno) s.geometry.pieceLen =
      read s.file.data (s.geometry.pieceOffset k seqno) s.geometry.pieceLen) :
      s.Retains s' channelID seqno := by
  obtain ⟨-,hread⟩ := answers_of_findPiece hs hfind
  obtain ⟨hfound,hread'⟩ := answers_of_findPiece hs' hfind'
  have hp : s'.geometry.pieceCntPerChunk=s.geometry.pieceCntPerChunk :=
    congrArg Layout.pieceCntPerChunk hl
  have hoffset : s'.geometry.pieceOffset k seqno = s.geometry.pieceOffset k seqno := by
    rw [pieceOffset,pieceOffset,hp,hl]
  refine ⟨hfound,?_⟩
  rw [hread,hread',hoffset,parseRecord,parseRecord,hl,hdata]

theorem OpenedCache.exists_findPiece_of_hasPiece {s : OpenedCache} {seqno : ℕ}
    (h : s.hasPiece channelID seqno = some true) :
    ∃ k, s.findPiece (.ofString channelID) seqno = some (some k) := by
  obtain ⟨r,hr,hsome⟩ := Option.map_eq_some_iff.mp h
  obtain ⟨k,rfl⟩ := Option.isSome_iff_exists.mp hsome
  exact ⟨k,hr⟩

theorem retains_resized_iff (hv : f.Valid g) (hl : g'.toLayout=g.toLayout)
    (version version' : List Byte) (hk : k < min g.chunkCnt g'.chunkCnt)
    (hpiece : (loaded g version f).findPiece (.ofString channelID) seqno = some (some k)) :
    (loaded g version f).Retains (loaded g' version' f) channelID seqno ↔
      g.chunkCnt = g'.chunkCnt ∨ k+1 < min g.chunkCnt g'.chunkCnt := by
  have hsize := (hv.resized rfl version)
  have hsize' := hv.resized hl version'
  have hp : g'.pieceCntPerChunk=g.pieceCntPerChunk := congrArg Layout.pieceCntPerChunk hl
  have horig : g'.origChunkId seqno = g.origChunkId seqno := by
    rw [origChunkId,origChunkId,hl]
  obtain ⟨hkn,hhas⟩ := (findPiece_loaded_iff hsize.lines).mp hpiece
  have hline := hsize.kept k (by omega) (.inl rfl)
  constructor
  · rintro ⟨hfound,-⟩
    obtain ⟨j,hr⟩ := OpenedCache.exists_findPiece_of_hasPiece hfound
    obtain ⟨hj,hhas'⟩ := (findPiece_loaded_iff hsize'.lines).mp hr
    obtain ⟨hline',hjn,hor⟩ := hsize'.keeps j hj hhas'.1
    rw [CacheFile.HasPiece,hline] at hhas
    rw [CacheFile.HasPiece,hline',horig] at hhas'
    obtain rfl := hv.lines.unique j hjn k hkn hhas'.1 hhas.1 (hhas'.2.1.trans hhas.2.1.symm)
      (hhas'.2.2.1.trans hhas.2.2.1.symm)
    exact hor
  · intro hor
    have hhas' : (adapt g' version' f).HasPiece g' (.ofString channelID) seqno k := by
      rw [CacheFile.HasPiece,hsize'.kept k hk hor,horig,hp,← hline]
      exact hhas
    have hpiece' := (findPiece_loaded_iff hsize'.lines).mpr ⟨by omega,hhas'⟩
    refine OpenedCache.Retains.of_findPiece (reflected_loaded hsize.lines)
      (reflected_loaded hsize'.lines) hl hpiece
      hpiece' ?_
    have hoffset : g.pieceOffset k seqno = g'.pieceOffset k seqno := by
      rw [pieceOffset,pieceOffset,hp,hl]
    dsimp only [loaded]
    rw [read_adapt hkn version seqno,hoffset,congrArg Layout.pieceLen hl.symm,
      read_adapt (by omega) version' seqno]

theorem accepts_adapt_iff (hv : f.Valid g) (hl : g'.toLayout=g.toLayout) (version : List Byte) :
    Cache.Accepts g'.toLayout (adapt g' version f).param ↔
      g.chunkCnt = g'.chunkCnt ∨ version.take 6 = cacheVersion := by
  by_cases hsame : g.chunkCnt=g'.chunkCnt
  · rw [(adapt_of_fileLen ((hv.fileLen_eq_iff hl).mpr hsame) version).1,hl]
    exact iff_of_true hv.accepted (.inl hsame)
  · rw [(adapt_of_ne hv (mt (hv.fileLen_eq_iff hl).mp hsame) version).1]
    exact ⟨fun h => .inr h.1,fun h => (accepts_toParam g' (h.resolve_left hsame)).1⟩

theorem CacheFile.Valid.adapt (hv : f.Valid g) (hl : g'.toLayout=g.toLayout)
    (h : Cache.Accepts g'.toLayout (adapt g' version f).param) : (adapt g' version f).Valid g' := by
  refine ⟨h,?_,?_,(hv.resized hl version).lines⟩ <;> by_cases hsame : g.chunkCnt=g'.chunkCnt
  · rw [(adapt_of_fileLen ((hv.fileLen_eq_iff hl).mpr hsame) version).1,hv.chunkCnt,hsame]
  · rw [(adapt_of_ne hv (mt (hv.fileLen_eq_iff hl).mp hsame) version).1]
    have hmax := g'.chunkCnt_le
    have : Layout.maxChunkCnt<2^63 := by decide
    exact Verifiable.read_write (by decide) (by norm_num) (by norm_num; omega)
  · have hlen := (hv.fileLen_eq_iff hl).mpr hsame
    rw [(adapt_of_fileLen hlen version).1,hlen]
  · rw [(adapt_of_ne hv (mt (hv.fileLen_eq_iff hl).mp hsame) version).1]
    have hlt := g'.fileLen_lt
    exact Verifiable.read_write (by decide) (by norm_num) (by norm_num; omega)

theorem retains_reloaded (hv : (adapt g version f).Valid g) (version' : List Byte) {seqno : ℕ}
    (h : (loaded g version f).hasPiece channelID seqno = some true) :
    (loaded g version f).Retains (loaded g version' (adapt g version f)) channelID seqno := by
  have hlines : (adapt g version' (adapt g version f)).lines = (adapt g version f).lines :=
    (adapt_of_fileLen hv.fileLen version').2
  have hload' : Tables.Loadable g.pieceCntPerChunk g.chunkCnt
      (adapt g version' (adapt g version f)).lines := by
    rw [hlines]
    exact hv.lines
  obtain ⟨k,hk⟩ := OpenedCache.exists_findPiece_of_hasPiece h
  obtain ⟨hkn,hhas⟩ := (findPiece_loaded_iff hv.lines).mp hk
  have hk' : (loaded g version' (adapt g version f)).findPiece (.ofString channelID) seqno =
    some (some k) := by
    rw [findPiece_loaded_iff hload',CacheFile.HasPiece,hlines]
    exact ⟨hkn,hhas⟩
  exact .of_findPiece (reflected_loaded hv.lines) (reflected_loaded hload') rfl hk hk'
    (read_adapt hkn version' seqno)

/-- `do_open` of a valid file with the length of the second geometry, then again: what the
open with the old length reports in a common cache chunk. -/
theorem resized_pieces_kept_iff {l : Layout} {fileLen fileLen' : ℕ} (hg : ofFileLen l fileLen = some g)
    (hg' : ofFileLen l fileLen' = some g') (hv : f.Valid g) (version version' version'' : List Byte)
    (space space' space'' : Bool) {s : OpenedCache} {channelID : List Byte} {seqno k : ℕ}
    (hs : ((closed version none (some f)).doOpen l fileLen space).1 = .opened s)
    (hpiece : s.findPiece (.ofString channelID) seqno = some (some k))
      (hk : k < min g.chunkCnt g'.chunkCnt) :
    (∃ s₁ s₂, ((closed version' none (some f)).doOpen l fileLen' space').1 = .opened s₁ ∧
      s.Retains s₁ channelID seqno ∧ Cache.Accepts l s₁.file.param ∧
      (((opened s₁).restart version'').doOpen l fileLen' space'').1 = .opened s₂ ∧
      s.Retains s₂ channelID seqno) ↔
    g.chunkCnt=g'.chunkCnt ∨ (k+1 < min g.chunkCnt g'.chunkCnt ∧ version'.take 6 = cacheVersion) := by
  have hlayout := toLayout_of_ofFileLen hg
  have hlayout' := toLayout_of_ofFileLen hg'
  have hl : g'.toLayout=g.toLayout := hlayout'.trans hlayout.symm
  have haccepts : Cache.Accepts l f.param := hlayout ▸ hv.accepted
  obtain rfl : loaded g version f = s := by
    have hopen := openFile_of_accepts hg haccepts version none space
    exact opened.inj (hopen.symm.trans hs)
  have hopen' := openFile_of_accepts hg' haccepts version' none space'
  have hretains := retains_resized_iff hv hl version version' hk hpiece
  have hnext := accepts_adapt_iff hv hl version'
  rw [hlayout'] at hnext
  constructor
  · rintro ⟨s₁,-,hs₁,hkept,haccepts₁,-⟩
    obtain rfl : loaded g' version' f = s₁ := opened.inj (hopen'.symm.trans hs₁)
    rcases hretains.mp hkept with hsame | hlt
    · exact .inl hsame
    · exact (hnext.mp haccepts₁).imp id fun h => ⟨hlt,h⟩
  · intro hor
    have hkept := hretains.mpr (hor.imp id And.left)
    have haccepts₁ := hnext.mpr (hor.imp id And.right)
    have hv' := hv.adapt hl (hlayout'.symm ▸ haccepts₁)
    have hagain := retains_reloaded hv' version'' hkept.1
    refine ⟨_,_,hopen',hkept,haccepts₁,openFile_of_accepts hg' haccepts₁ version'' none space'',
      hagain.1,?_⟩
    rw [hagain.2,hkept.2]

section Example

/-- Two full chunks of channel 1, which has `total` pieces. -/
def twoChunks (total : ℕ) : CacheFile :=
  smallFile fun i => ⟨.ofString [1],.write total,{ Chunk.new i 2 with pieceBitset := fun _ => true }⟩

def twoChunksGeometry : Geometry := ⟨smallLayout,2,by decide,by decide⟩

theorem twoChunks_valid {total : ℕ} (h : total=3 ∨ total=4) :
    (twoChunks total).Valid twoChunksGeometry := by
  have hlt {k : ℕ} (hk : k<2) : k=0 ∨ k=1 := by omega
  have hparam : Cache.Accepts twoChunksGeometry.toLayout (twoChunks 3).param ∧
      (twoChunks 3).param.chunkCntPerFile.read = 2 ∧ (twoChunks 3).param.fileLen.read = 128 := by
      decide +kernel
  refine ⟨hparam.1,hparam.2.1,hparam.2.2,fun k hk _ => ?_,fun _ _ _ _ _ _ _ => rfl,
    fun k hk j hj _ _ _ heq => ?_⟩
  · rcases h with rfl | rfl <;> rcases hlt hk with rfl | rfl <;>
      exact ⟨by decide +kernel,by decide +kernel,_,rfl,by decide +kernel⟩
  · have hne : (Chunk.new 0 2).orig ≠ (Chunk.new 1 2).orig := by decide
    rcases hlt hk with rfl | rfl <;> rcases hlt hj with rfl | rfl
    · rfl
    · exact absurd heq hne
    · exact absurd heq.symm hne
    · rfl

/-- Chunk 0 is kept when the file grows by a chunk. -/
theorem first_chunk_kept : ∃ s s₁ s₂,
    ((closed [] none (some (twoChunks 4))).doOpen smallLayout 128 true).1 = .opened s ∧
    ((closed cacheVersion none (some (twoChunks 4))).doOpen smallLayout 192 true).1 = .opened s₁ ∧
    (((opened s₁).restart []).doOpen smallLayout 192 true).1 = .opened s₂ ∧ s.Retains s₂ [1] 1 := by
  have hs : ((closed [] none (some (twoChunks 4))).doOpen smallLayout 128 true).1 =
    .opened (loaded twoChunksGeometry [] (twoChunks 4)) := rfl
  have hpiece : (loaded twoChunksGeometry [] (twoChunks 4)).findPiece (.ofString [1]) 1 =
    some (some 0) := by
    decide +kernel
  have hgrown : ofFileLen smallLayout 192 = some ⟨smallLayout,3,by decide,by decide⟩ := rfl
  have hkept := resized_pieces_kept_iff rfl hgrown (twoChunks_valid (.inr rfl)) [] cacheVersion
    [] true true true hs hpiece
    (by decide)
  obtain ⟨s₁,s₂,hs₁,-,-,hs₂,hretains⟩ := hkept.mpr (.inr (by decide +kernel))
  exact ⟨_,s₁,s₂,hs,hs₁,hs₂,hretains⟩

/-- What caches that are opened one after the other with three chunks report at last. -/
def reports (versions : List (List Byte)) (seqno : ℕ) : Option Bool :=
  let reopen (cache : Cache) (version : List Byte) :=
    ((cache.restart version).doOpen smallLayout 192 true).1
  match versions.foldl reopen (.closed [] none (some (twoChunks 4))) with
  | .opened s => s.hasPiece [1] seqno
  | _ => none

/-- The old chunk 1 is lost when the file grows by a chunk, and the next open discards the
file when the version text in the memory was empty. -/
theorem last_common_chunk_lost :
    (loaded twoChunksGeometry [] (twoChunks 4)).findPiece (.ofString [1]) 2 = some (some 1) ∧
    reports [cacheVersion] 2 = some false ∧
    (loaded twoChunksGeometry [] (twoChunks 4)).findPiece (.ofString [1]) 1 = some (some 0) ∧
    reports [[]] 1 = some true ∧ reports [[],[]] 1 = some false := by
  decide +kernel

end Example

end P2Streaming.DiskCache
