import P2Streaming.DiskCacheFormat
import P2Streaming.TimedKeepers
import Mathlib.Data.Nat.Lattice

/-!
# The disk cache

`disk_cache_impl` keeps pieces of several channels in one file. The file is divided into
cache chunks; each holds one chunk of one channel, its original chunk. The memory tables
say which, and the header lines of the file keep them for the next time it is opened.
Calls run one after the other and the file functions do not fail. A result `none` of a
function that is not a search means that the source reads a chunk that is not there or
leaves an array.
-/
namespace P2Streaming.DiskCache
open BigEndianBytes ByteStores Function TimedKeepers

/-- The chunk and piece lengths a caller may pass: `__modify_filesize` and `__do_open`
assert the divisibility and the bound; the products and the conversions to `int` of the
source do not overflow. -/
structure Layout where
  chunkLen : ℕ
  pieceLen : ℕ
  pieceLen_pos : 0<pieceLen
  chunkLen_pos : 0<chunkLen
  pieceLen_dvd : pieceLen ∣ chunkLen
  pieces_le : chunkLen / pieceLen ≤ 5*1024
  pieceLen_lt : pieceLen<2^31
  chunkLen_lt : chunkLen*headerLen<2^63

namespace Layout

def pieceCntPerChunk (l : Layout) : ℕ := l.chunkLen / l.pieceLen

def maxChunkCnt : ℕ := (headerLen - paramLineLen) / chunkInfoLineLen

def modifyFilesize (l : Layout) (fileLen : ℕ) : ℕ :=
  let fileLen := min (2^63 - 1 - headerLen) fileLen
  let fileLen := if maxChunkCnt < fileLen / l.chunkLen
    then l.chunkLen * (headerLen - paramLineLen) / chunkInfoLineLen else fileLen
  if fileLen % l.chunkLen ≠ 0 then fileLen / l.chunkLen * l.chunkLen else fileLen

theorem modifyFilesize_div_le (l : Layout) (fileLen : ℕ) :
    l.modifyFilesize fileLen / l.chunkLen ≤ maxChunkCnt := by
  have hpos := l.chunkLen_pos
  have hfull : l.chunkLen * (headerLen - paramLineLen) / chunkInfoLineLen = maxChunkCnt*l.chunkLen := by
    have h : headerLen - paramLineLen = maxChunkCnt*chunkInfoLineLen := by decide
    rw [h,← Nat.mul_assoc,Nat.mul_div_cancel _ (by decide),Nat.mul_comm]
  unfold modifyFilesize
  dsimp only
  split_ifs <;> simp_all [Nat.mul_div_cancel _ hpos]

theorem dvd_modifyFilesize (l : Layout) (fileLen : ℕ) : l.chunkLen ∣ l.modifyFilesize fileLen := by
  unfold modifyFilesize
  dsimp only
  split_ifs with _ h h
  · exact Dvd.intro_left _ rfl
  · exact Nat.dvd_of_mod_eq_zero (not_not.mp h)
  · exact Dvd.intro_left _ rfl
  · exact Nat.dvd_of_mod_eq_zero (not_not.mp h)

end Layout

/-- The values of `param_` once a file has been opened. -/
structure Geometry extends Layout where
  chunkCnt : ℕ
  chunkCnt_pos : 0<chunkCnt
  chunkCnt_le : chunkCnt≤Layout.maxChunkCnt

namespace Geometry

def ofFileLen (l : Layout) (fileLen : ℕ) : Option Geometry :=
  if h : 0 < l.modifyFilesize fileLen then
    some ⟨l,l.modifyFilesize fileLen / l.chunkLen,
      Nat.div_pos (Nat.le_of_dvd h (l.dvd_modifyFilesize fileLen)) l.chunkLen_pos,
      l.modifyFilesize_div_le fileLen⟩
  else none

variable (g : Geometry)

def fileLen : ℕ := g.chunkCnt*g.chunkLen

/-- `param_` as it is written to the file. -/
def toParam (version : List Byte) : Param :=
  ⟨version,.write g.chunkCnt,.write g.fileLen,.write g.chunkLen,.write g.pieceLen⟩

/-- `__seqno_to_orig_chunkid`. -/
def origChunkId (seqno : ℕ) : ℕ := seqno * g.pieceLen / g.chunkLen

/-- `__offse_in_cache_by_cache_chunkid` and `__offse_in_chunk`, from the end of the header. -/
def pieceOffset (cacheChunkID seqno : ℕ) : ℕ :=
  cacheChunkID * g.chunkLen + seqno % g.pieceCntPerChunk * g.pieceLen

end Geometry

def invalidChunkId : ℕ := 0xffff

/-- `channel`; the arrays as functions, their lengths are `m_orig_chunk_count` and the
number of cache chunks. -/
structure Channel where
  origPieceCount : Verifiable 4
  origChunkCount : ℤ
  orgiToCacheChunk : ℕ → ℕ
  cacheToOrigChunk : ℕ → ℕ
  cachedChunks : Finset ℕ

namespace Channel

def new (totalPieceCnt pieceCntPerChunk : ℕ) : Channel :=
  { origPieceCount := .write totalPieceCnt
    origChunkCount :=
      (BitVec.ofNat 32 ((totalPieceCnt + pieceCntPerChunk - 1) / pieceCntPerChunk)).toInt
    orgiToCacheChunk := fun _ => invalidChunkId
    cacheToOrigChunk := fun _ => invalidChunkId
    cachedChunks := ∅ }

def ofDisk (origPieceCount : Verifiable 4) (pieceCntPerChunk : ℕ) : Option Channel :=
  let count := (origPieceCount.read + pieceCntPerChunk - 1).tdiv pieceCntPerChunk
  if ¬ origPieceCount.IsValid ∨ count≤0 ∨ 0xfffe<count then none
  else some ⟨origPieceCount,count,fun _ => invalidChunkId,fun _ => invalidChunkId,∅⟩

variable (c : Channel)

def keep (cacheChunkID origChunkID : ℕ) : Channel :=
  { c with
    cacheToOrigChunk := update c.cacheToOrigChunk cacheChunkID (origChunkID % 2^16)
    orgiToCacheChunk := update c.orgiToCacheChunk origChunkID cacheChunkID }

def enter (cacheChunkID origChunkID : ℕ) : Channel :=
  { c.keep cacheChunkID origChunkID with cachedChunks := insert (origChunkID % 2^16) c.cachedChunks }

def drop (cacheChunkID : ℕ) : Channel :=
  let origChunkID := c.cacheToOrigChunk cacheChunkID
  { c with
    cachedChunks := c.cachedChunks.erase origChunkID
    orgiToCacheChunk := update c.orgiToCacheChunk origChunkID invalidChunkId
    cacheToOrigChunk := update c.cacheToOrigChunk cacheChunkID invalidChunkId }

/-- `__seqno_to_cache_chunkid`, from the original chunk. -/
def cacheChunkId (origChunkID : ℕ) : ℕ :=
  if c.origChunkCount≤origChunkID then invalidChunkId else c.orgiToCacheChunk origChunkID

end Channel

/-- The elements of a `std::set` in the order of its iterators. -/
def ascending (s : Finset ℕ) : List ℕ := (List.range (s.sup id + 1)).filter (· ∈ s)

@[simp] theorem mem_ascending {s : Finset ℕ} {a : ℕ} : a ∈ ascending s ↔ a∈s := by
  simp only [ascending,List.mem_filter,List.mem_range,decide_eq_true_eq,and_iff_right_iff_imp]
  exact fun h => Nat.lt_succ_of_le (Finset.le_sup (f := id) h)

theorem mem_of_head_ascending {s : Finset ℕ} {a : ℕ} (h : (ascending s).head? = some a) : a∈s :=
  mem_ascending.mp (List.mem_of_head? h)

theorem mem_of_filter_head {s : Finset ℕ} {a : ℕ} {p : ℕ → Bool}
    (h : (ascending s).head?.filter p = some a) : a∈s :=
  mem_of_head_ascending (Option.filter_eq_some_iff.mp h).1

/-- `channels_`, `chunks_`, `hole_chunks_` and `used_chunks_cnt_`. Nothing lies beyond the
end of `chunks_`. -/
structure Tables where
  channels : ChannelUuid → Option Channel
  chunks : ℕ → Option Chunk
  holeChunks : Finset ℕ
  usedChunksCnt : ℕ

/-- The channel of a header line as `__load` takes it. -/
def HeaderLine.uuid (line : HeaderLine) : ChannelUuid := .ofDisk line.id

/-- The chunk of a header line is taken for a channel with this number of chunks. -/
def HeaderLine.Fits (line : HeaderLine) (origChunkCount : ℤ) : Prop :=
  line.chunk.IsGood ∧ 0≤line.chunk.origChunkId.read ∧ line.chunk.origChunkId.read<origChunkCount

instance (line : HeaderLine) (count : ℤ) : Decidable (line.Fits count) :=
  inferInstanceAs (Decidable (_ ∧ _))

namespace Tables

def empty : Tables := ⟨fun _ => none,fun _ => none,∅,0⟩

def addHole (t : Tables) (i : ℕ) : Tables := { t with holeChunks := insert i t.holeChunks }

def setChannel (t : Tables) (id : ChannelUuid) (c : Option Channel) : Tables :=
  { t with channels := update t.channels id c }

def addChunk (t : Tables) (i : ℕ) (line : HeaderLine) (c : Channel) : Tables :=
  { t with
    channels := update t.channels line.uuid (some (c.enter i line.chunk.origChunkId.read.toNat))
    chunks := update t.chunks i (some line.chunk)
    usedChunksCnt := t.usedChunksCnt + 1 }

/-- A header line of `__load`. -/
def loadLine (pieceCntPerChunk : ℕ) (lines : ℕ → HeaderLine) (t : Tables) (i : ℕ) : Tables :=
  let line := lines i
  if line.uuid = .invalid then t.addHole i
  else
    match (t.channels line.uuid).or (Channel.ofDisk line.origPieceCount pieceCntPerChunk) with
    | none => t.addHole i
    | some c =>
      if line.Fits c.origChunkCount then t.addChunk i line c
      -- the index goes back to the holes only when the channel has no other chunk
      else if c.cachedChunks = ∅ then (t.setChannel line.uuid none).addHole i else t

def load (pieceCntPerChunk : ℕ) (lines : ℕ → HeaderLine) (n : ℕ) : Tables :=
  (List.range n).foldl (loadLine pieceCntPerChunk lines) empty

end Tables

structure OpenedCache extends Tables where
  geometry : Geometry
  version : List Byte
  erasedChunks : List (Element (ChannelUuid × ℕ))
  file : CacheFile

/-- What a call finds in its surroundings: the elements of the hash table in its order, with
the coin that `in_probability` throws at each; the channel `last_rw_channel_` points to; the
number `random` returns; `can_write_new_chunk`; and the clock. -/
structure Choices where
  order : List (ChannelUuid × Bool)
  lastRwChannel : Option ChannelUuid
  random : ℕ
  canWriteNewChunk : Bool
  now : ℕ

namespace OpenedCache

variable (s : OpenedCache)

/-- The channel with the fewest cached chunks among those visited. -/
def smallestChannel (visited : List (ChannelUuid × Bool)) : ℕ × Option Channel :=
  visited.foldl (fun best v =>
    match s.channels v.1 with
    | none => best
    | some c =>
      if c.cachedChunks.card<best.1 ∨ (best.1=c.cachedChunks.card ∧ v.2) then
        (c.cachedChunks.card, some c)
      else best) (0xffffff, none)

def smallestChunk (visited : List (ChannelUuid × Bool)) : Option ℕ :=
  match (s.smallestChannel visited).2 with
  | none => none
  | some c =>
    match (ascending c.cachedChunks).head? with
    | none => none
    | some origChunkID => if origChunkID<c.origChunkCount then some
      (c.orgiToCacheChunk origChunkID) else none

def findErasebleChunk (c : Choices) : ℕ :=
  match s.smallestChunk (c.order.filter fun v => some v.1 ≠ c.lastRwChannel) with
  | some cacheChunkID => cacheChunkID
  | none =>
    let range := s.geometry.chunkCnt - s.holeChunks.card
    if range=0 then 0 else c.random % range

/-- The element farthest from a number, the first one of several. -/
def farthest (origChunkID : ℕ) (ids : List ℕ) (first : ℕ) : ℕ :=
  ids.foldl (fun (sel id : ℕ) => if ((sel : ℤ) - origChunkID).natAbs < ((id : ℤ) - origChunkID).natAbs
    then id else sel) first

/-- `__find_eraseble_chunk(channelID, origChunkID)`; the inner `none` is its `-1`. -/
def findErasebleChunkFor (c : Choices) (id : ChannelUuid) (origChunkID : ℕ) :
    Option (Option ℕ) :=
  match s.smallestChunk (c.order.filter fun v => v.1 ≠ id) with
  | some cacheChunkID => some (some cacheChunkID)
  | none =>
    match s.channels id with
    | none => some none
    | some ch =>
      match (ascending ch.cachedChunks).head? with
      | none => some none
      | some first =>
        let sel := farthest origChunkID (ascending ch.cachedChunks) first
        if ch.origChunkCount ≤ sel then none else some (some (ch.orgiToCacheChunk sel))

/-- The part of `__erase_chunk` that updates the channel named in the header line. -/
def forgetChunk (now cacheChunkID : ℕ) : OpenedCache :=
  let id := (s.file.lines cacheChunkID).id
  match s.channels id with
  | none => s
  | some c =>
    -- the source compares the number of the cache chunk with the channel's chunk count
    if cacheChunkID<c.origChunkCount ∧ c.cacheToOrigChunk cacheChunkID < c.origChunkCount then
      let dropped := c.drop cacheChunkID
      { s with
        erasedChunks :=
          (tryKeep timedKeeperMap now 5000 (id, c.cacheToOrigChunk cacheChunkID) s.erasedChunks).1
        channels := update s.channels id (if dropped.cachedChunks = ∅ then none else some dropped) }
    else s

/-- The end of `__erase_chunk`. -/
def releaseChunk (cacheChunkID : ℕ) : OpenedCache :=
  { s with
    chunks := update s.chunks cacheChunkID none
    holeChunks := insert cacheChunkID s.holeChunks
    usedChunksCnt := s.usedChunksCnt - 1
    file := s.file.resetChunk cacheChunkID }

/-- `__erase_chunk` with the number of a cache chunk. -/
def eraseChunk (now cacheChunkID : ℕ) : Option OpenedCache :=
  if s.usedChunksCnt=0 ∨ s.geometry.chunkCnt<cacheChunkID then some s
  else if cacheChunkID=s.geometry.chunkCnt then none
  else some ((s.forgetChunk now cacheChunkID).releaseChunk cacheChunkID)

/-- The cache chunks that `__erase_channel` erases; it leaves out original chunk `0`. -/
def channelChunks (c : Channel) : List ℕ :=
  ((ascending c.cachedChunks).filter fun (o : ℕ) => 0 < o ∧
    (o : ℤ) < c.origChunkCount).map c.orgiToCacheChunk

def eraseChannel (now : ℕ) (id : ChannelUuid) : Option OpenedCache :=
  match s.channels id with
  | none => some s
  | some c =>
    ((channelChunks c).foldlM (fun (s : OpenedCache) k => s.eraseChunk now k) s).map fun s =>
      { s with channels := update s.channels id none }

end OpenedCache

/-- The arguments of `write_piece`. -/
structure Write where
  channelID : List Byte
  totalPieceCnt : ℕ
  seqno : ℕ
  buf : List Byte

/-- Where `__do_write_piece` puts a piece, or what it does instead: the cache chunk that
holds the original chunk already, a hole (with the size the file then has), nowhere (with
the size of the file), or it makes room first. -/
inductive Placement where
  | held (cacheChunkID : ℕ)
  | hole (cacheChunkID size : ℕ)
  | refused (size : ℕ)
  | evicts (cacheChunkID : ℕ)
  | erasesChannel
  | undefined

namespace OpenedCache

variable (s : OpenedCache)

/-- The chunk allocation of `__do_write_piece`. -/
def allocation (w : Write) (c : Choices) : Placement :=
  if s.usedChunksCnt=s.geometry.chunkCnt then .evicts (s.findErasebleChunk c)
  else
    let fits (size : ℕ) : Option ℕ := (ascending s.holeChunks).head?.filter fun k =>
      headerLen + (k+1) * s.geometry.chunkLen ≤ size
    match fits s.file.size with
    | some k => .hole k s.file.size
    | none =>
      if c.canWriteNewChunk then
        let size := s.file.size+s.geometry.chunkLen
        match fits size with
        | some k => .hole k size
        | none => .refused size
      else if s.usedChunksCnt=0 then .refused s.file.size
      else
        match s.findErasebleChunkFor c (.ofString w.channelID) (s.geometry.origChunkId w.seqno) with
        | none => .undefined
        | some (some k) => .evicts k
        | some none => .evicts (s.findErasebleChunk c)

def placement (w : Write) (c : Choices) : Placement :=
  match s.channels (.ofString w.channelID) with
  | none => s.allocation w c
  | some ch =>
    if ¬ ch.origPieceCount.IsValid then .erasesChannel
    else if ch.origPieceCount.read≤w.seqno then .refused s.file.size
    else
      let k := ch.cacheChunkId (s.geometry.origChunkId w.seqno)
      if k=invalidChunkId ∨ (s.chunks k).isNone then s.allocation w c else .held k

def record (w : Write) : List Byte :=
  (Verifiable.write w.buf.length : Verifiable 4).toBytes ++
    (Verifiable.write w.seqno : Verifiable 4).toBytes ++ w.buf

def channelOf (w : Write) : Channel :=
  (s.channels (.ofString w.channelID)).getD (.new w.totalPieceCnt s.geometry.pieceCntPerChunk)

def takeHole (w : Write) (k size : ℕ) : Option OpenedCache :=
  let id := ChannelUuid.ofString w.channelID
  let c := s.channelOf w
  let origChunkID := s.geometry.origChunkId w.seqno
  if c.origChunkCount≤origChunkID then none
  else
    some { s with
      channels := update s.channels id (some (c.enter k origChunkID))
      chunks := update s.chunks k (some (.new origChunkID 0))
      holeChunks := s.holeChunks.erase k
      usedChunksCnt := s.usedChunksCnt+1
      file := { s.file with size := size } }

/-- The header line after a write to a chunk that was there before: a byte of the bitset
goes to the file when it is full. -/
def mirrorBitset (w : Write) (k : ℕ) (ck : Chunk) : CacheFile :=
  let piece := w.seqno % s.geometry.pieceCntPerChunk
  if ck.byteFull piece ∨ w.seqno=w.totalPieceCnt then
    let line := s.file.lines k
    s.file.writeLine k { line with
      chunk := { line.chunk with
        cachedPieceCount := ck.cachedPieceCount
        pieceBitset := fun j => if j / 8 = piece / 8 then ck.pieceBitset j else
          line.chunk.pieceBitset j } }
  else s.file

def markPiece (ck : Chunk) (piece : ℕ) : Chunk :=
  { ck with
    cachedPieceCount := .write (ck.cachedPieceCount.read+1)
    pieceBitset := update ck.pieceBitset piece true }

/-- The end of `__do_write_piece`, with the chunk that holds the piece; `fresh` is
`needWriteChannelID`. The flag says whether the piece was written. -/
def writeInto (w : Write) (now k : ℕ) (fresh : Bool) : Option (OpenedCache × Bool) :=
  let id := ChannelUuid.ofString w.channelID
  let piece := w.seqno % s.geometry.pieceCntPerChunk
  match s.channels id, s.chunks k with
  | some c, some ck =>
    let s := { s with channels := update s.channels id (some
      (c.keep k (s.geometry.origChunkId w.seqno))) }
    let isNew := ¬ ck.pieceBitset piece
    if isNew ∧ ¬ ck.cachedPieceCount.IsValid then (s.eraseChunk now k).map (·, false)
    else
      let ck := if isNew then markPiece ck piece else ck
      let s := { s with
        chunks := update s.chunks k (some ck)
        file := s.file.writeData (s.geometry.pieceOffset k w.seqno) (record w) }
      let file := if fresh then s.file.writeLine k ⟨id,c.origPieceCount,ck⟩
        else if isNew then s.mirrorBitset w k ck else s.file
      some ({ s with file := file }, true)
  | _, _ => none

/-- How a turn of `__do_write_piece` ends: it calls itself again behind an eviction. -/
inductive Outcome where
  | written | notWritten | again
  deriving DecidableEq

/-- A turn of `__do_write_piece`, up to the call of itself. -/
def writePiece (w : Write) (c : Choices) : Option (OpenedCache × Outcome) :=
  let outcome (r : OpenedCache × Bool) : OpenedCache × Outcome :=
    (r.1, if r.2 then .written else .notWritten)
  match s.placement w c with
  | .held k => (s.writeInto w c.now k false).map outcome
  | .hole k size => ((s.takeHole w k size).bind fun s => s.writeInto w c.now k true).map outcome
  | .refused size => some ({ s with file := { s.file with size := size } }, .notWritten)
  | .evicts k => (s.eraseChunk c.now k).map fun s =>
      (s, if s.usedChunksCnt=s.geometry.chunkCnt then .notWritten else .again)
  | .erasesChannel => (s.eraseChannel c.now (.ofString w.channelID)).map (·, .notWritten)
  | .undefined => none

/-- `__piece_offset`: the cache chunk that has the piece; the inner `none` is its `-1`. -/
def findPiece (id : ChannelUuid) (seqno : ℕ) : Option (Option ℕ) :=
  match s.channels id with
  | none => some none
  | some c =>
    let origChunkID := s.geometry.origChunkId seqno
    if c.origChunkCount≤origChunkID then some none
    else
      let k := c.orgiToCacheChunk origChunkID
      if k=invalidChunkId then some none
      else (s.chunks k).map fun ck =>
        if ck.pieceBitset (seqno % s.geometry.pieceCntPerChunk) then some k else none

def hasPiece (channelID : List Byte) (seqno : ℕ) : Option Bool :=
  (s.findPiece (.ofString channelID) seqno).map Option.isSome

/-- The bytes behind the header of a piece, if it is that of the piece. -/
def parseRecord (g : Geometry) (seqno : ℕ) (bytes : List Byte) : Option (List Byte) :=
  let pieceRealLen := Verifiable.ofBytes 4 bytes
  let seqno32 := Verifiable.ofBytes 4 (bytes.drop 8)
  if ¬ pieceRealLen.IsValid ∨ ¬ seqno32.IsValid ∨ pieceRealLen.read<0 ∨ seqno32.read≠seqno ∨
      (g.pieceLen : ℤ) - 16 < pieceRealLen.read then none
  else some ((bytes.drop 16).take pieceRealLen.read.toNat)

/-- `__do_read_piece`; `none` instead of bytes is the error `not_found`. -/
def readPiece (channelID : List Byte) (seqno : ℕ) :
    Option (OpenedCache × Option (List Byte)) :=
  match s.findPiece (.ofString channelID) seqno with
  | none => none
  | some none => some (s, none)
  | some (some k) =>
    match parseRecord s.geometry seqno (read s.file.data
      (s.geometry.pieceOffset k seqno) s.geometry.pieceLen) with
    | some bytes => some (s, some bytes)
    | none => (s.chunks k).map fun ck =>
      let ck := { ck with
        pieceBitset := update ck.pieceBitset (seqno % s.geometry.pieceCntPerChunk) false }
      ({ s with chunks := update s.chunks k (some ck) }, none)

/-- `pop_piece_erased` with `pop`; the sequence numbers are 32 bits wide. -/
def popPieceErased (now : ℕ) (channelID : List Byte) :
    OpenedCache × Option (BitVec 32 × BitVec 32) :=
  let id := ChannelUuid.ofString channelID
  let kept := clearTimeout timedKeeperMap now s.erasedChunks
  match TimedKeepers.find timedKeeperMap now id s.erasedChunks with
  | none => ({ s with erasedChunks := kept }, none)
  | some (_, origChunkID) =>
    let first := BitVec.ofNat 32 (origChunkID * s.geometry.chunkLen / s.geometry.pieceLen)
    ({ s with erasedChunks := kept.filter fun e => e.data.1 ≠ id },
      some (first, first + BitVec.ofNat 32 (s.geometry.chunkLen / s.geometry.pieceLen)))

end OpenedCache

/-- A `disk_cache_impl` and the file at its path: closed (with the bytes of the version
text in `param_` and its other values, if they were set), open, or gone in undefined
behaviour. -/
inductive Cache where
  | closed (version : List Byte) (geometry : Option Geometry) (disk : Option CacheFile)
  | opened (s : OpenedCache)
  | crashed

namespace Cache

/-- `__do_open` accepts the parameter block of the file. -/
def Accepts (l : Layout) (p : Param) : Prop :=
  p.version.take 6 = cacheVersion ∧ p.IsValid ∧ 0<p.fileLen.read ∧
    p.chunkLen.data * p.chunkCntPerFile.data = p.fileLen.data ∧
    p.chunkLen.read=l.chunkLen ∧ p.pieceLen.read=l.pieceLen

instance (l : Layout) (p : Param) : Decidable (Accepts l p) := inferInstanceAs (Decidable (_ ∧ _))

/-- The header lines are reset from the last one that both lengths have. -/
def resize (g : Geometry) (version : List Byte) (f : CacheFile) : CacheFile :=
  let old := f.param.chunkCntPerFile.read.toNat
  let lo := min old g.chunkCnt - 1
  let hi := max old g.chunkCnt
  { f with
    param := g.toParam version
    lines := fun i => if lo ≤ i ∧ i<hi then .zero else f.lines i
    size := max f.size (paramLineLen + hi * chunkInfoLineLen) }

/-- The file as `__do_open` leaves it before `__load`. -/
def adapt (g : Geometry) (version : List Byte) (f : CacheFile) : CacheFile :=
  let f := if headerLen + g.fileLen < f.size then f.truncate (headerLen+g.fileLen) else f
  if f.param.fileLen.read≠g.fileLen then resize g version f else f

/-- The file `__do_open` creates. -/
def create (g : Geometry) (version : List Byte) : CacheFile :=
  let lines := paramLineLen + g.chunkCnt * chunkInfoLineLen
  ⟨g.toParam version,fun _ => .zero,fun _ => 0,if lines<headerLen then headerLen + 1 else lines⟩

/-- `__do_open` of a closed cache; `space` is `can_write_cache_header`. The flag is set when
an error is reported. -/
def openFile (version : List Byte) (geometry : Option Geometry) (disk : Option CacheFile) (l : Layout)
    (fileLen : ℕ) (space : Bool) : Cache × Bool :=
  match Geometry.ofFileLen l fileLen with
  | none => (.closed version geometry disk, true)
  | some g =>
    match disk.filter fun f => Accepts l f.param with
    | some f =>
      let f := adapt g version f
      (.opened ⟨Tables.load g.pieceCntPerChunk f.lines g.chunkCnt,g,version,[],f⟩, false)
    | none =>
      -- without room for the header the open fails, but no error is reported
      if ¬ space then (.closed version (some g) none, false)
      else
        let version := cacheVersion ++ version.drop 6
        (.opened ⟨{ Tables.empty with holeChunks := Finset.range g.chunkCnt },g,version,[],
          create g version⟩, false)

/-- `do_open`; an open cache answers `already_open`. -/
def doOpen (l : Layout) (fileLen : ℕ) (space : Bool) : Cache → Cache × Bool
  | .closed version geometry disk => openFile version geometry disk l fileLen space
  | c => (c, true)

/-- `read_piece` and `write_piece` may open a closed cache again, with the parameters it had. -/
def reopen (coin space : Bool) : Cache → Cache
  | .closed version (some g) disk =>
    if coin then (openFile version (some g) disk g.toLayout g.fileLen space).1
    else .closed version (some g) disk
  | c => c

/-- The cache is destroyed, and another one is made for the same path; `version` is what
lies in its memory. -/
def restart (version : List Byte) : Cache → Cache
  | .closed _ _ disk => .closed version none disk
  | .opened s => .closed version none (some s.file)
  | .crashed => .crashed

/-- `write_piece`, one turn. -/
def writePiece (w : Write) (c : Choices) (coin space : Bool) (cache : Cache) :
    Cache × OpenedCache.Outcome :=
  match cache.reopen coin space with
  | .opened s =>
    match s.writePiece w c with
    | some (s, outcome) => (.opened s, outcome)
    | none => (.crashed, .notWritten)
  | c => (c, .notWritten)

def readPiece (channelID : List Byte) (seqno : ℕ) (coin space : Bool) (cache : Cache) :
    Cache × Option (List Byte) :=
  match cache.reopen coin space with
  | .opened s =>
    match s.readPiece channelID seqno with
    | some (s, bytes) => (.opened s, bytes)
    | none => (.crashed, none)
  | c => (c, none)

def popPieceErased (now : ℕ) (channelID : List Byte) : Cache → Cache × Option (BitVec 32 × BitVec 32)
  | .opened s => (s.popPieceErased now channelID).map Cache.opened id
  | c => (c, none)

end Cache

/-- What happens to the cache of one path: the calls of its users, and another process
that takes over. A turn of `write_piece` is an event of its own. -/
inductive Call where
  | restart (version : List Byte)
  | doOpen (l : Layout) (fileLen : ℕ) (space : Bool)
  | writePiece (w : Write) (c : Choices) (coin space : Bool)
  | readPiece (channelID : List Byte) (seqno : ℕ) (coin space : Bool)
  | popPieceErased (now : ℕ) (channelID : List Byte)

def Cache.step (cache : Cache) : Call → Cache
  | .restart version => cache.restart version
  | .doOpen l fileLen space => (cache.doOpen l fileLen space).1
  | .writePiece w c coin space => (cache.writePiece w c coin space).1
  | .readPiece channelID seqno coin space => (cache.readPiece channelID seqno coin space).1
  | .popPieceErased now channelID => (cache.popPieceErased now channelID).1

end P2Streaming.DiskCache
