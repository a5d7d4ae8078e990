import P2Streaming.BigEndianBytes
import P2Streaming.ByteStores

/-!
# The file of the disk cache

The file starts with a parameter block and one header line for each cache chunk, as the
structures of `disk_cache_impl.hpp` lie in memory; the pieces follow behind `HEADER_LEN`.
Integers are stored next to a copy with the bytes in the other order.
-/
namespace P2Streaming.DiskCache
open BigEndianBytes ByteStores

/-- `bswap` of a word of `n` bytes. -/
def bswap {n : ℕ} (x : BitVec (8*n)) : BitVec (8*n) :=
  BitVec.ofNat _ (beValue (beBytes n x.toNat).reverse)

private theorem two_pow (n : ℕ) : 2^(8*n) = 256^n := by
  rw [pow_mul]
  norm_num

private theorem ofNat_beValue_toNat {n : ℕ} {bs : List Byte} (h : bs.length=n) :
    (BitVec.ofNat (8*n) (beValue bs)).toNat = beValue bs := by
  rw [BitVec.toNat_ofNat,two_pow,← h,Nat.mod_eq_of_lt (beValue_lt bs)]

theorem bswap_bswap {n : ℕ} (x : BitVec (8*n)) : bswap (bswap x) = x := by
  have hlen : (beBytes n x.toNat).reverse.length = n := by simp
  have hback := beBytes_beValue (beBytes n x.toNat).reverse
  rw [hlen] at hback
  have hx : x.toNat<256^n := two_pow n ▸ x.isLt
  refine BitVec.eq_of_toNat_eq ?_
  unfold bswap
  rw [ofNat_beValue_toNat hlen,hback,List.reverse_reverse,
    ofNat_beValue_toNat (length_beBytes n _),beValue_beBytes hx]

/-- `verifiable_int` of `n` bytes. -/
structure Verifiable (n : ℕ) where
  data : BitVec (8*n)
  verify : BitVec (8*n)
  deriving DecidableEq

namespace Verifiable

variable {n : ℕ} (v : Verifiable n)

def IsValid : Prop := v.data = bswap v.verify

instance : Decidable v.IsValid := inferInstanceAs (Decidable (_=_))

def read : ℤ := v.data.toInt

def write (x : ℤ) : Verifiable n := ⟨BitVec.ofInt _ x,bswap (BitVec.ofInt _ x)⟩

@[simp] theorem isValid_write (x : ℤ) : (write x : Verifiable n).IsValid := (bswap_bswap _).symm

theorem read_write {x : ℤ} (hn : 0<n) (hlo : -2^(8 * n - 1) ≤ x) (hhi : x < 2^(8 * n - 1)) :
    (write x : Verifiable n).read = x := by
  exact BitVec.toInt_ofInt_eq_self (by omega) hlo hhi

def toBytes : List Byte :=
  (beBytes n v.data.toNat).reverse ++ (beBytes n v.verify.toNat).reverse

def ofBytes (n : ℕ) (bs : List Byte) : Verifiable n :=
  ⟨BitVec.ofNat _ (beValue (bs.take n).reverse),BitVec.ofNat _ (beValue ((bs.drop n).take n).reverse)⟩

@[simp] theorem length_toBytes : v.toBytes.length=n+n := by simp [toBytes]

theorem ofBytes_toBytes (rest : List Byte) : ofBytes n (v.toBytes++rest) = v := by
  have word (x : BitVec (8*n)) : BitVec.ofNat (8*n) (beValue (beBytes n x.toNat)) = x := by
    rw [beValue_beBytes (two_pow n ▸ x.isLt),BitVec.ofNat_toNat,BitVec.setWidth_eq]
  have htake (x : BitVec (8*n)) (l : List Byte) :
      ((beBytes n x.toNat).reverse ++ l).take n = (beBytes n x.toNat).reverse := by
    rw [List.take_append_of_le_length (by simp),List.take_of_length_le (by simp)]
  have hdrop (x : BitVec (8*n)) (l : List Byte) : ((beBytes n x.toNat).reverse ++ l).drop n = l := by
    rw [List.drop_append_of_le_length (by simp),List.drop_of_length_le (by simp),List.nil_append]
  unfold ofBytes toBytes
  rw [List.append_assoc,htake,hdrop,htake,List.reverse_reverse,List.reverse_reverse,word,word]

end Verifiable

/-- `channel_uuid`: the characters of the name, padded with zeros, and its length. -/
structure ChannelUuid where
  name : Vector Byte 20
  length : Verifiable 2
  deriving DecidableEq

namespace ChannelUuid

/-- `MAX_CHANNEL_ID_SIZE`. -/
def maxSize : ℕ := 20

def ofString (channelID : List Byte) : ChannelUuid :=
  let len := min maxSize channelID.length
  ⟨Vector.ofFn fun i => if i.val<len then channelID.getD i 0 else 0,.write len⟩

/-- `invalid_uuid`. -/
def invalid : ChannelUuid := ⟨Vector.replicate 20 0,⟨0,0⟩⟩

def ofDisk (raw : ChannelUuid) : ChannelUuid :=
  if ¬ raw.length.IsValid ∨ raw.length.read<0 then invalid
  else ⟨Vector.ofFn fun i => if (i.val : ℤ) < raw.length.read then raw.name[i] else 0,raw.length⟩

private theorem read_length (channelID : List Byte) :
    (ofString channelID).length.read = min maxSize channelID.length := by
  have hle : min maxSize channelID.length ≤ 20 := min_le_left _ _
  exact Verifiable.read_write (by decide) (by norm_num) (by norm_num; omega)

theorem ofDisk_ofString (channelID : List Byte) : ofDisk (ofString channelID) = ofString channelID := by
  have hread := read_length channelID
  have hvalid : ¬ (¬ (ofString channelID).length.IsValid ∨ (ofString channelID).length.read < 0) := by
    rw [hread]
    simp [ofString]
  unfold ofDisk
  rw [if_neg hvalid]
  have hname : Vector.ofFn (fun i : Fin 20 => if (i.val : ℤ) < (ofString channelID).length.read
      then (ofString channelID).name[i] else 0) = (ofString channelID).name := by
    refine Vector.ext fun i hi => ?_
    rw [hread]
    simp only [Vector.getElem_ofFn]
    split_ifs with h
    · rfl
    · simp only [ofString,Vector.getElem_ofFn]
      rw [if_neg (by exact_mod_cast h)]
  rw [hname]

theorem ofString_injOn {s t : List Byte} (hs : s.length≤20) (ht : t.length≤20)
    (h : ofString s = ofString t) : s=t := by
  have hlen : s.length=t.length := by
    have hread := congrArg (fun u => u.length.read) h
    simp only [read_length,maxSize,min_eq_right hs,min_eq_right ht] at hread
    exact_mod_cast hread
  refine List.ext_getElem hlen fun i hi hi' => ?_
  have hn : (ofString s).name[i] = (ofString t).name[i] := by rw [h]
  simpa [ofString,maxSize,hs,ht,hi,hi',List.getD_eq_getElem?_getD] using hn

end ChannelUuid

/-- `chunk`, in memory and in a header line; a bit for each piece. -/
structure Chunk where
  origChunkId : Verifiable 2
  cachedPieceCount : Verifiable 2
  readTimes : Verifiable 4
  pieceBitset : ℕ → Bool

namespace Chunk

def new (origChunkID : ℕ) (cachedPieceCount : ℤ) : Chunk :=
  ⟨.write origChunkID,.write cachedPieceCount,.write 0,fun _ => false⟩

/-- What the constructor that takes the bytes of a header line reports. -/
def IsGood (ck : Chunk) : Prop :=
  ck.origChunkId.IsValid ∧ ck.cachedPieceCount.IsValid ∧ ck.readTimes.IsValid

instance (ck : Chunk) : Decidable ck.IsGood := inferInstanceAs (Decidable (_ ∧ _))

def byteFull (ck : Chunk) (piece : ℕ) : Bool :=
  (List.range 8).all fun j => ck.pieceBitset (piece / 8 * 8 + j)

end Chunk

structure HeaderLine where
  id : ChannelUuid
  origPieceCount : Verifiable 4
  chunk : Chunk

/-- The line `__reset_chunk` writes. -/
def HeaderLine.zero : HeaderLine :=
  ⟨.invalid,⟨0,0⟩,⟨0,0⟩,⟨0,0⟩,⟨0,0⟩,fun _ => false⟩

/-- `param`; the version text lies in the first of its integers. -/
structure Param where
  version : List Byte
  chunkCntPerFile : Verifiable 8
  fileLen : Verifiable 8
  chunkLen : Verifiable 8
  pieceLen : Verifiable 8

def Param.IsValid (p : Param) : Prop :=
  p.chunkCntPerFile.IsValid ∧ p.fileLen.IsValid ∧ p.chunkLen.IsValid ∧ p.pieceLen.IsValid

instance (p : Param) : Decidable p.IsValid := inferInstanceAs (Decidable (_ ∧ _))

/-- `CACHE_VERSION` with its final zero. -/
def cacheVersion : List Byte := [0x56,0x65,0x72,0x30,0x34,0]

def paramLineLen : ℕ := 128

/-- `CHUNK_INFO_LINE_LEN`: 24 bytes of name, 8 of piece count, 656 of chunk. -/
def chunkInfoLineLen : ℕ := 688

def headerLen : ℕ := paramLineLen + 4 * 1024 * 1024 / chunkInfoLineLen * chunkInfoLineLen

/-- The cache file; `data` starts at `HEADER_LEN`. -/
structure CacheFile where
  param : Param
  lines : ℕ → HeaderLine
  data : ℕ → Byte
  size : ℕ

namespace CacheFile

variable (f : CacheFile)

def writeLine (i : ℕ) (l : HeaderLine) : CacheFile :=
  { f with
    lines := Function.update f.lines i l
    size := max f.size (paramLineLen + (i+1) * chunkInfoLineLen) }

def resetChunk (i : ℕ) : CacheFile := f.writeLine i .zero

def writeData (offset : ℕ) (bs : List Byte) : CacheFile :=
  { f with data := ByteStores.write f.data offset bs, size := max f.size (headerLen + offset +
    bs.length) }

/-- `ftruncate64`; what a later extension brings back is zero. -/
def truncate (size : ℕ) : CacheFile :=
  { f with data := fun a => if headerLen + a < size then f.data a else 0, size := size }

end CacheFile

end P2Streaming.DiskCache
