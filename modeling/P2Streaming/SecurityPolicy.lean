import P2Streaming.MediaPacket

/-!
# `security_policy`: signature and scrambling of media packets

Both read the sequence number and the time stamp of a packet; the signature covers the
payload as well. `md5` and `generate_shared_key` are parameters.
-/
namespace P2Streaming
open BigEndianBytes

abbrev Digest := Fin 16 → Byte

namespace SecurityPolicy

/-- `ANTI_POLLUTION_CODE`, the decimal digits of 893748192398482455. -/
def antiPollutionCode : List Byte :=
  [8,9,3,7,4,8,1,9,2,3,9,8,4,8,2,4,5,5].map fun d => BitVec.ofNat 8 (48+d)

/-- `digest[0] ^ digest[1]` on the digest read as two little-endian words. -/
def foldDigest (d : Digest) : BitVec 64 :=
  BitVec.ofNat 64 (beValue ((List.ofFn d).take 8).reverse) ^^^
    BitVec.ofNat 64 (beValue ((List.ofFn d).drop 8).reverse)

def signedBytes (channelID : List Byte) (pkt : MediaPacket) : List Byte :=
  channelID ++ (beBytes 4 pkt.seqno.toNat ++ (beBytes 4 pkt.timeStamp.toNat ++
    (pkt.payload++antiPollutionCode)))

def signatureMediapacket (md5 : List Byte → Digest) (pkt : MediaPacket) (channelID : List Byte) :
    BitVec 64 :=
  foldDigest (md5 (signedBytes channelID pkt))

/-- `fast_xor` with a digest, which is repeated as often as needed. -/
def fastXor (io : List Byte) (d : Digest) : List Byte :=
  io.mapIdx fun i b => b ^^^ d (Fin.ofNat 16 i)

def casBytes (casKeyStr : List Byte) (pkt : MediaPacket) : List Byte :=
  casKeyStr ++ (beBytes 4 pkt.seqno.toNat ++ (beBytes 4 pkt.timeStamp.toNat ++
    antiPollutionCode.take (antiPollutionCode.length / 2)))

def casMediapacket (md5 : List Byte → Digest) (pkt : MediaPacket) (casKeyStr : List Byte) :
    MediaPacket :=
  { pkt with payload := fastXor pkt.payload (md5 (casBytes casKeyStr pkt)) }

@[simp] theorem length_fastXor (io : List Byte) (d : Digest) : (fastXor io d).length = io.length := by
  simp [fastXor]

@[simp] theorem fastXor_fastXor (io : List Byte) (d : Digest) : fastXor (fastXor io d) d = io := by
  refine List.ext_getElem (by simp) fun i h h' => ?_
  simp only [fastXor,List.getElem_mapIdx,BitVec.xor_assoc,BitVec.xor_self,BitVec.xor_zero]

@[simp] theorem casMediapacket_casMediapacket (md5 : List Byte → Digest) (pkt : MediaPacket)
    (casKeyStr : List Byte) : casMediapacket md5 (casMediapacket md5 pkt casKeyStr) casKeyStr = pkt := by
  have hkey : casBytes casKeyStr (casMediapacket md5 pkt casKeyStr) = casBytes casKeyStr pkt := rfl
  rw [casMediapacket,hkey]
  simp [casMediapacket]

end SecurityPolicy
end P2Streaming
