import P2Streaming.BigEndianBytes

/-!
# `media_packet.h`: the unit of distribution

A media packet is a header of thirty-two bytes followed by the payload. Bit fields
are packed from the most significant bit of their word, and every bit of the header
belongs to a field.
-/
namespace P2Streaming
open BigEndianBytes

inductive Level where
  | systemLevel | userLevel
  deriving DecidableEq, Repr

def Level.code : Level → ℕ
  | .systemLevel => 0
  | .userLevel => 1

def txtBroadcastChannel : BitVec 4 := 0xe

def fecMediaChannel : BitVec 4 := 0xd

/-- `media_packet_header::def`, with the bytes after it. -/
structure MediaPacket where
  srcId32 : BitVec 32
  timeStamp : BitVec 32
  seqno : BitVec 32
  packetRate : BitVec 9
  hop : BitVec 7
  sessionId : BitVec 8
  level : Level
  channelId : BitVec 4
  priority : BitVec 2
  isPush : BitVec 1
  recentSeqnoMap : BitVec 64
  antiPollutionSignature : BitVec 64
  payload : List Byte
  deriving DecidableEq, Repr

namespace MediaPacket

def formatSize : ℕ := 32

/-- The bytes `media_packet::buffer()` holds. -/
def buffer (p : MediaPacket) : List Byte :=
  beBytes 4 p.srcId32.toNat ++ (beBytes 4 p.timeStamp.toNat ++ (beBytes 4 p.seqno.toNat ++
    (beBytes 2 (p.packetRate.toNat * 2^7 + p.hop.toNat) ++ (beBytes 1 p.sessionId.toNat ++
      (beBytes 1 (p.level.code * 2^7 + p.channelId.toNat * 2^3 + p.priority.toNat * 2 +
          p.isPush.toNat) ++
        (beBytes 8 p.recentSeqnoMap.toNat ++
          (beBytes 8 p.antiPollutionSignature.toNat ++ p.payload)))))))

theorem length_buffer (p : MediaPacket) : p.buffer.length=formatSize+p.payload.length := by
  simp only [buffer,List.length_append,length_beBytes,formatSize]
  omega

/-- The number in the `len` bytes at an offset of a buffer. -/
def field (buf : List Byte) (off len : ℕ) : ℕ := beValue ((buf.drop off).take len)

/-- `media_packet(buf)`, a packet read from bytes it has received. -/
def ofBuffer (buf : List Byte) : MediaPacket where
  srcId32 := BitVec.ofNat 32 (field buf 0 4)
  timeStamp := BitVec.ofNat 32 (field buf 4 4)
  seqno := BitVec.ofNat 32 (field buf 8 4)
  packetRate := BitVec.ofNat 9 (field buf 12 2 / 2^7)
  hop := BitVec.ofNat 7 (field buf 12 2)
  sessionId := BitVec.ofNat 8 (field buf 14 1)
  level := if field buf 15 1 / 2^7 = 0 then .systemLevel else .userLevel
  channelId := BitVec.ofNat 4 (field buf 15 1 / 2^3)
  priority := BitVec.ofNat 2 (field buf 15 1 / 2)
  isPush := BitVec.ofNat 1 (field buf 15 1)
  recentSeqnoMap := BitVec.ofNat 64 (field buf 16 8)
  antiPollutionSignature := BitVec.ofNat 64 (field buf 24 8)
  payload := buf.drop formatSize

/-- A packet as `media_packet()` creates it. -/
def blank : MediaPacket where
  srcId32 := 0
  timeStamp := 0
  seqno := 0
  packetRate := 0
  hop := 0
  sessionId := 0
  level := .userLevel
  channelId := 0
  priority := 0
  isPush := 0
  recentSeqnoMap := 0
  antiPollutionSignature := 0
  payload := []

end MediaPacket
end P2Streaming
