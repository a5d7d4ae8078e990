import P2Streaming.PacketBuffer
import P2Streaming.SecurityPolicy
import P2Streaming.XorParity

/-!
# `fec.cpp`: two interleaved parity packets for every thirty media packets

Sequence numbers come in blocks of thirty-two. The media packets of a block form two
substreams, the even and the odd numbers, and the last two numbers of the block belong
to their parity packets.
-/
namespace P2Streaming
open BigEndianBytes XorParity SecurityPolicy

/-- `FEC_M`, the media packets of a substream of a block. -/
def fecM : ℕ := 15

/-- `FEC_N`, the substreams. -/
def fecN : ℕ := 2

structure PacketFec where
  m : ℕ
  mm : ℕ
  lenHeader : BitVec 32
  buf : List Byte
  decoder : Bool

namespace PacketFec

def create (m : ℕ) (decoder : Bool) : PacketFec := ⟨m,0,0,[],decoder⟩

def reset (f : PacketFec) : PacketFec := { f with lenHeader := 0, buf := [], mm := 0 }

/-- `buf_` once a packet has been added: the common part is summed up, and a longer packet
brings in its rest. -/
def addTo (buf mediaPacket : List Byte) : List Byte :=
  let minLen := min buf.length mediaPacket.length
  List.zipWith (· ^^^ ·) (buf.take minLen) (mediaPacket.take minLen) ++
    if buf.length < mediaPacket.length then mediaPacket.drop minLen else buf.drop minLen

/-- What a decoder cuts out of its buffer: the last four bytes hold the sum of the lengths. -/
def cutResult (result : List Byte) (lenHeader : BitVec 32) : List Byte :=
  if result.length<4 then []
  else
    let lenResult := BitVec.ofNat 32 (beValue (result.drop (result.length - 4))) ^^^ lenHeader
    if lenResult.toInt<0 ∨ (BitVec.ofNat 32 result.length).toInt < lenResult.toInt then []
    else result.take lenResult.toInt.toNat

/-- `packet_fec::operator()`; the result is there when the `m`-th packet has come. -/
def push (f : PacketFec) (mediaPacket : List Byte) : PacketFec × Option (List Byte) :=
  let buf := addTo f.buf mediaPacket
  let lenHeader := f.lenHeader ^^^ BitVec.ofNat 32 mediaPacket.length
  if f.mm + 1 = f.m then
    (f.reset, some (
      if f.decoder then cutResult buf lenHeader
      else buf ++ beBytes 4 (lenHeader ^^^ BitVec.ofNat 32 (buf.length+4)).toNat))
  else ({ f with mm := f.mm+1, buf, lenHeader }, none)

theorem addTo_eq_xorPad (a b : List Byte) : addTo a b = xorPad a b := by
  induction a, b using xorPad.induct with
  | case1 b => cases b <;> simp [addTo,xorPad]
  | case2 x a => simp [addTo,xorPad]
  | case3 x a y b ih =>
    rw [xorPad,← ih]
    simp [addTo,Nat.succ_min_succ]

end PacketFec

structure FecEncoder where
  fec : Fin 2 → PacketFec
  fecPackets : List MediaPacket
  foundFirstFecSeqno : Bool

namespace FecEncoder

def create : FecEncoder where
  fec := fun _ => .create fecM false
  fecPackets := []
  foundFirstFecSeqno := false

/-- The parity packet for a result of `packet_fec`. -/
def parityPacket (buf : List Byte) : MediaPacket :=
  { MediaPacket.blank with level := .systemLevel, channelId := fecMediaChannel, payload := buf }

def restart (e : FecEncoder) (i : ℕ) : FecEncoder :=
  if i<fecN then
    { e with
      foundFirstFecSeqno := if i=0 then true else e.foundFirstFecSeqno
      fec := Function.update e.fec (Fin.ofNat 2 i) (e.fec (Fin.ofNat 2 i)).reset }
  else e

/-- The rest of `fec_encoder::operator()`, for the substream of the packet. -/
def encode (e : FecEncoder) (j : Fin 2) (pkt : MediaPacket) : FecEncoder × Option (List MediaPacket) :=
  let r := (e.fec j).push pkt.buffer
  let e := { e with
    fec := Function.update e.fec j r.1
    fecPackets := e.fecPackets ++ (r.2.map parityPacket).toList }
  if e.fecPackets.length=fecN then ({ e with fecPackets := [] }, some e.fecPackets)
  else (e, none)

/-- `fec_encoder::operator()`. The width of a sequence number is a multiple of the block size,
so the test `GOOD` always holds. -/
def push (e : FecEncoder) (pkt : MediaPacket) : FecEncoder × Option (List MediaPacket) :=
  let i := pkt.seqno.toNat % (fecN * (fecM+1))
  let e := e.restart i
  if !e.foundFirstFecSeqno then (e, none) else e.encode (Fin.ofNat 2 i) pkt

end FecEncoder

namespace FecDecoder

variable {n : ℕ}

/-- The numbers `fec_decoder` looks at for a lost one: its substream and the parity packet. -/
def substream (theLostSeqno : BitVec 32) : List (BitVec 32) :=
  let fecSeq := theLostSeqno.toNat % (fecN * (fecM+1))
  let fecSub := theLostSeqno.toNat % fecN
  let fecFirstSeqno := theLostSeqno - BitVec.ofNat 32 fecSeq + BitVec.ofNat 32 fecSub
  (List.range (fecM+1)).map fun i => fecFirstSeqno + BitVec.ofNat 32 (fecN*i)

def fecEncodeSeq (theLostSeqno : BitVec 32) : BitVec 32 :=
  let fecSeq := theLostSeqno.toNat % (fecN * (fecM+1))
  let fecSub := theLostSeqno.toNat % fecN
  theLostSeqno - BitVec.ofNat 32 fecSeq + BitVec.ofNat 32 fecSub + BitVec.ofNat 32 (fecN*fecM)

/-- The second loop of `fec_decoder::operator()`. -/
def decodeLoop (mediaPackets : PacketBuffer n) (now : BitVec 32) :
    List (BitVec 32) → PacketFec → Option (List Byte)
  | [], _ => none
  | seq :: rest, f =>
      match mediaPackets.get seq now with
      | none => none
      | some tmpPkt =>
          match f.push tmpPkt.buffer with
          | (_, some decodeResult) => some decodeResult
          | (f, none) => decodeLoop mediaPackets now rest f

/-- `fec_decoder::operator()`; the answer is absent when it returns false. -/
def decode (md5 : List Byte → Digest) (theLostSeqno : BitVec 32) (mediaPackets : PacketBuffer n)
    (fecPkts : BitVec 32 → Option MediaPacket) (casstring : List Byte) (now : BitVec 32) :
    Option (List Byte) :=
  match fecPkts (fecEncodeSeq theLostSeqno) with
  | none => none
  | some fecPkt =>
      let others := (substream theLostSeqno).filter (· ≠ theLostSeqno)
      if others.all fun seq => mediaPackets.has seq now ≠ .notHas then
        let f := (PacketFec.create fecM true).push (casMediapacket md5 fecPkt casstring).payload
        decodeLoop mediaPackets now others f.1
      else none

end FecDecoder
end P2Streaming
