import P2Streaming.ForwardErrorCorrection

/-!
# `media_distributor`: numbering, scrambling, signing and parity packets

`__do_distribute` gives a packet the next sequence number, scrambles and signs it, sends
it to the seed peers, and runs the error correction over it. The parity packets it gets
take the same way, except that they are not encoded again.
-/
namespace P2Streaming
open BigEndianBytes WrappableInteger SecurityPolicy

/-- What one call of `__do_distribute` reads from outside: the clock, the speed meter, the
verdict of `ts_parse` on the payload, and whether there are peers to push to. -/
structure DistributeEnv where
  now : BitVec 32
  packetRate : BitVec 9
  existKeyframe : Bool
  seeds : Bool

/-- The members of `media_distributor` that numbering and coding use. -/
structure MediaDistributor where
  mediaPktSeqSeed : BitVec 32
  sessionId : BitVec 8
  lastIframeSeqno : Option (BitVec 32)
  fecEncoder : FecEncoder

/-- Two sequence numbers in network order, read as one machine word. -/
def seqnoVec (a b : BitVec 32) : BitVec 64 :=
  BitVec.ofNat 64 (beValue (beBytes 4 a.toNat ++ beBytes 4 b.toNat).reverse)

namespace MediaDistributor

def create (mediaPktSeqSeed : BitVec 32) (sessionId : BitVec 8) : MediaDistributor where
  mediaPktSeqSeed := mediaPktSeqSeed
  sessionId := sessionId
  lastIframeSeqno := none
  fecEncoder := .create

/-- The keyframe search is made when none has been seen among the last fifty numbers. -/
def marksIframe (d : MediaDistributor) (env : DistributeEnv) : Bool :=
  d.lastIframeSeqno.all (fun last => 50 < wrappableMinus d.mediaPktSeqSeed last) &&
    env.existKeyframe

section
variable (md5 : List Byte → Digest) (casString channelUuid : List Byte)

/-- The header `__do_distribute` fills in before scrambling. -/
def number (d : MediaDistributor) (pkt : MediaPacket) (env : DistributeEnv) : MediaPacket :=
  { pkt with
    seqno := d.mediaPktSeqSeed
    timeStamp := env.now
    sessionId := d.sessionId
    hop := 0
    packetRate := env.packetRate
    priority := if d.marksIframe env then 3 else pkt.priority }

/-- Scrambling, signature and the numbers a packet carries along. -/
def sign (d : MediaDistributor) (pkt : MediaPacket) : MediaPacket :=
  let pkt := casMediapacket md5 pkt casString
  { pkt with
    antiPollutionSignature := signatureMediapacket md5 pkt channelUuid
    recentSeqnoMap := seqnoVec d.mediaPktSeqSeed d.mediaPktSeqSeed }

/-- The part of `__do_distribute` before the error correction. -/
def emit (d : MediaDistributor) (pkt : MediaPacket) (env : DistributeEnv) :
    MediaDistributor × MediaPacket :=
  let d := { d with mediaPktSeqSeed := d.mediaPktSeqSeed + 1 }
  let signedPkt := d.sign md5 casString channelUuid (d.number pkt env)
  ({ d with lastIframeSeqno := if d.marksIframe env then some d.mediaPktSeqSeed
      else d.lastIframeSeqno },
    -- `distribution_push` marks the packet as pushed when there is a peer to push it to
    { signedPkt with isPush := if env.seeds then 1 else signedPkt.isPush })

def emitAll (d : MediaDistributor) : List MediaPacket → List DistributeEnv →
    MediaDistributor × List (MediaPacket × MediaPacket)
  | pkt :: pkts, env :: envs =>
      let r := d.emit md5 casString channelUuid pkt env
      let rest := emitAll r.1 pkts envs
      (rest.1, (pkt, r.2) :: rest.2)
  | _, _ => (d, [])

/-- `media_distributor::__do_distribute` on a media packet, with the environments of the two
inner calls. The answer lists every packet given to the function with what was sent. -/
def doDistribute (d : MediaDistributor) (pkt : MediaPacket) (env fecEnv1 fecEnv2 : DistributeEnv) :
    MediaDistributor × List (MediaPacket × MediaPacket) :=
  let r := d.emit md5 casString channelUuid pkt env
  let enc := r.1.fecEncoder.push r.2
  let d := { r.1 with fecEncoder := enc.1 }
  let rest := d.emitAll md5 casString channelUuid (enc.2.getD []) [fecEnv1,fecEnv2]
  (rest.1, (pkt, r.2) :: rest.2)

variable {md5 casString channelUuid}

theorem casMediapacket_emit (d : MediaDistributor) (pkt : MediaPacket) (env : DistributeEnv) :
    (casMediapacket md5 (d.emit md5 casString channelUuid pkt env).2 casString).payload = pkt.payload :=
  fastXor_fastXor pkt.payload _

@[simp] theorem emit_fecEncoder (d : MediaDistributor) (pkt : MediaPacket) (env : DistributeEnv) :
    (d.emit md5 casString channelUuid pkt env).1.fecEncoder = d.fecEncoder := rfl

end

end MediaDistributor
end P2Streaming
