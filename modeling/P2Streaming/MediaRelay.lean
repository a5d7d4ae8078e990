import P2Streaming.MediaDistributor

/-!
# Media packets on their way through the overlay

Servers and relaying clients rewrite header fields of the packets they pass on. None of
these fields enters the signature or the key stream, so a packet arrives with a valid
signature and the payload it left with. The fields the signature leaves out also include
some that decide what a receiver does with a packet.
-/
namespace P2Streaming
open BigEndianBytes SecurityPolicy

inductive Transit where
  /-- `stream_scheduling::process_recvd_media_packet` counts the hop. -/
  | recvd
  /-- `modify_media_packet_header_before_send`, with `recent_insert()` of the packet cache. -/
  | beforeSend (recentInsert : List (BitVec 32)) (isPush : Bool)
  /-- `stream_scheduling::do_subscription_push`. -/
  | subscriptionPush
  /-- `media_distributor::distribution_push`. -/
  | distributionPush
  /-- `media_distributor::do_pull_distribute`, with the number it advertises. -/
  | pullDistribute (seqForBufferMap : BitVec 32)

namespace MediaPacket

/-- `modify_media_packet_header_before_send`: two recent numbers, or its own. -/
def modifyHeaderBeforeSend (pkt : MediaPacket) (recentInsert : List (BitVec 32)) (isPush : Bool) :
    MediaPacket :=
  { pkt with
    isPush := if isPush then 1 else 0
    recentSeqnoMap := seqnoVec (recentInsert.getD 0 pkt.seqno) (recentInsert.getD 1 pkt.seqno) }

def transit (pkt : MediaPacket) : Transit → MediaPacket
  | .recvd => { pkt with hop := pkt.hop + 1 }
  | .beforeSend recentInsert isPush => pkt.modifyHeaderBeforeSend recentInsert isPush
  | .subscriptionPush => { pkt with isPush := 1 }
  | .distributionPush => { pkt with isPush := 1 }
  | .pullDistribute seq => { pkt with recentSeqnoMap := seqnoVec seq seq, isPush := 0 }

def relayed (pkt : MediaPacket) (chain : List (List Transit)) : MediaPacket :=
  chain.foldl (fun p node => node.foldl transit p) pkt

section
variable (md5 : List Byte → Digest) (channelUuid : List Byte)

/-- The comparison `on_recvd_media_packet` and `read_media_packet_from_nosocket` make. -/
def AntiPollutionCheck (pkt : MediaPacket) : Prop :=
  signatureMediapacket md5 pkt channelUuid = pkt.antiPollutionSignature

/-- `read_media_packet_from_nosocket` takes the packet over: it has a payload and passes the
check. -/
def ReadAccepts (pkt : MediaPacket) : Prop :=
  formatSize<pkt.buffer.length ∧ pkt.AntiPollutionCheck md5 channelUuid

/-- The payload `media_dispatcher::dispatch` works on. -/
def dispatchedPayload (pkt : MediaPacket) (casString : List Byte) : List Byte :=
  (casMediapacket md5 pkt casString).payload

/-- The fields signature and key stream depend on, and the signature itself. -/
def SameSealed (p q : MediaPacket) : Prop :=
  q.seqno=p.seqno ∧ q.timeStamp=p.timeStamp ∧ q.payload=p.payload ∧
    q.antiPollutionSignature=p.antiPollutionSignature

theorem sameSealed_transit (p : MediaPacket) (t : Transit) : SameSealed p (p.transit t) := by
  cases t <;> exact ⟨rfl,rfl,rfl,rfl⟩

theorem SameSealed.trans {p q r : MediaPacket} (h : SameSealed p q) (h' : SameSealed q r) :
    SameSealed p r :=
  ⟨h'.1.trans h.1,h'.2.1.trans h.2.1,h'.2.2.1.trans h.2.2.1,h'.2.2.2.trans h.2.2.2⟩

theorem sameSealed_node (p : MediaPacket) (node : List Transit) :
    SameSealed p (node.foldl transit p) := by
  induction node generalizing p with
  | nil => exact ⟨rfl,rfl,rfl,rfl⟩
  | cons t node ih => exact (sameSealed_transit p t).trans (ih (p.transit t))

theorem sameSealed_relayed (p : MediaPacket) (chain : List (List Transit)) :
    SameSealed p (p.relayed chain) := by
  induction chain generalizing p with
  | nil => exact ⟨rfl,rfl,rfl,rfl⟩
  | cons node chain ih => exact (sameSealed_node p node).trans (ih (node.foldl transit p))

variable {md5 channelUuid}

theorem SameSealed.check {p q : MediaPacket} (h : SameSealed p q)
    (hp : p.AntiPollutionCheck md5 channelUuid) : q.AntiPollutionCheck md5 channelUuid := by
  obtain ⟨hseq,htime,hpayload,hsig⟩ := h
  have hbytes : signedBytes channelUuid q = signedBytes channelUuid p := by
    rw [signedBytes,hseq,htime,hpayload,signedBytes]
  rw [AntiPollutionCheck,signatureMediapacket,hbytes,hsig]
  exact hp

theorem SameSealed.dispatchedPayload {p q : MediaPacket} (h : SameSealed p q)
    (casString : List Byte) : q.dispatchedPayload md5 casString = p.dispatchedPayload md5 casString := by
  obtain ⟨hseq,htime,hpayload,-⟩ := h
  have hbytes : casBytes casString q = casBytes casString p := by
    rw [casBytes,hseq,htime,casBytes]
  rw [MediaPacket.dispatchedPayload,casMediapacket,hbytes,hpayload]
  rfl

end
end MediaPacket

namespace MediaDistributor
open MediaPacket

variable {md5 : List Byte → Digest} {casString channelUuid : List Byte}

theorem emit_intact (d : MediaDistributor) (pkt : MediaPacket) (env : DistributeEnv) :
    (d.emit md5 casString channelUuid pkt env).2.AntiPollutionCheck md5 channelUuid ∧
      (d.emit md5 casString channelUuid pkt env).2.dispatchedPayload md5 casString = pkt.payload :=
  ⟨rfl,casMediapacket_emit d pkt env⟩

theorem emitAll_intact (pkts : List MediaPacket) (envs : List DistributeEnv) (d : MediaDistributor)
    {given sent : MediaPacket} (h : (given, sent) ∈ (d.emitAll md5 casString channelUuid pkts envs).2) :
    sent.AntiPollutionCheck md5 channelUuid ∧
      sent.dispatchedPayload md5 casString = given.payload := by
  induction pkts generalizing d envs with
  | nil => simp [emitAll] at h
  | cons pkt pkts ih =>
    cases envs with
    | nil => simp [emitAll] at h
    | cons env envs =>
      rcases List.mem_cons.mp h with heq | h
      · obtain ⟨rfl,rfl⟩ := heq
        exact emit_intact d _ env
      · exact ih envs _ h

theorem doDistribute_intact (d : MediaDistributor) (pkt : MediaPacket)
    (env fecEnv1 fecEnv2 : DistributeEnv) {given sent : MediaPacket}
    (h : (given, sent) ∈ (d.doDistribute md5 casString channelUuid pkt env fecEnv1 fecEnv2).2) :
    sent.AntiPollutionCheck md5 channelUuid ∧
      sent.dispatchedPayload md5 casString = given.payload := by
  rcases List.mem_cons.mp h with heq | h
  · obtain ⟨rfl,rfl⟩ := heq
    exact emit_intact d _ env
  · exact emitAll_intact _ _ _ h

end MediaDistributor

section
open MediaPacket

/-- Every packet a distributor emits, media or parity, passes the check at every node of every
chain of relays, is taken over from a store exactly when it has a payload at all, and yields
the payload the server was given. -/
theorem relayed_packet_intact (md5 : List Byte → Digest)
    (generateSharedKey : List Byte → List Byte → List Byte) (channelUuid : List Byte)
    (d : MediaDistributor) (pkt : MediaPacket) (env fecEnv1 fecEnv2 : DistributeEnv)
    (given sent : MediaPacket)
    (h : (given, sent) ∈ (d.doDistribute md5 (generateSharedKey channelUuid []) channelUuid
      pkt env fecEnv1 fecEnv2).2) (chain : List (List Transit)) :
    (sent.relayed chain).AntiPollutionCheck md5 channelUuid ∧
      ((sent.relayed chain).ReadAccepts md5 channelUuid ↔ given.payload≠[]) ∧
      (sent.relayed chain).dispatchedPayload md5 (generateSharedKey channelUuid []) =
        given.payload := by
  obtain ⟨hcheck,hpayload⟩ := MediaDistributor.doDistribute_intact d pkt env fecEnv1 fecEnv2 h
  have hsame := sameSealed_relayed sent chain
  have hdispatched := (hsame.dispatchedPayload _).trans hpayload
  refine ⟨hsame.check hcheck,?_,hdispatched⟩
  have hlen : (sent.relayed chain).payload.length = given.payload.length := by
    rw [← hdispatched,MediaPacket.dispatchedPayload,casMediapacket,length_fastXor]
  rw [ReadAccepts,and_iff_left (hsame.check hcheck),length_buffer,hlen,
    ← List.length_pos_iff]
  omega

def lengthDigest (bytes : List Byte) : Digest := fun i => BitVec.ofNat 8 (bytes.length+i.val)

def firstPacket : MediaPacket := { MediaPacket.blank with payload := [7] }

def idleEnv : DistributeEnv := ⟨1000,40,false,true⟩

/-- `firstPacket` as it leaves a distributor. -/
def firstSent : MediaPacket :=
  ((MediaDistributor.create 0 0).emit lengthDigest [1] [1] firstPacket idleEnv).2

theorem firstPacket_relayed_intact :
    (firstSent.relayed [[.pullDistribute 1],[.recvd,.beforeSend [1] true],[.recvd]]).payload ≠ [7] ∧
    (firstSent.relayed [[.pullDistribute 1],[.recvd,.beforeSend [1] true],[.recvd]]).dispatchedPayload
      lengthDigest [1] = [7] := by
  refine ⟨by decide,?_⟩
  exact (relayed_packet_intact lengthDigest (fun channel _ => channel) [1] (.create 0 0) firstPacket
    idleEnv idleEnv idleEnv firstPacket firstSent List.mem_cons_self _).2.2

/-- How `process_recvd_media_packet` reacts to the session of a packet. -/
inductive SessionReaction where
  | adopt | resetScheduling | proceed
  deriving DecidableEq

def sessionReaction (serverSessionId : Option (BitVec 8)) (isLive : Bool) (pkt : MediaPacket) :
    SessionReaction :=
  match serverSessionId with
  | none => .adopt
  | some session => if isLive && session != pkt.sessionId then .resetScheduling else .proceed

/-- What `media_dispatcher::dispatch` makes of a packet. -/
inductive DispatchRoute where
  | nothing | systemLevelData | media
  deriving DecidableEq

def dispatchRoute (pkt : MediaPacket) : DispatchRoute :=
  if pkt.channelId=fecMediaChannel ∧ pkt.level = .systemLevel then .nothing
  else if pkt.level = .systemLevel then .systemLevelData
  else .media

/-- Two packets agree on everything that decides what a receiver does. -/
structure AgreeOnBehaviour (p q : MediaPacket) : Prop where
  seqno : p.seqno=q.seqno
  timeStamp : p.timeStamp=q.timeStamp
  sessionId : p.sessionId=q.sessionId
  level : p.level=q.level
  channelId : p.channelId=q.channelId
  payload : p.payload=q.payload

theorem beBytes_four_inj {x y : BitVec 32} (h : beBytes 4 x.toNat = beBytes 4 y.toNat) : x=y := by
  have hv := congrArg beValue h
  rw [beValue_beBytes x.isLt,beValue_beBytes y.isLt] at hv
  exact BitVec.eq_of_toNat_eq hv

theorem signedBytes_inj {channelUuid : List Byte} {p q : MediaPacket}
    (h : signedBytes channelUuid p = signedBytes channelUuid q) :
    p.seqno=q.seqno ∧ p.timeStamp=q.timeStamp ∧ p.payload=q.payload := by
  have h1 := List.append_cancel_left h
  obtain ⟨hseq,h2⟩ := List.append_inj h1 (by simp)
  obtain ⟨htime,h3⟩ := List.append_inj h2 (by simp)
  exact ⟨beBytes_four_inj hseq,beBytes_four_inj htime,List.append_cancel_right h3⟩

/-- Two packets that pass the check with one signature agree on what decides a receiver's
behaviour exactly when they agree on the three header fields the signature leaves out. -/
theorem same_signature_agree_iff (md5 : List Byte → Digest) (channelUuid : List Byte)
    (p q : MediaPacket) (hp : p.AntiPollutionCheck md5 channelUuid)
    (hq : q.AntiPollutionCheck md5 channelUuid) (hsig : p.antiPollutionSignature=q.antiPollutionSignature)
    (noCollision : signatureMediapacket md5 p channelUuid = signatureMediapacket md5 q channelUuid →
      signedBytes channelUuid p = signedBytes channelUuid q) : AgreeOnBehaviour p q ↔
      p.sessionId = q.sessionId ∧ p.level=q.level ∧ p.channelId=q.channelId := by
  have hsame : signatureMediapacket md5 p channelUuid = signatureMediapacket md5 q channelUuid :=
    hp.trans (hsig.trans hq.symm)
  obtain ⟨hseq,htime,hpayload⟩ := signedBytes_inj (noCollision hsame)
  constructor
  · intro h
    exact ⟨h.sessionId,h.level,h.channelId⟩
  · rintro ⟨hsession,hlevel,hchannel⟩
    exact ⟨hseq,htime,hsession,hlevel,hchannel,hpayload⟩

theorem relayed_firstPacket_agrees : AgreeOnBehaviour firstSent (firstSent.relayed [[.recvd]]) :=
  (same_signature_agree_iff lengthDigest [1] firstSent (firstSent.relayed [[.recvd]]) rfl rfl rfl
    (fun _ => rfl)).mpr ⟨rfl,rfl,rfl⟩

def tampered : MediaPacket := { firstSent with sessionId := 1, level := .systemLevel }

/-- It passes the check with the signature of the genuine packet, but makes a live receiver
reset its scheduling and treat media as a system message. -/
theorem tampered_packet_accepted :
    firstSent.AntiPollutionCheck lengthDigest [1] ∧ tampered.AntiPollutionCheck lengthDigest [1] ∧
    tampered.antiPollutionSignature=firstSent.antiPollutionSignature ∧
    sessionReaction (some firstSent.sessionId) true firstSent = .proceed ∧
    sessionReaction (some firstSent.sessionId) true tampered = .resetScheduling ∧
    dispatchRoute firstSent = .media ∧ dispatchRoute tampered = .systemLevelData :=
  ⟨rfl,rfl,rfl,rfl,rfl,rfl,rfl⟩

end
end P2Streaming
