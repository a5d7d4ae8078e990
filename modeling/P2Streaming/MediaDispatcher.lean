import P2Streaming.BoundedLoops
import P2Streaming.MediaRelay
import P2Streaming.SerialMaps

/-!
# `media_dispatcher`: packets on their way to the player

Received packets wait in a map and leave it in the order of their numbers, from a timer or
in the flush of `stop`. A missing number is first tried to be recovered, which inserts into
the map the loop is working on. Answers of the live dispatcher that depend on clocks and
rates, and sizes reported by the player, are taken from the environment of a call.
-/
namespace P2Streaming
open BigEndianBytes SecurityPolicy WrappableInteger BoundedLoops MediaPacket

def pieceSize : ℕ := 1350

def fecMaxCnt : ℕ := 4

def overstockedSize : ℤ := 2 * 1024 * 1024

/-- What stays fixed while a dispatcher runs. A vod dispatcher knows the last number of its
film; `minSeqno` and `readLimit` belong to the range test of `stream_scheduling`. -/
structure DispatchConfig where
  md5 : List Byte → Digest
  channelUuid : List Byte
  casString : List Byte
  vodMaxSeqno : Option (BitVec 32)
  offset : ℕ
  minSeqno : BitVec 32
  maxSeqno : BitVec 32
  readLimit : ℤ

inductive PlayerCall where
  | onRecvdMedia (data : List Byte) (srcId : BitVec 32) (channel : BitVec 4)
  | onMediaEnd (srcId : BitVec 32) (channel : BitVec 4)
  | systemLevelData (data : List Byte)
  deriving DecidableEq

/-- A packet that `fec_decode` brought in: the number it was asked for, the number at the head
of the map at that time, and the packet. -/
structure Recovery where
  asked : BitVec 32
  head : Option (BitVec 32)
  pkt : MediaPacket

/-- `media_dispatcher` with `smallest_seqno_i_care_` set, together with the memory packet cache
of the scheduling. The key of a packet in a map is its number. The last three fields record
what the media loops dispatched, what was recovered, and what the player got. -/
structure MediaDispatcher (n : ℕ) where
  mediaPktToPlayerCache : List MediaPacket
  fecMediaPktCache : List MediaPacket
  txtPktCache : List MediaPacket
  smallestSeqnoICare : BitVec 32
  smallestTxtSeqnoICare : Option (BitVec 32)
  isPlayerStarted : Bool
  flush : Bool
  minSeqno : BitVec 32
  memoryPacketCache : PacketBuffer n
  dispatched : List MediaPacket
  recoveries : List Recovery
  calls : List PlayerCall

namespace MediaDispatcher

variable {n : ℕ}

/-- `do_process_recvd_media_packet`: the part for the map of the player. -/
def keepForPlayer (d : MediaDispatcher n) (pkt : MediaPacket) : MediaDispatcher n :=
  if wrappableGreaterEqual pkt.seqno d.smallestSeqnoICare then
    { d with
      mediaPktToPlayerCache := SerialMaps.insert seqno pkt d.mediaPktToPlayerCache }
  else d

/-- `do_process_recvd_media_packet`. Parity packets older than the cursor are dropped when
another one comes. -/
def doProcessRecvdMediaPacket (d : MediaDispatcher n) (pkt : MediaPacket) : MediaDispatcher n :=
  let d := d.keepForPlayer pkt
  if pkt.level = .userLevel ∧ pkt.channelId=txtBroadcastChannel ∧
      d.smallestTxtSeqnoICare.all (fun s => wrappableLess s pkt.seqno) then
    { d with
      txtPktCache := SerialMaps.insert seqno pkt d.txtPktCache
      smallestTxtSeqnoICare := some (d.smallestTxtSeqnoICare.getD pkt.seqno) }
  else if pkt.level = .systemLevel ∧ pkt.channelId=fecMediaChannel then
    { d with
      fecMediaPktCache := SerialMaps.insert seqno pkt
        (d.fecMediaPktCache.dropWhile fun p => wrappableLess p.seqno d.smallestSeqnoICare) }
  else d

/-- `process_media_packet_from_nonsocket`, without the statistics. -/
def processMediaPacketFromNonsocket (d : MediaDispatcher n) (pkt : MediaPacket) (now : BitVec 32) :
    MediaDispatcher n :=
  let timeout := d.isPlayerStarted && wrappableLess pkt.seqno d.smallestSeqnoICare
  if d.memoryPacketCache.has pkt.seqno now ≠ .notHas then d
  else if timeout then d
  else
    let recovery : Recovery :=
      ⟨d.smallestSeqnoICare,d.mediaPktToPlayerCache.head?.map seqno,pkt⟩
    let memory := (d.memoryPacketCache.insert pkt now (some d.smallestSeqnoICare)).1
    { d with
      memoryPacketCache := memory
      recoveries := d.recoveries ++ [recovery] }.doProcessRecvdMediaPacket pkt

variable (cfg : DispatchConfig)

/-- `read_media_packet_from_nosocket` for bytes that were read without an error. -/
def readMediaPacketFromNosocket (d : MediaDispatcher n) (buf : List Byte)
    (seqno now : BitVec 32) : MediaDispatcher n :=
  let pkt := ofBuffer buf
  let diff := wrappableMinus seqno d.smallestSeqnoICare
  if cfg.vodMaxSeqno.isSome ∧ (wrappableLess seqno cfg.minSeqno ∨ wrappableGreater seqno cfg.maxSeqno ∨
      diff < 0 ∨ cfg.readLimit<diff) then d
  else if buf.length≤formatSize ∨
      signatureMediapacket cfg.md5 pkt cfg.channelUuid ≠ pkt.antiPollutionSignature then d
  else d.processMediaPacketFromNonsocket pkt now

/-- `fec_decode` for the number cared about. -/
def fecDecode (d : MediaDispatcher n) (now readNow : BitVec 32) :
    MediaDispatcher n × Bool :=
  match FecDecoder.decode cfg.md5 d.smallestSeqnoICare d.memoryPacketCache
      (fun k => SerialMaps.find seqno k d.fecMediaPktCache) cfg.casString now with
  | none => (d, false)
  | some decodeResult =>
      (d.readMediaPacketFromNosocket cfg decodeResult d.smallestSeqnoICare readNow, true)

/-- `vod_media_dispatcher::dispatch_media_packet`. -/
def vodDispatchMediaPacket (offset : ℕ) (minSeqno maxSeqno : BitVec 32) (pkt : MediaPacket) :
    List PlayerCall :=
  if wrappableLess pkt.seqno minSeqno then []
  else
    let data :=
      if pkt.seqno=minSeqno then pkt.payload.drop (min (offset % pieceSize) pkt.payload.length)
      else pkt.payload
    .onRecvdMedia data pkt.srcId32 pkt.channelId ::
      if pkt.seqno=maxSeqno then [.onMediaEnd pkt.srcId32 pkt.channelId] else []

/-- `dispatch_media_packet` of either dispatcher. -/
def dispatchMediaPacket (d : MediaDispatcher n) (pkt : MediaPacket) :
    List PlayerCall :=
  match cfg.vodMaxSeqno with
  | none => [.onRecvdMedia pkt.payload pkt.srcId32 pkt.channelId]
  | some maxSeqno => vodDispatchMediaPacket cfg.offset d.minSeqno maxSeqno pkt

/-- `media_dispatcher::dispatch`. The test for text packets has an empty body and no `else`,
so it decides nothing. -/
def dispatch (d : MediaDispatcher n) (orgPkt : MediaPacket) :
    MediaDispatcher n :=
  let pkt := casMediapacket cfg.md5 orgPkt cfg.casString
  let calls :=
    match dispatchRoute orgPkt with
    | .nothing => []
    | .systemLevelData => [.systemLevelData pkt.payload]
    | .media => dispatchMediaPacket cfg d pkt
  { d with calls := d.calls ++ calls }

/-- The end of a turn of either media loop: the cursor moves past the packet, the packet is
dispatched and the first element of the map is erased. -/
def push (d : MediaDispatcher n) (orgPkt : MediaPacket) : MediaDispatcher n :=
  let d := if wrappableGreaterEqual orgPkt.seqno d.smallestSeqnoICare then
    { d with smallestSeqnoICare := orgPkt.seqno + 1 } else d
  let d := d.dispatch cfg orgPkt
  { d with
    dispatched := d.dispatched ++ [orgPkt]
    mediaPktToPlayerCache := d.mediaPktToPlayerCache.tail }

def atCursor (d : MediaDispatcher n) : Bool :=
  d.mediaPktToPlayerCache.head?.map seqno == some d.smallestSeqnoICare

/-- The environment of one call: the clocks, the answers of the live dispatcher in the order
in which they are asked for, the limit `MAX_PUSH` for a player that has been started before,
and what the player has not yet consumed. -/
structure CallEnv where
  now : BitVec 32
  readNow : ℕ → BitVec 32
  serviceLogic : Bool
  recvdFirstPacketTime : Bool
  liveCanPlay : Bool
  liveAboutToPlay : List Bool
  maxPush : ℤ
  overstocked : ℤ

structure LoopState (n : ℕ) where
  d : MediaDispatcher n
  overstocked : ℤ
  fecCnt : ℕ
  pushedCnt : ℕ
  answers : List Bool

/-- `be_about_to_play` of either dispatcher. -/
def beAboutToPlay (s : LoopState n) (pkt : MediaPacket) : Bool :=
  match cfg.vodMaxSeqno with
  | none => s.answers.headD false
  | some maxSeqno =>
      s.d.smallestSeqnoICare == pkt.seqno && decide (s.overstocked<overstockedSize) &&
        (decide (512<s.d.mediaPktToPlayerCache.length) ||
          s.d.mediaPktToPlayerCache.getLast?.all fun last =>
            wrappableGreaterEqual (last.seqno+512) maxSeqno)

/-- `fecCnt++<FEC_MAX_CNT&&fec_decode(now)`. -/
def tryFec (env : CallEnv) (s : LoopState n) : LoopState n × Bool :=
  if s.fecCnt<fecMaxCnt then
    let r := s.d.fecDecode cfg env.now (env.readNow s.fecCnt)
    ({ s with d := r.1, fecCnt := s.fecCnt + 1 }, r.2)
  else ({ s with fecCnt := s.fecCnt + 1 }, false)

def LoopState.push (s : LoopState n) (orgPkt : MediaPacket) : LoopState n :=
  { s with
    d := s.d.push cfg orgPkt
    overstocked := s.overstocked+orgPkt.buffer.length
    pushedCnt := s.pushedCnt + 1 }

/-- The end of a turn of `on_dispatch_timer`. -/
def pushInTimer (maxPush : ℤ) (s : LoopState n) (orgPkt : MediaPacket) :
    Turn (LoopState n) :=
  let s := s.push cfg orgPkt
  if maxPush<s.pushedCnt then .leave s else .again s

/-- A turn of the media loop of `on_dispatch_timer`. The iterator always stands at the head of
the map, also after a recovery, while the packet at hand is the one that was there before. -/
def timerTurn (env : CallEnv) (maxPush : ℤ) (s : LoopState n) :
    Turn (LoopState n) :=
  match s.d.mediaPktToPlayerCache with
  | [] => .leave s
  | orgPkt :: rest =>
      if overstockedSize ≤ s.overstocked ∧ 1<s.pushedCnt then .leave s
      else if !beAboutToPlay cfg s orgPkt then .leave { s with answers := s.answers.tail }
      else
        let s := { s with answers := s.answers.tail }
        if wrappableLess orgPkt.seqno s.d.smallestSeqnoICare then
          .again { s with d := { s.d with mediaPktToPlayerCache := rest } }
        else if wrappableLess s.d.smallestSeqnoICare orgPkt.seqno then
          let r := tryFec cfg env s
          if r.2 && r.1.d.atCursor then .again r.1 else pushInTimer cfg maxPush r.1 orgPkt
        else pushInTimer cfg maxPush s orgPkt

/-- A turn of the flush in `stop`. The test for a packet below the cursor stands inside the
branch for packets above it. -/
def flushTurn (env : CallEnv) (s : LoopState n) : Turn (LoopState n) :=
  match s.d.mediaPktToPlayerCache with
  | [] => .leave s
  | orgPkt :: rest =>
      if wrappableLess s.d.smallestSeqnoICare orgPkt.seqno then
        if wrappableLess orgPkt.seqno s.d.smallestSeqnoICare then
          .again { s with d := { s.d with mediaPktToPlayerCache := rest } }
        else
          let r := tryFec cfg env s
          if r.2 && r.1.d.atCursor then .again r.1 else .again (r.1.push cfg orgPkt)
      else .again (s.push cfg orgPkt)

/-- Turns that are enough for either loop: every turn takes a packet out or tries a recovery,
which brings in one packet at most. -/
def turns (d : MediaDispatcher n) : ℕ := d.mediaPktToPlayerCache.length + 2 * fecMaxCnt + 1

def loopStart (d : MediaDispatcher n) (env : CallEnv) : LoopState n :=
  ⟨d,env.overstocked,0,0,env.liveAboutToPlay⟩

def stop (env : CallEnv) (d : MediaDispatcher n) : MediaDispatcher n :=
  if d.flush && d.isPlayerStarted && env.serviceLogic then
    (loop (flushTurn cfg env) d.turns (d.loopStart env)).d
  else d

/-- The text loop of `on_dispatch_timer`. -/
def dispatchTxt (d : MediaDispatcher n) : MediaDispatcher n :=
  { d.txtPktCache.foldl (fun d pkt =>
      ({ d with smallestTxtSeqnoICare := some pkt.seqno }).dispatch cfg pkt) d with txtPktCache := [] }

/-- `can_player_start` of either dispatcher, with its effect when the answer is yes. -/
def canPlayerStart (env : CallEnv) (d : MediaDispatcher n) :
    Option (MediaDispatcher n) :=
  match cfg.vodMaxSeqno with
  | some _ =>
      if env.recvdFirstPacketTime then
        some { d with isPlayerStarted := true, minSeqno := d.smallestSeqnoICare }
      else none
  | none =>
      match d.mediaPktToPlayerCache with
      | [] => none
      | pkt :: _ =>
          if env.recvdFirstPacketTime && env.liveCanPlay &&
              decide (50≤d.mediaPktToPlayerCache.length) then
            some { d with isPlayerStarted := true, smallestSeqnoICare := pkt.seqno }
          else none

/-- The media part of `on_dispatch_timer`, with a player that runs. -/
def dispatchMedia (env : CallEnv) (maxPush : ℤ) (d : MediaDispatcher n) :
    MediaDispatcher n :=
  (loop (timerTurn cfg env maxPush) d.turns (d.loopStart env)).d

def onDispatchTimer (env : CallEnv) (d : MediaDispatcher n) :
    MediaDispatcher n :=
  if d.mediaPktToPlayerCache.isEmpty || !env.serviceLogic then d
  else
    let d := d.dispatchTxt cfg
    if d.isPlayerStarted then d.dispatchMedia cfg env env.maxPush
    else
      match d.canPlayerStart cfg env with
      | none => d
      | some d => d.dispatchMedia cfg env 100

def setSmallestSeqnoICare (d : MediaDispatcher n) (seq : BitVec 32) : MediaDispatcher n :=
  { d with
    smallestSeqnoICare := seq
    mediaPktToPlayerCache := d.mediaPktToPlayerCache.dropWhile fun p => wrappableLess p.seqno seq }

/-- What happens to a dispatcher between two moves of its cursor from outside. Whatever else
the scheduling does to the memory packet cache is `memory`. -/
inductive Event (n : ℕ) where
  | recvd (pkt : MediaPacket)
  | memory (cache : PacketBuffer n)
  | setFlush (flush : Bool)
  | timer (env : CallEnv)
  | stop (env : CallEnv)

def step (d : MediaDispatcher n) : Event n → MediaDispatcher n
  | .recvd pkt => d.doProcessRecvdMediaPacket pkt
  | .memory cache => { d with memoryPacketCache := cache }
  | .setFlush flush => { d with flush }
  | .timer env => d.onDispatchTimer cfg env
  | .stop env => d.stop cfg env

end MediaDispatcher
end P2Streaming
