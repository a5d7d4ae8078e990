import P2Streaming.TimedKeepers
import P2Streaming.UrdpFlowState

/-!
# `basic_shared_udp_layer`: many flows behind one socket

The layer gives its flows ids, hands datagrams to the flow they are for and remembers
which flow a connection request has created. An id that has become free is reused only
after a while, and only when enough others are free. Times are milliseconds.
-/
namespace P2Streaming.Urdp
open BigEndianBytes TimedKeepers

def invalidFlowId : ℕ := 2^32 - 1

/-- `basic_local_id_allocator` as the layer sets it up: ids are reused, and 64 stay in reserve.
`availIdSet` is listed in the order in which the ids were released. -/
structure LocalIdAllocator where
  availIdSet : List ℕ
  tailId : ℕ
  deriving DecidableEq

namespace LocalIdAllocator

def lowWaterMark : ℕ := 64

def allocId (a : LocalIdAllocator) : LocalIdAllocator × ℕ :=
  match a.availIdSet with
  | id :: rest =>
      if lowWaterMark<a.availIdSet.length then ({ a with availIdSet := rest }, id)
      else ({ a with tailId := a.tailId + 1 }, a.tailId)
  | [] => ({ a with tailId := a.tailId + 1 }, a.tailId)

def releaseId (a : LocalIdAllocator) (id : ℕ) : LocalIdAllocator :=
  if id<a.tailId ∧ id ∉ a.availIdSet then { a with availIdSet := a.availIdSet ++ [id] } else a

end LocalIdAllocator

/-- What `request_uuid` is compared by. -/
structure RequestUuid where
  remoteEndpoint : Endpoint
  remotePeerId : BitVec 24
  session : BitVec 16
  deriving DecidableEq

structure Creation where
  uuid : RequestUuid
  flow : ℕ
  flowId : ℕ
  time : ℕ
  deriving DecidableEq

/-- `basic_shared_udp_layer`. Flows are numbered in the order in which they are registered.
`registered` lists the flows that are registered, with the ids they were given, `created` those
made for a request, and `clock` is the latest time that was seen. The text of `INVALID_DOMAIN` is
a parameter. -/
structure SharedUdpLayer where
  invalidDomain : List Byte
  acceptors : List (List Byte)
  flows : ℕ → Option ℕ
  idAllocator : LocalIdAllocator
  releasedIdCatch : List ℕ
  releasedIdKeeper : List (Element ℕ)
  requestUuidKeeper : List (Element (RequestUuid × ℕ))
  unreachableEndpointKeeper : List (Element Endpoint)
  nextFlow : ℕ
  registered : List (ℕ × ℕ)
  created : List Creation
  clock : ℕ

inductive Verdict where
  | delivered (flow : ℕ)
  | refused
  | dropped
  deriving DecidableEq

/-- `make_refuse_vistor`, on the basic header. -/
def makeRefuse (h : Header) : Header where
  control := .networkUnreachable
  peerId := h.peerId
  lostrateRecving := 0
  idForLostDetect := 0
  sessionId := h.sessionId
  window := 0

/-- `get_demain_name_vistor` for a connection request. -/
def domainName (invalidDomain sbuf : List Byte) : List Byte :=
  if reliableFormatSize<sbuf.length then sbuf.drop reliableFormatSize else invalidDomain

/-- The bytes in front of every datagram, `zero_8_bytes_`. -/
def zeroBytes : ℕ := 8

/-- What `async_send_to` puts on the wire. -/
def onWire (sbuf : List Byte) : List Byte := List.replicate zeroBytes 0 ++ sbuf

namespace SharedUdpLayer

def create (invalidDomain : List Byte) (acceptors : List (List Byte)) : SharedUdpLayer where
  invalidDomain := invalidDomain
  acceptors := acceptors
  flows := fun _ => none
  idAllocator := ⟨[],0⟩
  releasedIdCatch := []
  releasedIdKeeper := []
  requestUuidKeeper := []
  unreachableEndpointKeeper := []
  nextFlow := 0
  registered := []
  created := []
  clock := 0

abbrev releasedIds : Keeper ℕ ℕ := timedKeeperSet fun i => i

abbrev unreachableEndpoints : Keeper Endpoint Endpoint := timedKeeperSet fun e => e

/-- A `request_uuid` is compared without its `flow_id`. -/
abbrev requestUuids : Keeper (RequestUuid × ℕ) RequestUuid := timedKeeperSet Prod.fst

variable (s : SharedUdpLayer)

/-- `released_id_keeper_.is_keeped`. -/
def isKeeped (now id : ℕ) : Bool :=
  s.releasedIdKeeper.any fun e => now < e.outTime ∧ e.data=id

/-- The loop over `released_id_catch_`, which stops at the first id that is still kept. -/
def releaseLoop (now : ℕ) : List ℕ → SharedUdpLayer → SharedUdpLayer
  | [], s => { s with releasedIdCatch := [] }
  | id :: rest, s =>
      if s.isKeeped now id then { s with releasedIdCatch := id :: rest }
      else releaseLoop now rest { s with
        releasedIdCatch := rest
        idAllocator := s.idAllocator.releaseId id }

def swept (now : ℕ) : SharedUdpLayer :=
  releaseLoop now s.releasedIdCatch
    { s with clock := now, releasedIdKeeper := clearTimeout releasedIds now s.releasedIdKeeper }

/-- `register_flow`, with the number and the id of the flow; absent when it runs out of ids. -/
def registerFlow (now : ℕ) : Option (SharedUdpLayer × ℕ × ℕ) :=
  let s := s.swept now
  let r := s.idAllocator.allocId
  if invalidFlowId ≤ r.2 then none
  else
    some ({ s with
      idAllocator := r.1
      flows := Function.update s.flows r.2 (some s.nextFlow)
      nextFlow := s.nextFlow+1
      registered := (s.nextFlow, r.2) :: s.registered }, s.nextFlow, r.2)

def releaseFlowId (now id : ℕ) : SharedUdpLayer :=
  let s := { s with
    clock := now
    flows := Function.update s.flows id none
    releasedIdCatch := s.releasedIdCatch ++ [id]
    releasedIdKeeper := (tryKeep releasedIds now 64000 id s.releasedIdKeeper).1 }
  releaseLoop now s.releasedIdCatch s

/-- `unregister_flow`; its assertion demands that the flow is registered under the id. -/
def unregisterFlow (now flow id : ℕ) : SharedUdpLayer :=
  if (flow, id) ∈ s.registered then
    { s with registered := s.registered.erase (flow, id) }.releaseFlowId now id
  else s

/-- The end of `do_handle_received_urdp_msg`. A refusal is never answered. -/
def verdictFor (control : Ctrl) (dstPeerId : ℕ) : Verdict :=
  match if dstPeerId≠invalidFlowId then s.flows dstPeerId else none with
  | some flow => .delivered flow
  | none => if control = .networkUnreachable then .dropped else .refused

/-- A request for a domain without an acceptor. An endpoint is told so every two seconds. -/
def unreachable (now : ℕ) (sender : Endpoint) : SharedUdpLayer × Verdict :=
  let r := tryKeep unreachableEndpoints now 2000 sender s.unreachableEndpointKeeper
  ({ s with unreachableEndpointKeeper := r.1, clock := now }, if r.2 then .refused else .dropped)

/-- A connection request for a domain with an acceptor: a remembered one goes to its flow, any
other one creates a flow. `keepNow` is the time at which the request is remembered. -/
def request (now keepNow : ℕ) (uuid : RequestUuid) : SharedUdpLayer × Verdict :=
  match find requestUuids now uuid s.requestUuidKeeper with
  | some (_, flowId) => ({ s with clock := now }, s.verdictFor .connect flowId)
  | none =>
      match s.registerFlow now with
      | none => ({ s with clock := now }, .dropped)
      | some (s, flow, id) =>
          let s := { s with
            requestUuidKeeper :=
              (tryKeep requestUuids keepNow 60000 (uuid, id) s.requestUuidKeeper).1
            created := ⟨uuid,flow,id,now⟩ :: s.created
            clock := keepNow }
          (s, s.verdictFor .connect id)

def requestUuid (sbuf : List Byte) (sender : Endpoint) : RequestUuid :=
  let h := Header.decode sbuf
  ⟨sender,h.peerId,h.sessionId⟩

def doHandleReceivedUrdpMsg (now keepNow : ℕ) (sbuf : List Byte)
    (sender : Endpoint) : SharedUdpLayer × Verdict :=
  let h := Header.decode sbuf
  if h.control = .connect then
    if domainName s.invalidDomain sbuf ∈ s.acceptors then s.request now keepNow (requestUuid sbuf sender)
    else s.unreachable now sender
  else ({ s with clock := now }, s.verdictFor h.control h.peerId.toNat)

def doHandleReceived (now keepNow : ℕ) (buffer : List Byte)
    (sender : Endpoint) : SharedUdpLayer × Verdict :=
  if buffer.length < unreliableFormatSize + zeroBytes then ({ s with clock := now }, .dropped)
  else s.doHandleReceivedUrdpMsg now keepNow (buffer.drop zeroBytes) sender

inductive LayerEvent where
  | register (now : ℕ)
  | unregister (now flow id : ℕ)
  | received (now keepNow : ℕ) (buffer : List Byte) (sender : Endpoint)

def step : LayerEvent → SharedUdpLayer
  | .register now =>
      match s.registerFlow now with
      | none => { s with clock := now }
      | some (s, _, _) => s
  | .unregister now flow id => s.unregisterFlow now flow id
  | .received now keepNow buffer sender => (s.doHandleReceived now keepNow buffer sender).1

end SharedUdpLayer
end P2Streaming.Urdp
