import P2Streaming.MemberTable

/-!
# `member_service`: channels without viewers are parked

A channel that loses its last viewer while its server is connected is removed, and a copy of
what is known of it is parked, from which `get_channel` makes the channel again. A server that
logs in again makes a new channel next to the parked copy, and the next removal keeps the copy
that is there.
-/
namespace P2Streaming

/-- The fields of `peer_info` that the tracker sets for the server of a live channel. -/
structure ServerStatus (Rest : Type*) where
  natType : ℕ
  uploadCapacity : ℕ
  infoVersion : ℕ
  rest : Rest

namespace MemberService

/-- `tracker_param`: whether the type is of a live category, and the external address. -/
structure TrackerParam where
  live : Bool
  bForShunt : Bool
  externalIp : ℕ
  externalPort : ℕ

/-- `channel`, without its viewers and timers. -/
structure Channel (Socket Info Live Vod : Type*) where
  serverSocket : Option Socket
  serverInfo : Info
  liveChannelInfo : Option Live
  vodChannelInfo : Option Vod
  deriving DecidableEq

/-- `suspend_channel` has the same four members. -/
abbrev EmptyChannel := Channel

end MemberService

open MemberService in
/-- `member_service`: `channel_set_` and `empty_channels_`. -/
structure MemberService (Uuid Socket Info Live Vod : Type*) where
  channelSet : Uuid → Option (Channel Socket Info Live Vod)
  emptyChannels : Uuid → Option (EmptyChannel Socket Info Live Vod)

namespace MemberService

variable {Uuid Socket Info Live Vod : Type*} [DecidableEq Uuid]

/-- `create_channel`; a new channel has the information of an empty message. -/
def createChannel [Inhabited Info] (x : MemberService Uuid Socket Info Live Vod) (id : Uuid)
    (conn : Option Socket) :
    MemberService Uuid Socket Info Live Vod × Channel Socket Info Live Vod :=
  let c : Channel Socket Info Live Vod := match x.channelSet id with
    | some c => { c with serverSocket := conn }
    | none => ⟨conn,default,none,none⟩
  ({ x with channelSet := Function.update x.channelSet id (some c) }, c)

def restoreChannel (p : TrackerParam) (c : Channel Socket Info Live Vod)
    (e : EmptyChannel Socket Info Live Vod) : Option (Channel Socket Info Live Vod) :=
  if p.live ∧ e.liveChannelInfo.isSome then some { c with liveChannelInfo := e.liveChannelInfo }
  else if e.vodChannelInfo.isSome then some { c with vodChannelInfo := e.vodChannelInfo }
  else none

def getChannel [Inhabited Info] (p : TrackerParam) (x : MemberService Uuid Socket Info Live Vod)
    (id : Uuid) : MemberService Uuid Socket Info Live Vod × Option (Channel Socket Info Live Vod) :=
  match x.channelSet id with
  | some c => (x, some c)
  | none =>
    match x.emptyChannels id with
    | none => (x, none)
    | some e =>
      let (x, c) := x.createChannel id e.serverSocket
      let x := { x with emptyChannels := Function.update x.emptyChannels id none }
      let restored := restoreChannel p { c with serverInfo := e.serverInfo } e
      ({ x with channelSet := Function.update x.channelSet id restored }, restored)

/-- `remove_channel`; `connected` says so of the server's socket. -/
def removeChannel [Inhabited Info] (p : TrackerParam) (x : MemberService Uuid Socket Info Live Vod)
    (id : Uuid) (connected : Bool) : MemberService Uuid Socket Info Live Vod :=
  match x.getChannel p id with
  | (x, none) => x
  | (x, some c) =>
    let parked := if c.serverSocket.isSome ∧ connected then (x.emptyChannels id).or
      (some c) else x.emptyChannels id
    { channelSet := Function.update x.channelSet id none
      emptyChannels := Function.update x.emptyChannels id parked }

/-- The address of the server as the tracker gives it to the viewers. -/
def realServerInfo {Id Rest : Type*} (p : TrackerParam) (remote : Remote) (info : PeerInfo Id Rest) :
    PeerInfo Id Rest :=
  let port := if p.bForShunt then p.externalPort else remote.port
  { info with
    externalIp := if p.bForShunt then p.externalIp else info.externalIp
    externalUdpPort := if remote.udp then port else info.externalUdpPort
    externalTcpPort := if remote.udp then info.externalTcpPort else port }

/-- `channel::start` for a live channel. -/
def startLive {Id Rest : Type*} (now : ℕ) (c : Channel Socket (PeerInfo Id (ServerStatus Rest)) Live Vod)
    (info : PeerInfo Id (ServerStatus Rest)) (live : Live) :
    Channel Socket (PeerInfo Id (ServerStatus Rest)) Live Vod :=
  { c with
    serverInfo := { info with
      joinTime := now
      rest := { info.rest with natType := 0, uploadCapacity := 1024*1024, infoVersion := 0 } }
    liveChannelInfo := some live }

/-- `channel::start` for a vod channel. -/
def startVod (c : Channel Socket Info Live Vod) (info : Info) (vod : Vod) :
    Channel Socket Info Live Vod :=
  { c with serverInfo := info, vodChannelInfo := some vod }

section Start

variable {Id Rest : Type*} [Inhabited (PeerInfo Id (ServerStatus Rest))]

/-- `start_any_channel` with the information of a live or of a vod channel. -/
def startAnyChannel (p : TrackerParam) (x : MemberService Uuid Socket
    (PeerInfo Id (ServerStatus Rest)) Live Vod)
    (id : Uuid) (info : PeerInfo Id (ServerStatus Rest)) (conn : Socket) (remote : Remote) (now : ℕ)
    (channelInfo : Live ⊕ Vod) : MemberService Uuid Socket (PeerInfo Id (ServerStatus Rest)) Live Vod :=
  let (x, c) := x.createChannel id (some conn)
  let info := realServerInfo p remote info
  let c := match channelInfo with
    | .inl live => startLive now c info live
    | .inr vod => startVod c info vod
  { x with channelSet := Function.update x.channelSet id (some c) }

end Start

end MemberService

/-- The calls of `member_service`. -/
inductive ServiceCall (Uuid Socket Info Live Vod : Type*) where
  | startAnyChannel (id : Uuid) (info : Info) (conn : Socket) (remote : Remote) (now : ℕ)
    (channelInfo : Live ⊕ Vod)
  | removeChannel (id : Uuid) (connected : Bool)
  | getChannel (id : Uuid)

namespace MemberService

variable {Uuid Socket Live Vod Id Rest : Type*} [DecidableEq Uuid]
  [Inhabited (PeerInfo Id (ServerStatus Rest))]

def callId {Info : Type*} : ServiceCall Uuid Socket Info Live Vod → Uuid
  | .startAnyChannel id .. => id
  | .removeChannel id _ => id
  | .getChannel id => id

def step (p : TrackerParam) (x : MemberService Uuid Socket (PeerInfo Id (ServerStatus Rest)) Live Vod) :
    ServiceCall Uuid Socket (PeerInfo Id (ServerStatus Rest)) Live Vod →
      MemberService Uuid Socket (PeerInfo Id (ServerStatus Rest)) Live Vod
  | .startAnyChannel id info conn remote now channelInfo =>
    x.startAnyChannel p id info conn remote now channelInfo
  | .removeChannel id connected => x.removeChannel p id connected
  | .getChannel id => (x.getChannel p id).1

/-- The channel has one of the two kinds of information, and one that `restore_channel` puts back. -/
def SoleInfo {Info : Type*} (p : TrackerParam) (c : Channel Socket Info Live Vod) : Prop :=
  if c.liveChannelInfo.isSome then p.live ∧ c.vodChannelInfo = none else c.vodChannelInfo.isSome

/-- A parked copy that holds what the channel has, as far as `restore_channel` looks. -/
def SameCopy {Info : Type*} (p : TrackerParam) (c : Channel Socket Info Live Vod)
    (e : EmptyChannel Socket Info Live Vod) : Prop :=
  e.serverSocket=c.serverSocket ∧ e.serverInfo=c.serverInfo ∧
    if c.liveChannelInfo.isSome then e.liveChannelInfo = c.liveChannelInfo
    else e.vodChannelInfo = c.vodChannelInfo ∧ (p.live → e.liveChannelInfo=none)

section Parking

variable {Info : Type*} {p : TrackerParam} {c e : Channel Socket Info Live Vod}

theorem SameCopy.refl (p : TrackerParam) (c : Channel Socket Info Live Vod) : SameCopy p c c := by
  refine ⟨rfl,rfl,?_⟩
  split_ifs with hlive
  · rfl
  · exact ⟨rfl,fun _ => Option.not_isSome_iff_eq_none.mp hlive⟩

theorem restoreChannel_iff :
    restoreChannel p ⟨e.serverSocket,e.serverInfo,none,none⟩ e = some c ↔ SoleInfo p c ∧
    SameCopy p c e := by
  obtain ⟨socket,info,live,vod⟩ := c
  obtain ⟨socket',info',live',vod'⟩ := e
  unfold restoreChannel SoleInfo SameCopy
  -- each side looks only at which of the pieces of information are there
  cases hp : p.live <;> cases live <;> cases live' <;> cases vod <;> cases vod' <;> simp

variable [Inhabited Info] {x : MemberService Uuid Socket Info Live Vod} {id : Uuid}

theorem getChannel_parked (hset : x.channelSet id = none) (hempty : x.emptyChannels id = some e) :
    (x.getChannel p id).2 = restoreChannel p ⟨e.serverSocket,e.serverInfo,none,none⟩ e ∧
      (x.getChannel p id).1.emptyChannels id = none := by
  unfold getChannel createChannel
  simp [hset,hempty]

theorem getChannel_cases (hc : (x.getChannel p id).2 = some c) :
    (x.channelSet id = some c ∧ (x.getChannel p id).1 = x) ∨
      (x.channelSet id = none ∧ SoleInfo p c ∧ (x.getChannel p id).1.emptyChannels id = none) := by
  cases hset : x.channelSet id with
  | some d =>
    have hget : x.getChannel p id = (x, some d) := by
      unfold getChannel
      rw [hset]
    rw [hget] at hc ⊢
    exact Or.inl ⟨hc,rfl⟩
  | none =>
    cases hempty : x.emptyChannels id with
    | some e =>
      obtain ⟨hrestored,hgone⟩ := getChannel_parked (p := p) hset hempty
      exact Or.inr ⟨rfl,(restoreChannel_iff.mp (hrestored.symm.trans hc)).1,hgone⟩
    | none =>
      unfold getChannel at hc
      rw [hset,hempty] at hc
      exact nomatch hc

theorem removeChannel_parks (hc : (x.getChannel p id).2 = some c) (hsocket : c.serverSocket.isSome) :
    (x.removeChannel p id true).channelSet id = none ∧
      (x.removeChannel p id true).emptyChannels id =
      some (((x.getChannel p id).1.emptyChannels id).getD c) := by
  obtain ⟨⟨y,r⟩,hy⟩ : ∃ y, x.getChannel p id = y := ⟨_,rfl⟩
  rw [hy] at hc ⊢
  obtain rfl : r = some c := hc
  unfold removeChannel
  rw [hy]
  cases hparked : y.emptyChannels id <;> simp [hsocket,hparked]

end Parking

def entry {Info : Type*} (x : MemberService Uuid Socket Info Live Vod) (id : Uuid) :
    Option (Channel Socket Info Live Vod) × Option (EmptyChannel Socket Info Live Vod) :=
  (x.channelSet id, x.emptyChannels id)

section Frame

variable {Info : Type*} [Inhabited Info] {p : TrackerParam} {id id' : Uuid}

theorem entry_getChannel_of_ne (x : MemberService Uuid Socket Info Live Vod) (h : id'≠id) :
    (x.getChannel p id).1.entry id' = x.entry id' := by
  unfold getChannel createChannel entry
  split
  · rfl
  · split
    · rfl
    · simp [h]

theorem entry_removeChannel_of_ne (x : MemberService Uuid Socket Info Live Vod) (connected : Bool)
    (h : id'≠id) : (x.removeChannel p id connected).entry id' = x.entry id' := by
  rw [← entry_getChannel_of_ne (p := p) x h]
  unfold removeChannel
  split
  · rename_i y hy
    rw [hy]
  · rename_i y c hy
    rw [hy]
    simp [entry,h]

end Frame

theorem entry_step_of_ne {p : TrackerParam} {id : Uuid}
    (x : MemberService Uuid Socket (PeerInfo Id (ServerStatus Rest)) Live Vod)
    {e : ServiceCall Uuid Socket (PeerInfo Id (ServerStatus Rest)) Live Vod} (h : callId e ≠ id) :
    (x.step p e).entry id = x.entry id := by
  cases e with
  | startAnyChannel id' =>
    have hne : id≠id' := fun heq => h heq.symm
    simp [step,startAnyChannel,createChannel,entry,hne]
  | removeChannel id' connected => exact x.entry_removeChannel_of_ne connected fun heq => h heq.symm
  | getChannel id' => exact x.entry_getChannel_of_ne fun heq => h heq.symm

theorem entry_run_of_ne {p : TrackerParam} {id : Uuid}
    (es : List (ServiceCall Uuid Socket (PeerInfo Id (ServerStatus Rest)) Live Vod))
    (h : ∀ e∈es, callId e ≠ id)
    (x : MemberService Uuid Socket (PeerInfo Id (ServerStatus Rest)) Live Vod) :
    (es.foldl (step p) x).entry id = x.entry id := by
  induction es generalizing x with
  | nil => rfl
  | cons e es ih =>
    rw [List.forall_mem_cons] at h
    rw [List.foldl_cons,ih h.2,entry_step_of_ne x h.1]

/-- A channel with a connected server is removed, calls on other channels follow, and it is asked
for again: it comes back as it was just when it has one kind of information and no other copy of
it was parked before. -/
theorem parked_channel_restored_iff (p : TrackerParam)
    (x : MemberService Uuid Socket (PeerInfo Id (ServerStatus Rest)) Live Vod) (id : Uuid)
    (c : Channel Socket (PeerInfo Id (ServerStatus Rest)) Live Vod)
    (es : List (ServiceCall Uuid Socket (PeerInfo Id (ServerStatus Rest)) Live Vod))
    (hc : (x.getChannel p id).2 = some c) (hsocket : c.serverSocket.isSome)
      (hes : ∀ e∈es, callId e ≠ id) :
    (((es.foldl (step p) (x.removeChannel p id true)).getChannel p id).2 = some c ∧
        ((es.foldl (step p) (x.removeChannel p id true)).getChannel p id).1.emptyChannels id = none) ↔
      SoleInfo p c ∧ ∀ e, (x.channelSet id).isSome → x.emptyChannels id = some e → SameCopy p c e := by
  obtain ⟨hset,hempty⟩ := removeChannel_parks hc hsocket
  have hrun := entry_run_of_ne (p := p) es hes (x.removeChannel p id true)
  obtain ⟨y,hy⟩ : ∃ y, es.foldl (step p) (x.removeChannel p id true) = y := ⟨_,rfl⟩
  rw [hy] at hrun ⊢
  have hset' : y.channelSet id = none := (congrArg Prod.fst hrun).trans hset
  obtain ⟨hback,hgone⟩ := getChannel_parked (p := p) hset' ((congrArg Prod.snd hrun).trans hempty)
  rw [hback,restoreChannel_iff,and_iff_left hgone]
  refine and_congr_right fun _ => ?_
  rcases getChannel_cases hc with ⟨hin,hsame⟩ | ⟨hin,-,hnone⟩
  · rw [hsame,hin]
    cases x.emptyChannels id with
    | none => simpa using SameCopy.refl p c
    | some e => simp
  · rw [hnone,hin]
    simpa using SameCopy.refl p c

section Example

instance : Inhabited (PeerInfo Unit (ServerStatus Unit)) := ⟨⟨(),.server,0,0,0,0,⟨0,0,0,()⟩⟩⟩

def liveTracker : TrackerParam := ⟨true,false,0,0⟩

def login (id socket : ℕ) : ServiceCall ℕ ℕ (PeerInfo Unit (ServerStatus Unit)) ℕ ℕ :=
  .startAnyChannel id default socket ⟨1,80,true⟩ 0 (.inl 5)

def loggedIn : MemberService ℕ ℕ (PeerInfo Unit (ServerStatus Unit)) ℕ ℕ :=
  [login 7 1].foldl (step liveTracker) ⟨fun _ => none,fun _ => none⟩

theorem logged_in_channel_restored : ∃ c, (loggedIn.getChannel liveTracker 7).2 = some c ∧
    (([login 8 3].foldl (step liveTracker) (loggedIn.removeChannel liveTracker 7 true)).getChannel
      liveTracker 7).2 = some c := by
  refine ⟨_,rfl,?_⟩
  refine ((parked_channel_restored_iff liveTracker loggedIn 7 _ [login 8 3] rfl rfl ?_).mpr
    ⟨⟨rfl,rfl⟩,?_⟩).1
  · simp [login,callId]
  · exact fun e _ hparked => nomatch hparked

def loggedInAgain : MemberService ℕ ℕ (PeerInfo Unit (ServerStatus Unit)) ℕ ℕ :=
  [login 7 1,.removeChannel 7 true,login 7 2].foldl (step liveTracker) ⟨fun _ => none,fun _ => none⟩

theorem new_socket_lost : ∃ c, (loggedInAgain.getChannel liveTracker 7).2 = some c ∧
    c.serverSocket = some 2 ∧
    ((loggedInAgain.removeChannel liveTracker 7 true).getChannel liveTracker 7).2 ≠ some c := by
  refine ⟨_,rfl,rfl,fun hback => ?_⟩
  have hsocket := congrArg (Option.map Channel.serverSocket) hback
  exact absurd hsocket (by decide)

end Example

end MemberService

end P2Streaming
