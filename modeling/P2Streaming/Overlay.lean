import Mathlib.Data.List.AList
import P2Streaming.TimedKeepers

/-!
# `overlay`: where a client keeps the peers it knows

A peer is a member, a pending peer that is being connected, an unreachable member, or a
neighbour with its connection. Pending and unreachable peers are forgotten after a while; what
the keepers hold is read at the clock of the overlay. Connections are compared as pointers. The
connections the overlay has closed are noted, as they are no longer connected from then on.
-/
namespace P2Streaming
open TimedKeepers

/-- `neighbor_map`, without its local ids: at most `maxPeerCnt_` connections, one for an id. -/
structure NeighborMap (Id Conn : Type*) where
  maxPeerCnt : ℕ
  container : AList fun _ : Id => Conn
  bounded : container.entries.length ≤ maxPeerCnt

namespace NeighborMap

variable {Id Conn : Type*} [DecidableEq Id] (m : NeighborMap Id Conn)

def size : ℕ := m.container.entries.length

def find (id : Id) : Option Conn := m.container.lookup id

def conns : List Conn := m.container.entries.map Sigma.snd

/-- `neighbor_map::insert`, which refuses when the map is full. -/
def insert (id : Id) (conn : Conn) : NeighborMap Id Conn × Bool :=
  if hfull : m.maxPeerCnt ≤ m.size then (m, false)
  else if hmem : id∈m.container then (m, false)
  else
    ({ m with
        container := m.container.insert id conn
        bounded := by
          rw [AList.entries_insert_of_notMem hmem]
          exact Nat.lt_of_not_le hfull },
      true)

def erase (id : Id) : NeighborMap Id Conn :=
  { m with
    container := m.container.erase id
    bounded := Nat.le_trans (List.kerase_sublist id m.container.entries).length_le m.bounded }

def clear : NeighborMap Id Conn := { m with container := ∅, bounded := Nat.zero_le _ }

end NeighborMap

/-- What a connection and a peer are, once and for all; `opened` tells older connections from
newer ones. -/
structure Links (Id Peer Conn : Type*) where
  peerId : Peer → Id
  peer : Conn → Peer
  sessionId : Conn → ℕ
  opened : Conn → ℕ

/-- What a call finds outside: whether the client service still exists, which connections are
connected, have a positive alive probability or are gone, which peers are offline, and for
`try_shrink_neighbors` which connections may be choked and how fast they are. -/
structure OverlayEnv (Id Conn : Type*) where
  service : Bool
  connected : Conn → Bool
  alive : Conn → Bool
  expired : Conn → Bool
  offline : Id → Bool
  chokable : Conn → Bool
  speed : Conn → ℕ

/-- `overlay`, as a `stream_topology` or else a `hub_topology`. Times are in milliseconds. -/
structure Overlay (Id Peer Conn : Type*) where
  stream : Bool
  clock : ℕ
  maxNeighborCnt : ℤ
  members : AList fun _ : Id => Peer
  pendingPeers : List (Element (Id × Peer))
  unreachableMembers : List (Element (Id × Peer))
  neighborsConn : NeighborMap Id Conn
  unreachableMark : Peer → ℕ
  lowCapacityPeerKeeper : List (Element Id)
  pendingActiveSockets : List (Element Conn)
  pendingPassiveSockets : List (Element Conn)
  prepareClosingConnections : List (Conn × ℕ)
  lastChokeNeighborTime : ℕ
  closed : List Conn

namespace Overlay

variable {Id Peer Conn : Type*} [DecidableEq Id] [DecidableEq Peer] [DecidableEq Conn]
  (L : Links Id Peer Conn) (env : OverlayEnv Id Conn)

variable (x : Overlay Id Peer Conn)

/-- `conn->close()`. -/
def close (conn : Conn) : Overlay Id Peer Conn := { x with closed := conn :: x.closed }

def isConnected (conn : Conn) : Bool := env.connected conn && !x.closed.contains conn

def insertToMembers (id : Id) (p : Peer) : Overlay Id Peer Conn × Bool :=
  if id∈x.members then (x, false) else ({ x with members := x.members.insert id p }, true)

def insertToUnreachableMembers (id : Id) (p : Peer) : Overlay Id Peer Conn :=
  { x with unreachableMembers := (tryKeep timedKeeperMap x.clock 600000 (id, p) x.unreachableMembers).1 }

def insertToNeighbors (id : Id) (conn : Conn) : Overlay Id Peer Conn × Bool :=
  ({ x with neighborsConn := (x.neighborsConn.insert id conn).1 }, (x.neighborsConn.insert id conn).2)

/-- `__close`. -/
def stop : Overlay Id Peer Conn :=
  { x with
    closed := x.neighborsConn.conns ++ x.pendingActiveSockets.map Element.data ++
      x.pendingPassiveSockets.map Element.data ++ x.closed
    neighborsConn := x.neighborsConn.clear
    pendingActiveSockets := []
    pendingPassiveSockets := [] }

/-- `erase_offline_peer` and `erase_low_capacity_peer`, which differ in the order of the erasures. -/
def eraseOfflinePeer (id : Id) : Overlay Id Peer Conn :=
  { x with
    neighborsConn := x.neighborsConn.erase id
    members := x.members.erase id
    pendingPeers := erase timedKeeperMap x.clock id x.pendingPeers
    unreachableMembers := erase timedKeeperMap x.clock id x.unreachableMembers }

def eraseLowCapacityPeer (id : Id) : Overlay Id Peer Conn := x.eraseOfflinePeer id

def markReachable (p : Peer) : Overlay Id Peer Conn :=
  { x with unreachableMark := Function.update x.unreachableMark p 0 }

def neighborToMember (conn : Conn) : Overlay Id Peer Conn × Bool :=
  if ¬ env.service then (x.stop, false)
  else
    let p := L.peer conn
    let id := L.peerId p
    let x := x.markReachable p
    if env.offline id then (x.eraseOfflinePeer id, false)
    else
      insertToMembers
        { x with
          neighborsConn := x.neighborsConn.erase id
          unreachableMembers := erase timedKeeperMap x.clock id x.unreachableMembers
          pendingPeers := erase timedKeeperMap x.clock id x.pendingPeers } id p

/-- The choice of `try_shrink_neighbors`: of the connections that may be choked, the first one of
lowest speed. -/
def lowestConn (conns : List Conn) : Option Conn :=
  conns.foldl (fun best conn =>
    if env.chokable conn ∧ best.all (fun b => env.speed conn < env.speed b) then some conn else best) none

/-- The part of `try_shrink_neighbors` that closes the connection it has prepared. -/
def chokeNeighbor (conn : Conn) : Overlay Id Peer Conn :=
  let x := ((x.close conn).neighborToMember L env conn).1
  let x := { x with lastChokeNeighborTime := x.clock }
  let id := L.peerId (L.peer conn)
  if 50<x.members.entries.length then
    { x.eraseLowCapacityPeer id with
      lowCapacityPeerKeeper := (tryKeep (timedKeeperSet fun id =>
        id) x.clock 20000 id x.lowCapacityPeerKeeper).1 }
  else x

/-- `try_shrink_neighbors` of either topology. -/
def tryShrinkNeighbors (explicitShrink : Bool) : Overlay Id Peer Conn :=
  if ¬ x.stream then x
  else
    match x.prepareClosingConnections with
    | [] =>
      let interval := if explicitShrink then 6000 else 30000
      if x.lastChokeNeighborTime + interval ≤ x.clock then
        { x with
          prepareClosingConnections :=
            (lowestConn env x.neighborsConn.conns).toList.map fun conn => (conn, x.clock + 3000) }
      else x
    | (conn, eraseTime) :: rest =>
      if eraseTime<x.clock then
        if env.expired conn ∨ ¬ x.isConnected env conn then { x with prepareClosingConnections := rest }
        else { x.chokeNeighbor L env conn with prepareClosingConnections := rest }
      else x

/-- The end of `to_neighbor` for a connection that takes the place of an old one. -/
def replaceNeighbor (id : Id) (oldConn conn : Conn) : Overlay Id Peer Conn × Bool :=
  insertToNeighbors { x.close oldConn with neighborsConn := x.neighborsConn.erase id } id conn

/-- The connection of a new neighbour meets the one that is stored for its peer; the one with the
smaller session is closed. -/
def contend (id : Id) (oldConn conn : Conn) : Overlay Id Peer Conn × Bool :=
  if oldConn=conn then (x, false)
  else if ¬ x.isConnected env oldConn ∨ ¬ env.alive oldConn then x.replaceNeighbor id oldConn conn
  else if ¬ x.isConnected env conn ∨ ¬ env.alive conn then (x.close conn, false)
  else if L.sessionId conn < L.sessionId oldConn then (x.close conn, false)
  else x.replaceNeighbor id oldConn conn

/-- A peer without a stored connection becomes a neighbour, or a member again. Whether the map
takes the connection is not asked. -/
def admitPeer (conn : Conn) (maxNbrCnt : ℤ) : Overlay Id Peer Conn × Bool :=
  let p := L.peer conn
  let x := if maxNbrCnt≤x.neighborsConn.size then x.tryShrinkNeighbors L env false else x
  if maxNbrCnt≤x.neighborsConn.size then (((x.close conn).insertToMembers (L.peerId p) p).1, false)
  else ((x.insertToNeighbors (L.peerId p) conn).1, true)

/-- A connected peer is reachable and leaves every container but `neighbors_conn_`. -/
def withdraw (p : Peer) : Overlay Id Peer Conn :=
  { x.markReachable p with
    unreachableMembers := erase timedKeeperMap x.clock (L.peerId p) x.unreachableMembers
    members := x.members.erase (L.peerId p)
    pendingPeers := erase timedKeeperMap x.clock (L.peerId p) x.pendingPeers }

def toNeighbor (conn : Conn) (maxNbrCnt : ℤ) : Overlay Id Peer Conn × Bool :=
  if ¬ env.service then (x.stop, false)
  else
    let id := L.peerId (L.peer conn)
    if ¬ x.isConnected env conn then (x.eraseOfflinePeer id, false)
    else
      let x := x.withdraw L (L.peer conn)
      match x.neighborsConn.find id with
      | some oldConn => x.contend L env id oldConn conn
      | none => x.admitPeer L env conn maxNbrCnt

/-- `member_to_pending`; an entry of `unreachable_members_` is not erased. -/
def memberToPending (conn : Conn) : Overlay Id Peer Conn × Bool :=
  if ¬ env.service then (x.stop, false)
  else
    let p := L.peer conn
    let id := L.peerId p
    let x := { x with members := x.members.erase id }
    if x.neighborsConn.find id = none then
      ({ x with
          pendingActiveSockets := (tryKeep (timedKeeperSet fun conn =>
            conn) x.clock 60000 conn x.pendingActiveSockets).1
          pendingPeers := (tryKeep timedKeeperMap x.clock 60000 (id, p)
            (erase timedKeeperMap x.clock id x.pendingPeers)).1 },
        true)
    else (x, false)

def pendingToMember (p : Peer) : Overlay Id Peer Conn × Bool :=
  if ¬ env.service then (x.stop, false)
  else
    let id := L.peerId p
    let x := { x with pendingPeers := erase timedKeeperMap x.clock id x.pendingPeers }
    if env.offline id then (x.eraseOfflinePeer id, false)
    else if x.neighborsConn.find id = none then
      let x := { x with unreachableMark := Function.update x.unreachableMark p (x.unreachableMark p + 1) }
      if 3 ≤ x.unreachableMark p then
        ({ x.insertToUnreachableMembers id p with members := x.members.erase id }, false)
      else if Keeps timedKeeperMap x.clock id x.unreachableMembers then (x, false)
      else x.insertToMembers id p
    else
      ({ x.markReachable p with
          members := x.members.erase id
          unreachableMembers := erase timedKeeperMap x.clock id x.unreachableMembers },
        false)

def knownNewPeer (id : Id) (p : Peer) : Overlay Id Peer Conn :=
  if Keeps (timedKeeperSet fun id => id) x.clock id x.lowCapacityPeerKeeper then x
  else if ¬ Keeps timedKeeperMap x.clock id x.pendingPeers ∧
    ¬ Keeps timedKeeperMap x.clock id x.unreachableMembers ∧
      x.neighborsConn.find id = none then (x.insertToMembers id p).1
  else x

/-- `on_connected`, as far as the containers go. -/
def onConnected (conn : Conn) (ok : Bool) : Overlay Id Peer Conn :=
  if ok then
    (toNeighbor L env
      { x with pendingActiveSockets := erase (timedKeeperSet
        fun conn => conn) x.clock conn x.pendingActiveSockets }
      conn x.maxNeighborCnt).1
  else
    let id := L.peerId (L.peer conn)
    let x := (x.pendingToMember L env (L.peer conn)).1
    { x with lowCapacityPeerKeeper := (tryKeep
      (timedKeeperSet fun id => id) x.clock 10000 id x.lowCapacityPeerKeeper).1 }

/-- `on_disconnected`, for a connection whose peer is known. -/
def onDisconnected (conn : Conn) : Overlay Id Peer Conn :=
  (x.neighborToMember L env conn).1

/-- An unreachable member that has been picked is released, and becomes a member or not. -/
def releaseOne (pick : Id × Bool) : Overlay Id Peer Conn :=
  match TimedKeepers.find timedKeeperMap x.clock pick.1 x.unreachableMembers with
  | none => x
  | some (id, p) =>
    let x := { x with unreachableMembers := erase timedKeeperMap x.clock id x.unreachableMembers }
    if pick.2 then (x.insertToMembers id p).1 else x

/-- The part of `on_neighbor_maintainer_timer` that gives unreachable members another try when
there are no members. -/
def releaseUnreachable (picks : List (Id × Bool)) : Overlay Id Peer Conn :=
  if x.members.entries.length≠0 then x else (picks.take 3).foldl releaseOne x

end Overlay

inductive OverlayCall (Id Peer Conn : Type*) where
  | knownNewPeer (id : Id) (p : Peer)
  | memberToPending (conn : Conn)
  | pendingToMember (p : Peer)
  | toNeighbor (conn : Conn) (maxNbrCnt : ℤ)
  | neighborToMember (conn : Conn)
  | eraseOfflinePeer (id : Id)
  | eraseLowCapacityPeer (id : Id)
  | connected (conn : Conn) (ok : Bool)
  | disconnected (conn : Conn)
  | tryShrinkNeighbors (explicitShrink : Bool)
  | releaseUnreachable (picks : List (Id × Bool))
  | stop
  | wait

structure OverlayEvent (Id Peer Conn : Type*) where
  elapsed : ℕ
  env : OverlayEnv Id Conn
  call : OverlayCall Id Peer Conn

namespace Overlay

variable {Id Peer Conn : Type*} [DecidableEq Id] [DecidableEq Peer] [DecidableEq Conn]
  (L : Links Id Peer Conn)

def handle (env : OverlayEnv Id Conn) (x : Overlay Id Peer Conn) : OverlayCall
    Id Peer Conn → Overlay Id Peer Conn
  | .knownNewPeer id p => x.knownNewPeer id p
  | .memberToPending conn => (x.memberToPending L env conn).1
  | .pendingToMember p => (x.pendingToMember L env p).1
  | .toNeighbor conn maxNbrCnt => (x.toNeighbor L env conn maxNbrCnt).1
  | .neighborToMember conn => (x.neighborToMember L env conn).1
  | .eraseOfflinePeer id => x.eraseOfflinePeer id
  | .eraseLowCapacityPeer id => x.eraseLowCapacityPeer id
  | .connected conn ok => x.onConnected L env conn ok
  | .disconnected conn => x.onDisconnected L env conn
  | .tryShrinkNeighbors explicitShrink => x.tryShrinkNeighbors L env explicitShrink
  | .releaseUnreachable picks => x.releaseUnreachable picks
  | .stop => x.stop
  | .wait => x

def step (x : Overlay Id Peer Conn) (e : OverlayEvent Id Peer Conn) : Overlay Id Peer Conn :=
  handle L e.env { x with clock := x.clock + e.elapsed } e.call

/-- A new `overlay`. -/
def create (stream : Bool) (maxPeerCnt : ℕ) (maxNeighborCnt : ℤ) (now : ℕ) : Overlay Id Peer Conn where
  stream := stream
  clock := now
  maxNeighborCnt := maxNeighborCnt
  members := ∅
  pendingPeers := []
  unreachableMembers := []
  neighborsConn := ⟨maxPeerCnt,∅,Nat.zero_le _⟩
  unreachableMark := fun _ => 0
  lowCapacityPeerKeeper := []
  pendingActiveSockets := []
  pendingPassiveSockets := []
  prepareClosingConnections := []
  lastChokeNeighborTime := now
  closed := []

end Overlay

end P2Streaming
