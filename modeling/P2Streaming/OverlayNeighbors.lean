import P2Streaming.OverlayPlaces

/-!
# Taking a connection as a neighbour

`to_neighbor` answers whether the connection is stored afterwards, unless the connection was
stored already or `neighbor_map` is full below the limit the caller has in mind. A lost
connection takes whatever is stored for its peer out of `neighbors_conn_`.
-/
namespace P2Streaming
open TimedKeepers

namespace Overlay

variable {Id Peer Conn : Type*} [DecidableEq Id] [DecidableEq Peer] [DecidableEq Conn]
  (L : Links Id Peer Conn) (env : OverlayEnv Id Conn)

/-- The answer of `to_neighbor` is whether the connection is stored. On a refusal the connection
is closed, or was stored, and its peer keeps a place. -/
def AllOrNothing (x : Overlay Id Peer Conn) (conn : Conn) (r : Overlay Id Peer Conn × Bool) : Prop :=
  (r.2=true ↔ r.1.neighborsConn.find (L.peerId (L.peer conn)) = some conn) ∧
    (r.2=false → (conn∈r.1.closed ∨ x.neighborsConn.find (L.peerId (L.peer conn)) = some conn) ∧
      ∃ p, r.1.In (L.peerId (L.peer conn)) p)

/-- The connection is not stored yet, and the map is not full while the limit allows more. An
overlay without its client service closes what it holds, so there the connection has to be one of
those, and its peer known elsewhere. -/
def Acceptable (x : Overlay Id Peer Conn) (conn : Conn) (maxNbrCnt : ℤ) : Prop :=
  if env.service then
    x.neighborsConn.find (L.peerId (L.peer conn)) ≠ some conn ∧
      (x.neighborsConn.find (L.peerId (L.peer conn)) = none →
        ¬ (x.neighborsConn.size=x.neighborsConn.maxPeerCnt ∧ (x.neighborsConn.maxPeerCnt : ℤ) <
          maxNbrCnt))
  else
    conn ∈ x.neighborsConn.conns ++ x.pendingActiveSockets.map Element.data ++
      x.pendingPassiveSockets.map Element.data ∧
      ∃ p, p ≠ .neighborsConn ∧ x.In (L.peerId (L.peer conn)) p

variable {L env} {x y : Overlay Id Peer Conn} {conn oldConn : Conn}

omit [DecidableEq Peer] [DecidableEq Conn] in
theorem allOrNothing_of_stored {r : Overlay Id Peer Conn × Bool} (hr : r.2=true)
    (hfind : r.1.neighborsConn.find (L.peerId (L.peer conn)) = some conn) : AllOrNothing L x conn r :=
  ⟨iff_of_true hr hfind,fun hfalse => absurd (hr.symm.trans hfalse) nofun⟩

omit [DecidableEq Peer] [DecidableEq Conn] in
theorem allOrNothing_of_closed {r : Overlay Id Peer Conn × Bool} (hr : r.2=false)
    (hfind : r.1.neighborsConn.find (L.peerId (L.peer conn)) ≠ some conn)
    (hclosed : conn∈r.1.closed) {p : Place}
    (hp : r.1.In (L.peerId (L.peer conn)) p) : AllOrNothing L x conn r :=
  ⟨iff_of_false (by simp [hr]) hfind,fun _ => ⟨.inl hclosed,p,hp⟩⟩

omit [DecidableEq Peer] [DecidableEq Conn] in
theorem allOrNothing_replaceNeighbor (hold : y.neighborsConn.find (L.peerId (L.peer conn)) =
    some oldConn) :
    AllOrNothing L x conn (y.replaceNeighbor (L.peerId (L.peer conn)) oldConn conn) := by
  have hsize := NeighborMap.size_erase_of_some (m := y.neighborsConn) (by rw [hold]; nofun)
  have hbound := y.neighborsConn.bounded
  have hroom : (y.neighborsConn.erase (L.peerId (L.peer conn))).size < y.neighborsConn.maxPeerCnt := by
    unfold NeighborMap.size at hsize ⊢
    omega
  obtain ⟨hok,hfind⟩ := NeighborMap.insert_eq_true conn hroom (y.neighborsConn.find_erase_self _)
  exact allOrNothing_of_stored hok hfind

omit [DecidableEq Peer] in
theorem allOrNothing_contend (hold : y.neighborsConn.find (L.peerId (L.peer conn)) = some oldConn)
    (hne : oldConn≠conn) : AllOrNothing L x conn
    (y.contend L env (L.peerId (L.peer conn)) oldConn conn) := by
  have hkept : AllOrNothing L x conn (y.close conn, false) := by
    refine allOrNothing_of_closed rfl ?_ List.mem_cons_self (p := .neighborsConn) ?_
    · exact fun h => hne (Option.some.inj (hold.symm.trans h))
    · exact fun h => nomatch hold.symm.trans h
  unfold contend
  rw [if_neg hne]
  split_ifs
  · exact allOrNothing_replaceNeighbor hold
  · exact hkept
  · exact hkept
  · exact allOrNothing_replaceNeighbor hold

variable (L env) in
omit [DecidableEq Conn] in
theorem maxPeerCnt_neighborToMember (x : Overlay Id Peer Conn) (conn : Conn) :
    (x.neighborToMember L env conn).1.neighborsConn.maxPeerCnt = x.neighborsConn.maxPeerCnt := by
  unfold neighborToMember insertToMembers
  dsimp only
  split_ifs <;> rfl

variable (L env) in
theorem maxPeerCnt_tryShrinkNeighbors (x : Overlay Id Peer Conn) (explicitShrink : Bool) :
    (x.tryShrinkNeighbors L env explicitShrink).neighborsConn.maxPeerCnt =
    x.neighborsConn.maxPeerCnt := by
  have hchoke (conn : Conn) :
      (x.chokeNeighbor L env conn).neighborsConn.maxPeerCnt = x.neighborsConn.maxPeerCnt := by
    have hleft := (x.close conn).maxPeerCnt_neighborToMember L env conn
    unfold chokeNeighbor
    dsimp only
    split_ifs <;> exact hleft
  unfold tryShrinkNeighbors
  split
  · rfl
  · split
    · dsimp only
      split_ifs <;> rfl
    · split_ifs
      · rfl
      · exact hchoke _
      · rfl

omit [DecidableEq Peer] [DecidableEq Conn] in
theorem allOrNothing_insertToMembers (hnone : y.neighborsConn.find (L.peerId (L.peer conn)) = none) :
    AllOrNothing L x conn (((y.close conn).insertToMembers (L.peerId (L.peer conn))
      (L.peer conn)).1, false) := by
  unfold insertToMembers
  split_ifs with hmember
  · exact allOrNothing_of_closed rfl (by simp [close,hnone]) List.mem_cons_self (p := .members) hmember
  · refine allOrNothing_of_closed rfl (by simp [close,hnone]) List.mem_cons_self (p := .members) ?_
    exact (AList.mem_insert _).mpr (.inl rfl)

theorem allOrNothing_admitPeer (hno : ∀ p, ¬ y.In (L.peerId (L.peer conn)) p) (maxNbrCnt : ℤ) :
    AllOrNothing L x conn (y.admitPeer L env conn maxNbrCnt) ↔
      ¬ (y.neighborsConn.size=y.neighborsConn.maxPeerCnt ∧ (y.neighborsConn.maxPeerCnt : ℤ) <
        maxNbrCnt) := by
  have hbound : y.neighborsConn.size≤y.neighborsConn.maxPeerCnt := y.neighborsConn.bounded
  unfold admitPeer
  dsimp only
  by_cases hlimit : maxNbrCnt≤y.neighborsConn.size
  · have hshrinks := y.shrinks_tryShrinkNeighbors L env false
    have hmax := y.maxPeerCnt_tryShrinkNeighbors L env false
    generalize y.tryShrinkNeighbors L env false = z at hshrinks hmax ⊢
    have hnone : z.neighborsConn.find (L.peerId (L.peer conn)) = none :=
      not_not.mp fun hsome => nomatch (hshrinks.absent (p := .neighborsConn) hno hsome).1
    refine iff_of_true ?_ fun hfull => absurd hfull.2 (by omega)
    split_ifs with hstill
    · exact allOrNothing_insertToMembers hnone
    · have hroom : z.neighborsConn.size<z.neighborsConn.maxPeerCnt := by omega
      obtain ⟨-,hfind⟩ := NeighborMap.insert_eq_true conn hroom hnone
      exact allOrNothing_of_stored rfl hfind
  · rw [if_neg hlimit,if_neg hlimit]
    have hnone : y.neighborsConn.find (L.peerId (L.peer conn)) = none := not_not.mp (hno .neighborsConn)
    by_cases hfull : y.neighborsConn.size=y.neighborsConn.maxPeerCnt
    · refine iff_of_false (fun h => ?_) fun hroom => hroom ⟨hfull,by omega⟩
      have hstored := h.1.mp rfl
      rw [insertToNeighbors,NeighborMap.insert_of_full _ _ (Nat.le_of_eq hfull.symm),hnone] at hstored
      exact nomatch hstored
    · refine iff_of_true ?_ fun h => hfull h.1
      obtain ⟨-,hfind⟩ := NeighborMap.insert_eq_true conn (Nat.lt_of_le_of_ne hbound hfull) hnone
      exact allOrNothing_of_stored rfl hfind

omit [DecidableEq Peer] [DecidableEq Conn] in
theorem allOrNothing_stop (hopen : conn ∉ x.closed) : AllOrNothing L x conn (x.stop, false) ↔
      conn ∈ x.neighborsConn.conns ++ x.pendingActiveSockets.map Element.data ++
      x.pendingPassiveSockets.map Element.data ∧
        ∃ p, p ≠ .neighborsConn ∧ x.In (L.peerId (L.peer conn)) p := by
  have hgone : x.stop.neighborsConn.find (L.peerId (L.peer conn)) = none := x.neighborsConn.find_clear _
  have hplaces : (∃ p, x.stop.In (L.peerId (L.peer conn)) p) ↔
      ∃ p, p ≠ .neighborsConn ∧ x.In (L.peerId (L.peer conn)) p := by
    refine exists_congr fun p => ?_
    cases p with
    | neighborsConn => exact iff_of_false (fun hp => hp hgone) fun hp => hp.1 rfl
    | _ => exact ⟨fun hp => ⟨nofun,hp⟩,fun hp => hp.2⟩
  have hstored : x.neighborsConn.find (L.peerId (L.peer conn)) = some conn → conn∈x.neighborsConn.conns :=
    fun h => List.mem_map.mpr ⟨⟨_,conn⟩,AList.mem_lookup_iff.mp h,rfl⟩
  have hclosed : (conn∈x.stop.closed ∨ x.neighborsConn.find (L.peerId (L.peer conn)) = some conn) ↔
      conn ∈ x.neighborsConn.conns ++ x.pendingActiveSockets.map Element.data ++
        x.pendingPassiveSockets.map Element.data := by
    constructor
    · rintro (h | h)
      · exact (List.mem_append.mp h).resolve_right hopen
      · exact List.mem_append_left _ (List.mem_append_left _ (hstored h))
    · exact fun h => .inl (List.mem_append_left _ h)
  rw [← hplaces,← hclosed]
  exact ⟨fun h => h.2 rfl,fun h => ⟨iff_of_false nofun (by simp [hgone]),fun _ => h⟩⟩

omit [DecidableEq Conn] in
theorem absent_withdraw (x : Overlay Id Peer Conn)
    (hnone : x.neighborsConn.find (L.peerId (L.peer conn)) = none)
    (p : Place) : ¬ (x.withdraw L (L.peer conn)).In (L.peerId (L.peer conn)) p := by
  intro hp
  rcases x.movesTo_withdraw (L.peer conn) _ p hp with ⟨-,rfl⟩ | ⟨hne,-⟩
  · exact hp hnone
  · exact hne rfl

theorem allOrNothing_toNeighbor_iff (hconn : x.isConnected env conn) (maxNbrCnt : ℤ) :
    AllOrNothing L x conn (x.toNeighbor L env conn maxNbrCnt) ↔ Acceptable L env x conn maxNbrCnt := by
  have hopen : conn ∉ x.closed := by
    simpa using (Bool.and_eq_true_iff.mp hconn).2
  unfold toNeighbor Acceptable
  by_cases hservice : env.service
  · rw [if_neg (not_not.mpr hservice),if_pos hservice]
    dsimp only
    rw [if_neg (not_not.mpr hconn)]
    split
    · rename_i oldConn hold
      replace hold : x.neighborsConn.find (L.peerId (L.peer conn)) = some oldConn := hold
      rw [hold]
      by_cases hne : oldConn=conn
      · -- the stored connection comes again: the answer is that it is not stored
        subst hne
        refine iff_of_false (fun h => ?_) fun h => h.1 rfl
        rw [contend,if_pos rfl] at h
        exact Bool.false_ne_true (h.1.mpr hold)
      · refine iff_of_true (allOrNothing_contend hold hne) ⟨fun h => hne (Option.some.inj h),fun h => ?_⟩
        exact absurd h (Option.some_ne_none oldConn)
    · rename_i hnone
      replace hnone : x.neighborsConn.find (L.peerId (L.peer conn)) = none := hnone
      rw [allOrNothing_admitPeer (x.absent_withdraw hnone),hnone]
      exact ⟨fun h => ⟨(Option.some_ne_none conn).symm,fun _ => h⟩,fun h => h.2 rfl⟩
  · rw [if_pos hservice,if_neg hservice]
    exact allOrNothing_stop hopen

omit [DecidableEq Conn] in
theorem find_onDisconnected (x : Overlay Id Peer Conn) (lost : Conn) :
    (x.onDisconnected L env lost).neighborsConn.find (L.peerId (L.peer lost)) = none := by
  unfold onDisconnected neighborToMember insertToMembers
  dsimp only
  split_ifs
  · exact x.neighborsConn.find_erase_self _
  · exact x.neighborsConn.find_erase_self _
  · exact x.neighborsConn.find_erase_self _
  · exact x.neighborsConn.find_clear _

def KeepsNewer (L : Links Id Peer Conn) (env : OverlayEnv Id Conn) (x : Overlay Id Peer Conn)
    (lost : Conn) : Prop :=
  ∀ conn, x.neighborsConn.find (L.peerId (L.peer lost)) = some conn → L.opened lost < L.opened conn →
    (x.onDisconnected L env lost).neighborsConn.find (L.peerId (L.peer lost)) = some conn

/-- Taking a neighbour is all or nothing just when the connection is acceptable, and a lost
connection takes no newer one with it just when none is stored. -/
theorem accepting_neighbor_iff (L : Links Id Peer Conn) (env : OverlayEnv Id Conn)
    (x : Overlay Id Peer Conn) (conn : Conn) (maxNbrCnt : ℤ) (hconn : x.isConnected env conn) :
    (AllOrNothing L x conn (x.toNeighbor L env conn maxNbrCnt) ↔ Acceptable L env x conn maxNbrCnt) ∧
      ∀ lost, KeepsNewer L env x lost ↔
        ∀ stored, x.neighborsConn.find (L.peerId (L.peer lost)) = some stored →
        L.opened stored ≤ L.opened lost := by
  refine ⟨allOrNothing_toNeighbor_iff hconn maxNbrCnt,
    fun lost => ⟨fun h stored hfind => ?_,fun h stored hfind hnewer => ?_⟩⟩
  · refine Nat.le_of_not_lt fun hnewer => ?_
    have hkept := h stored hfind hnewer
    rw [find_onDisconnected] at hkept
    exact nomatch hkept
  · exact absurd (h stored hfind) (Nat.not_le.mpr hnewer)

/-- Connections `10 * id` and `10 * id + 1` of the peer `id`, opened in this order. -/
def tenLinks : Links ℕ ℕ ℕ := ⟨fun p => p,fun c => c / 10,fun c => c,fun c => c⟩

def liveEnv : OverlayEnv ℕ ℕ :=
  ⟨true,fun _ => true,fun _ => true,fun _ => false,fun _ => false,fun _ => false,fun _ => 0⟩

def fullOverlay : Overlay ℕ ℕ ℕ :=
  [10,20].foldl (fun x conn => (x.toNeighbor tenLinks liveEnv conn 5).1) (create true 2 5 0)

/-- A newer connection of a neighbour replaces the older one, in a map that is full. -/
theorem newer_connection_accepted : fullOverlay.isConnected liveEnv 21 = true ∧
    AllOrNothing tenLinks fullOverlay 21 (fullOverlay.toNeighbor tenLinks liveEnv 21 5) ∧
    (fullOverlay.toNeighbor tenLinks liveEnv 21 5).1.neighborsConn.find 2 = some 21 := by
  have hconn : fullOverlay.isConnected liveEnv 21 = true := by decide
  refine ⟨hconn,(accepting_neighbor_iff tenLinks liveEnv fullOverlay 21 5 hconn).1.mpr ?_,by decide⟩
  rw [Acceptable,if_pos (by decide)]
  exact ⟨by decide,fun hnone => absurd hnone (by decide)⟩

/-- A third neighbour is accepted and not stored, and it has no place. The loss of an older
connection of the second one takes its connection away. -/
theorem full_map_accepts : (fullOverlay.isConnected liveEnv 30 = true ∧
      ¬ AllOrNothing tenLinks fullOverlay 30 (fullOverlay.toNeighbor tenLinks liveEnv 30 5)) ∧
        ¬ KeepsNewer tenLinks liveEnv (fullOverlay.toNeighbor tenLinks liveEnv 21 5).1 20 := by
  refine ⟨⟨by decide,fun h => ?_⟩,fun h => ?_⟩
  · exact absurd (h.1.mp (by decide)) (by decide)
  · exact absurd (h 21 (by decide) (by decide)) (by decide)

end Overlay

end P2Streaming
