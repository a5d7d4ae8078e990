import P2Streaming.Overlay
import P2Streaming.TransitionRuns

/-!
# One place for a peer

Every transition of the overlay takes a peer out of its other places before it enters the next
one, with one exception: `member_to_pending` leaves it among the unreachable members.
-/
namespace P2Streaming
open TimedKeepers TransitionRuns AList

namespace NeighborMap

variable {Id Conn : Type*} [DecidableEq Id]

omit [DecidableEq Id] in
theorem size_eq (m : NeighborMap Id Conn) : m.size=m.container.keys.length := (List.length_map _).symm

variable {m : NeighborMap Id Conn}

theorem find_eq_none {id : Id} : m.find id = none ↔ id ∉ m.container.keys :=
  lookup_eq_none

theorem find_erase_self (m : NeighborMap Id Conn) (id : Id) :
    (m.erase id).find id = none := lookup_erase id _

theorem find_erase_of_ne (m : NeighborMap Id Conn) {id id' : Id} (h : id'≠id) :
    (m.erase id).find id' = m.find id' :=
  lookup_erase_ne h

theorem find_clear (m : NeighborMap Id Conn) (id : Id) : m.clear.find id = none := lookup_empty id

theorem size_erase_of_none {id : Id} (h : m.find id = none) : (m.erase id).size = m.size := by
  have hkeys : (m.container.erase id).keys = m.container.keys.erase id := keys_erase id _
  rw [size_eq,size_eq,erase,hkeys,List.erase_of_not_mem (find_eq_none.mp h)]

theorem size_erase_of_some {id : Id} (h : m.find id ≠ none) : (m.erase id).size + 1 = m.size := by
  have hkeys : (m.container.erase id).keys = m.container.keys.erase id := keys_erase id _
  have hmem : id∈m.container.keys := not_not.mp (mt find_eq_none.mpr h)
  rw [size_eq,size_eq,erase,hkeys,List.length_erase_of_mem hmem]
  have hpos := List.length_pos_of_mem hmem
  omega

theorem insert_eq_true {id : Id} (conn : Conn) (hsize : m.size < m.maxPeerCnt)
    (hnone : m.find id = none) : (m.insert id conn).2 = true ∧
    (m.insert id conn).1.find id = some conn := by
  have hmem : id ∉ m.container := find_eq_none.mp hnone
  unfold insert
  rw [dif_neg (Nat.not_le.mpr hsize),dif_neg hmem]
  exact ⟨rfl,lookup_insert _⟩

theorem insert_of_full (id : Id) (conn : Conn) (hsize : m.maxPeerCnt ≤ m.size) :
    m.insert id conn = (m, false) := dif_pos hsize

theorem find_insert_of_ne (m : NeighborMap Id Conn) {id id' : Id} (conn : Conn) (h : id'≠id) :
    (m.insert id conn).1.find id' = m.find id' := by
  unfold insert
  split_ifs
  · rfl
  · rfl
  · exact lookup_insert_ne h

end NeighborMap

inductive Place where
  | members | pendingPeers | unreachableMembers | neighborsConn
  deriving DecidableEq

namespace Overlay

variable {Id Peer Conn : Type*} [DecidableEq Id]

/-- Where a peer id is, by what a look into the containers would find. -/
def In (x : Overlay Id Peer Conn) (id : Id) : Place → Prop
  | .members => id ∈ x.members
  | .pendingPeers => Keeps timedKeeperMap x.clock id x.pendingPeers
  | .unreachableMembers => Keeps timedKeeperMap x.clock id x.unreachableMembers
  | .neighborsConn => x.neighborsConn.find id ≠ none

instance (x : Overlay Id Peer Conn) (id : Id) : (p : Place) → Decidable (x.In id p)
  | .members => inferInstanceAs (Decidable (id∈x.members))
  | .pendingPeers => inferInstanceAs (Decidable (Keeps timedKeeperMap x.clock id x.pendingPeers))
  | .unreachableMembers => inferInstanceAs (Decidable
    (Keeps timedKeeperMap x.clock id x.unreachableMembers))
  | .neighborsConn => decidable_of_iff ((x.neighborsConn.find id).isSome) Option.isSome_iff_ne_none

def OnePlace (x : Overlay Id Peer Conn) : Prop := ∀ id p q, x.In id p → x.In id q → p=q

def Forgets (x y : Overlay Id Peer Conn) : Prop := ∀ id p, y.In id p → x.In id p

/-- One peer may have come to a place and has no other; no other peer has a new place. -/
def MovesTo (x y : Overlay Id Peer Conn) (id : Id) (q : Place) : Prop :=
  ∀ id' p, y.In id' p → (id'=id ∧ p=q) ∨ (id'≠id ∧ x.In id' p)

variable {x y z : Overlay Id Peer Conn} {id id' : Id} {p q : Place}

theorem Forgets.trans (h : Forgets x y) (h' : Forgets y z) :
    Forgets x z := fun id p hp => h id p (h' id p hp)

theorem MovesTo.forgets (h : MovesTo x y id q) (h' : Forgets y z) : MovesTo x z id q :=
  fun id' p hp => h id' p (h' id' p hp)

theorem OnePlace.forget (hx : x.OnePlace) (h : Forgets x y) : y.OnePlace :=
  fun id p q hp hq => hx id p q (h id p hp) (h id q hq)

theorem OnePlace.move (hx : x.OnePlace) (id : Id) (q : Place) (h : MovesTo x y id q) : y.OnePlace := by
  intro id' p p' hp hp'
  rcases h id' p hp with ⟨rfl,rfl⟩ | ⟨hne,hxp⟩
  · rcases h id' p' hp' with ⟨-,rfl⟩ | ⟨hne,-⟩
    · rfl
    · exact absurd rfl hne
  · rcases h id' p' hp' with ⟨rfl,-⟩ | ⟨-,hxp'⟩
    · exact absurd rfl hne
    · exact hx id' p p' hxp hxp'

theorem movesTo_self (h : ∀ p, x.In id p → p=q) : MovesTo x x id q := by
  intro id' p hp
  by_cases heq : id'=id
  · subst heq
    exact .inl ⟨rfl,h p hp⟩
  · exact .inr ⟨heq,hp⟩

theorem forgets_later (x : Overlay Id Peer Conn) (d : ℕ) : Forgets x { x with clock := x.clock + d } := by
  intro id p hp
  cases p with
  | members => exact hp
  | pendingPeers => exact hp.earlier (Nat.le_add_right _ d)
  | unreachableMembers => exact hp.earlier (Nat.le_add_right _ d)
  | neighborsConn => exact hp

theorem in_erase_neighbors {m : NeighborMap Id Conn} (hp : (m.erase id).find id' ≠ none) :
    id'≠id ∧ m.find id' ≠ none := by
  by_cases h : id'=id
  · rw [h,m.find_erase_self] at hp
    exact absurd rfl hp
  · rw [m.find_erase_of_ne h] at hp
    exact ⟨h,hp⟩

theorem in_eraseOfflinePeer (hp : (x.eraseOfflinePeer id).In id' p) : id'≠id ∧ x.In id' p := by
  cases p with
  | members => exact mem_erase.mp hp
  | pendingPeers => exact keeps_erase.mp hp
  | unreachableMembers => exact keeps_erase.mp hp
  | neighborsConn => exact in_erase_neighbors hp

theorem in_insertToMembers {peer : Peer} (hp : (x.insertToMembers id peer).1.In id' p) :
    (id'=id ∧ p = .members) ∨ x.In id' p := by
  unfold insertToMembers at hp
  split_ifs at hp
  · exact .inr hp
  · cases p with
    | members => exact ((mem_insert _).mp hp).imp_left fun h => ⟨h,rfl⟩
    | _ => exact .inr hp

theorem in_insertToNeighbors {conn : Conn} (hp : (x.insertToNeighbors id conn).1.In id' p) :
    (id'=id ∧ p = .neighborsConn) ∨ x.In id' p := by
  cases p with
  | neighborsConn =>
    by_cases h : id'=id
    · exact .inl ⟨h,rfl⟩
    · exact .inr fun hnone => hp ((x.neighborsConn.find_insert_of_ne conn h).trans hnone)
  | _ => exact .inr hp

theorem forgets_stop (x : Overlay Id Peer Conn) : Forgets x x.stop := by
  intro id p hp
  cases p with
  | neighborsConn => exact absurd (x.neighborsConn.find_clear id) hp
  | _ => exact hp

theorem MovesTo.insertToMembers (h : MovesTo x y id .members) (peer : Peer) :
    MovesTo x (y.insertToMembers id peer).1 id .members :=
  fun id' p hp => (in_insertToMembers hp).elim .inl (h id' p)

theorem MovesTo.insertToNeighbors (h : MovesTo x y id .neighborsConn) (conn : Conn) :
    MovesTo x (y.insertToNeighbors id conn).1 id .neighborsConn :=
  fun id' p hp => (in_insertToNeighbors hp).elim .inl (h id' p)

theorem MovesTo.replaceNeighbor (h : MovesTo x y id .neighborsConn) (oldConn conn : Conn) :
    MovesTo x (y.replaceNeighbor id oldConn conn).1 id .neighborsConn := by
  refine MovesTo.insertToNeighbors (h.forgets fun id' p hp => ?_) conn
  cases p with
  | neighborsConn => exact (in_erase_neighbors hp).2
  | _ => exact hp

theorem onePlace_knownNewPeer (hx : x.OnePlace) (id : Id) (p : Peer) :
    (x.knownNewPeer id p).OnePlace := by
  unfold knownNewPeer
  split_ifs with hblack hnew
  · exact hx
  · have hself : MovesTo x x id .members := by
      refine movesTo_self fun q hq => ?_
      cases q with
      | members => rfl
      | pendingPeers => exact absurd hq hnew.1
      | unreachableMembers => exact absurd hq hnew.2.1
      | neighborsConn => exact absurd hnew.2.2 hq
    exact hx.move _ _ (hself.insertToMembers p)
  · exact hx

/-- Nothing is new, or one peer becomes a member, and then no other leaves the neighbours. -/
def Shrinks (x y : Overlay Id Peer Conn) : Prop :=
  Forgets x y ∨ ∃ id, MovesTo x y id .members ∧
    (x.neighborsConn.find id = none → y.neighborsConn.size=x.neighborsConn.size)

theorem Shrinks.onePlace (h : Shrinks x y) (hx : x.OnePlace) : y.OnePlace := by
  rcases h with h | ⟨id,h,-⟩
  · exact hx.forget h
  · exact hx.move _ _ h

theorem Shrinks.absent (h : Shrinks x y) (hno : ∀ p, ¬ x.In id p) (hp : y.In id p) :
    p = .members ∧ y.neighborsConn.size=x.neighborsConn.size := by
  rcases h with h | ⟨id',h,hsize⟩
  · exact absurd (h id p hp) (hno p)
  · rcases h id p hp with ⟨rfl,rfl⟩ | ⟨-,hxp⟩
    · exact ⟨rfl,hsize (not_not.mp (hno .neighborsConn))⟩
    · exact absurd hxp (hno p)

section Transitions

variable [DecidableEq Peer] {L : Links Id Peer Conn} {env : OverlayEnv Id Conn}

variable (L env) in
theorem neighborToMember_cases (x : Overlay Id Peer Conn) (conn : Conn) :
    Forgets x (x.neighborToMember L env conn).1 ∨
      MovesTo x (x.neighborToMember L env conn).1 (L.peerId (L.peer conn)) .members ∧
        (x.neighborToMember L env conn).1.neighborsConn =
        x.neighborsConn.erase (L.peerId (L.peer conn)) := by
  unfold neighborToMember
  dsimp only
  split_ifs
  · exact .inl fun id p hp => (in_eraseOfflinePeer hp).2
  · refine .inr ⟨MovesTo.insertToMembers (fun id' p hp => ?_) _,?_⟩
    · cases p with
      | members => exact (eq_or_ne id' (L.peerId (L.peer conn))).imp (fun h => ⟨h,rfl⟩) fun h => ⟨h,hp⟩
      | pendingPeers => exact .inr (keeps_erase.mp hp)
      | unreachableMembers => exact .inr (keeps_erase.mp hp)
      | neighborsConn => exact .inr (in_erase_neighbors hp)
    · unfold Overlay.insertToMembers
      split_ifs <;> rfl
  · exact .inl x.forgets_stop

theorem onePlace_neighborToMember (hx : x.OnePlace) (conn : Conn) :
    (x.neighborToMember L env conn).1.OnePlace := by
  rcases x.neighborToMember_cases L env conn with h | ⟨h,-⟩
  · exact hx.forget h
  · exact hx.move _ _ h

theorem movesTo_withdraw (x : Overlay Id Peer Conn) (p : Peer) :
    MovesTo x (x.withdraw L p) (L.peerId p) .neighborsConn := by
  intro id' q hq
  cases q with
  | members => exact .inr (mem_erase.mp hq)
  | pendingPeers => exact .inr (keeps_erase.mp hq)
  | unreachableMembers => exact .inr (keeps_erase.mp hq)
  | neighborsConn => exact (eq_or_ne id' (L.peerId p)).imp (fun h => ⟨h,rfl⟩) fun h => ⟨h,hq⟩

theorem shrinks_chokeNeighbor (x : Overlay Id Peer Conn) (conn : Conn) :
    Shrinks x (x.chokeNeighbor L env conn) := by
  obtain ⟨y,hy⟩ : ∃ y, ((x.close conn).neighborToMember L env conn).1 = y := ⟨_,rfl⟩
  have hcases := (x.close conn).neighborToMember_cases L env conn
  unfold chokeNeighbor
  dsimp only
  rw [hy] at hcases ⊢
  have herase : Forgets y (y.eraseOfflinePeer (L.peerId (L.peer conn))) :=
    fun _ _ hp => (in_eraseOfflinePeer hp).2
  rcases hcases with hforgets | ⟨hmoves,hneighbors⟩
  · left
    split_ifs
    · exact Forgets.trans hforgets herase
    · exact hforgets
  · refine .inr ⟨L.peerId (L.peer conn),?_⟩
    have hsize (hnone : x.neighborsConn.find (L.peerId (L.peer conn)) = none) :
        y.neighborsConn.size = x.neighborsConn.size :=
      (congrArg NeighborMap.size hneighbors).trans (NeighborMap.size_erase_of_none hnone)
    split_ifs
    · refine ⟨hmoves.forgets herase,fun hnone => ?_⟩
      have hgone : y.neighborsConn.find (L.peerId (L.peer conn)) = none := by
        rw [hneighbors]
        exact NeighborMap.find_erase_self _ _
      exact (NeighborMap.size_erase_of_none hgone).trans (hsize hnone)
    · exact ⟨hmoves,hsize⟩

variable [DecidableEq Conn]

variable (L env) in
theorem shrinks_tryShrinkNeighbors (x : Overlay Id Peer Conn) (explicitShrink : Bool) :
    Shrinks x (x.tryShrinkNeighbors L env explicitShrink) := by
  have hsame : Shrinks x x := .inl fun _ _ hp => hp
  unfold tryShrinkNeighbors
  by_cases hstream : x.stream
  · rw [if_neg (not_not.mpr hstream)]
    split
    · dsimp only
      split_ifs <;> exact hsame
    · rename_i conn eraseTime rest hprepare
      split_ifs
      · exact hsame
      · exact x.shrinks_chokeNeighbor conn
      · exact hsame
  · rw [if_pos hstream]
    exact hsame

omit [DecidableEq Peer] in
theorem MovesTo.contend (h : MovesTo x y id .neighborsConn) (oldConn conn : Conn) :
    MovesTo x (y.contend L env id oldConn conn).1 id .neighborsConn := by
  unfold Overlay.contend
  split_ifs
  all_goals first
    | exact h
    | exact h.replaceNeighbor oldConn conn

theorem onePlace_admitPeer (hx : x.OnePlace) {conn : Conn}
    (hno : ∀ p, ¬ x.In (L.peerId (L.peer conn)) p) (maxNbrCnt : ℤ) :
    (x.admitPeer L env conn maxNbrCnt).1.OnePlace := by
  unfold admitPeer
  dsimp only
  by_cases hfull : maxNbrCnt≤x.neighborsConn.size
  · obtain ⟨y,hy⟩ : ∃ y, x.tryShrinkNeighbors L env false = y := ⟨_,rfl⟩
    have hshrinks := x.shrinks_tryShrinkNeighbors L env false
    rw [hy] at hshrinks ⊢
    have hyone := hshrinks.onePlace hx
    split_ifs with hstill
    · have hself : MovesTo y (y.close conn) (L.peerId (L.peer conn)) .members :=
        movesTo_self (x := y) fun p hp => (hshrinks.absent hno hp).1
      exact hyone.move _ _ (hself.insertToMembers _)
    · -- the map has become smaller, so the peer has not become a member on the way
      have hself : MovesTo y y (L.peerId (L.peer conn)) .neighborsConn := movesTo_self fun p hp =>
        absurd ((hshrinks.absent hno hp).2 ▸ hfull) hstill
      exact hyone.move _ _ (hself.insertToNeighbors conn)
  · rw [if_neg hfull,if_neg hfull]
    have hself : MovesTo x x (L.peerId (L.peer conn)) .neighborsConn :=
      movesTo_self fun p hp => absurd hp (hno p)
    exact hx.move _ _ (hself.insertToNeighbors conn)

theorem onePlace_toNeighbor (hx : x.OnePlace) (conn : Conn) (maxNbrCnt : ℤ) :
    (x.toNeighbor L env conn maxNbrCnt).1.OnePlace := by
  unfold toNeighbor
  dsimp only
  split_ifs
  · have hwithdraw := x.movesTo_withdraw (L := L) (L.peer conn)
    split
    · exact hx.move _ _ (hwithdraw.contend _ conn)
    · rename_i hnone
      refine onePlace_admitPeer (hx.move _ _ hwithdraw) (fun p hp => ?_) maxNbrCnt
      rcases hwithdraw _ p hp with ⟨-,rfl⟩ | ⟨hne,-⟩
      · exact hp hnone
      · exact hne rfl
  · exact hx.forget fun _ _ hp => (in_eraseOfflinePeer hp).2
  · exact hx.forget x.forgets_stop

omit [DecidableEq Conn] in
theorem onePlace_pendingToMember (hx : x.OnePlace) (p : Peer) :
    (x.pendingToMember L env p).1.OnePlace := by
  have hleave : Forgets x { x with
      pendingPeers := erase timedKeeperMap x.clock (L.peerId p) x.pendingPeers } := by
    intro id' q hq
    cases q with
    | pendingPeers => exact (keeps_erase.mp hq).2
    | _ => exact hq
  unfold pendingToMember
  dsimp only
  split_ifs with hservice hoffline hnone hthird hkept
  · exact hx.forget fun id' q hq => hleave id' q (in_eraseOfflinePeer hq).2
  · refine hx.move (L.peerId p) .unreachableMembers fun id' q hq => ?_
    cases q with
    | members => exact .inr (mem_erase.mp hq)
    | pendingPeers => exact .inr (keeps_erase.mp hq)
    | unreachableMembers =>
      rcases eq_or_ne id' (L.peerId p) with h | h
      · exact .inl ⟨h,rfl⟩
      · exact .inr ⟨h,((keeps_tryKeep (by decide : 0<600000)).mp hq).resolve_left h⟩
    | neighborsConn =>
      refine .inr ⟨fun h => hq ?_,hq⟩
      rw [h]
      exact hnone
  · exact hx.forget hleave
  · refine hx.move (L.peerId p) .members (MovesTo.insertToMembers (fun id' q hq => ?_) p)
    by_cases h : id' = L.peerId p
    · refine .inl ⟨h,?_⟩
      rw [h] at hq
      cases q with
      | members => rfl
      | pendingPeers => exact absurd rfl (keeps_erase.mp hq).1
      | unreachableMembers => exact absurd hq hkept
      | neighborsConn => exact absurd hnone hq
    · exact .inr ⟨h,hleave id' q hq⟩
  · refine hx.forget fun id' q hq => ?_
    cases q with
    | members => exact (mem_erase.mp hq).2
    | pendingPeers => exact (keeps_erase.mp hq).2
    | unreachableMembers => exact (keeps_erase.mp hq).2
    | neighborsConn => exact hq
  · exact hx.forget x.forgets_stop

omit [DecidableEq Peer] in
theorem onePlace_memberToPending (hx : x.OnePlace) (conn : Conn) :
    (x.memberToPending L env conn).1.OnePlace ↔
      (env.service → ¬ Keeps timedKeeperMap x.clock (L.peerId (L.peer conn)) x.unreachableMembers) := by
  unfold memberToPending
  dsimp only
  split_ifs with hservice hnone
  · constructor
    · intro hone _ hkept
      have hpending := hone (L.peerId (L.peer conn)) .pendingPeers .unreachableMembers
        ((keeps_tryKeep (by decide : 0<60000)).mpr (.inl rfl)) hkept
      exact nomatch hpending
    · intro hno
      refine hx.move (L.peerId (L.peer conn)) .pendingPeers fun id' q hq => ?_
      cases q with
      | members => exact .inr (mem_erase.mp hq)
      | pendingPeers =>
        rcases (keeps_tryKeep (by decide : 0<60000)).mp hq with h | h
        · exact .inl ⟨h,rfl⟩
        · exact .inr (keeps_erase.mp h)
      | unreachableMembers =>
        refine .inr ⟨fun h => hno hservice ?_,hq⟩
        rw [← h]
        exact hq
      | neighborsConn =>
        refine .inr ⟨fun h => hq ?_,hq⟩
        rw [h]
        exact hnone
  · have hforgets : Forgets x { x with members := x.members.erase (L.peerId (L.peer
      conn)) } := fun id' q hq => by
      cases q with
      | members => exact (mem_erase.mp hq).2
      | _ => exact hq
    refine iff_of_true (hx.forget hforgets) fun _ hkept => ?_
    exact nomatch hx _ .neighborsConn .unreachableMembers hnone hkept
  · exact iff_of_true (hx.forget x.forgets_stop) fun h => absurd h hservice

omit [DecidableEq Peer] [DecidableEq Conn] in
theorem onePlace_releaseOne (hx : x.OnePlace) (pick : Id × Bool) : (x.releaseOne pick).OnePlace := by
  unfold releaseOne
  split
  · exact hx
  · rename_i id p hfound
    obtain ⟨hid,e,he,heq,halive⟩ := mem_of_find hfound
    have hkept : x.In id .unreachableMembers := ⟨e,he,by rw [heq],halive⟩
    have hleave : Forgets x { x with
        unreachableMembers := erase timedKeeperMap x.clock id x.unreachableMembers } := by
      intro id' q hq
      cases q with
      | unreachableMembers => exact (keeps_erase.mp hq).2
      | _ => exact hq
    dsimp only
    split_ifs
    · refine hx.move id .members (MovesTo.insertToMembers (fun id' q hq => ?_) p)
      by_cases h : id'=id
      · -- the peer was an unreachable member and nothing else
        subst h
        have hq' := hx id' q .unreachableMembers (hleave id' q hq) hkept
        subst hq'
        exact absurd rfl (keeps_erase.mp hq).1
      · exact .inr ⟨h,hleave id' q hq⟩
    · exact hx.forget hleave

omit [DecidableEq Peer] [DecidableEq Conn] in
theorem onePlace_releaseUnreachable (hx : x.OnePlace) (picks : List (Id × Bool)) :
    (x.releaseUnreachable picks).OnePlace := by
  unfold releaseUnreachable
  split_ifs with hmembers
  · exact hx
  · clear hmembers
    generalize picks.take 3 = picked
    induction picked generalizing x with
    | nil => exact hx
    | cons pick picked ih => exact ih (onePlace_releaseOne hx pick)

theorem onePlace_onConnected (hx : x.OnePlace) (conn : Conn) (ok : Bool) :
    (x.onConnected L env conn ok).OnePlace := by
  unfold onConnected
  split_ifs
  · exact onePlace_toNeighbor (x := { x with
      pendingActiveSockets := erase (timedKeeperSet fun conn =>
        conn) x.clock conn x.pendingActiveSockets }) hx conn _
  · exact onePlace_pendingToMember hx (L.peer conn)

def StaysUnreachable (L : Links Id Peer Conn) (x : Overlay Id Peer Conn)
    (e : OverlayEvent Id Peer Conn) : Prop :=
  match e.call with
  | .memberToPending conn =>
    e.env.service=true ∧ Keeps timedKeeperMap
      (x.clock+e.elapsed) (L.peerId (L.peer conn)) x.unreachableMembers
  | _ => False

theorem onePlace_step (x : Overlay Id Peer Conn) (e : OverlayEvent Id Peer Conn) (hx : x.OnePlace) :
    (x.step L e).OnePlace ↔ ¬ StaysUnreachable L x e := by
  have hlater := hx.forget (x.forgets_later e.elapsed)
  obtain ⟨elapsed,env,call⟩ := e
  cases call with
  | memberToPending conn => exact (onePlace_memberToPending hlater conn).trans not_and.symm
  | knownNewPeer id p => exact iff_of_true (onePlace_knownNewPeer hlater id p) nofun
  | pendingToMember p => exact iff_of_true (onePlace_pendingToMember hlater p) nofun
  | toNeighbor conn maxNbrCnt => exact iff_of_true (onePlace_toNeighbor hlater conn maxNbrCnt) nofun
  | neighborToMember conn => exact iff_of_true (onePlace_neighborToMember hlater conn) nofun
  | eraseOfflinePeer id => exact iff_of_true (hlater.forget fun _ _ hp =>
    (in_eraseOfflinePeer hp).2) nofun
  | eraseLowCapacityPeer id => exact iff_of_true (hlater.forget fun _ _ hp =>
    (in_eraseOfflinePeer hp).2) nofun
  | connected conn ok => exact iff_of_true (onePlace_onConnected hlater conn ok) nofun
  | disconnected conn => exact iff_of_true (onePlace_neighborToMember hlater conn) nofun
  | tryShrinkNeighbors explicitShrink =>
    exact iff_of_true ((shrinks_tryShrinkNeighbors L env _ explicitShrink).onePlace hlater) nofun
  | releaseUnreachable picks => exact iff_of_true (onePlace_releaseUnreachable hlater picks) nofun
  | stop => exact iff_of_true (hlater.forget (forgets_stop _)) nofun
  | wait => exact iff_of_true hlater nofun

/-- In a run from a new overlay every peer has one place at most, just when no peer is made
pending while it is an unreachable member. -/
theorem one_place_iff (L : Links Id Peer Conn) (stream : Bool) (maxPeerCnt : ℕ) (maxNeighborCnt : ℤ)
    (now : ℕ) (es : List (OverlayEvent Id Peer Conn)) :
    (∀ n, ((es.take n).foldl (step L) (create stream maxPeerCnt maxNeighborCnt now)).OnePlace) ↔
      AlongRun (step L) (fun x e => ¬ StaysUnreachable L x e)
        (create stream maxPeerCnt maxNeighborCnt now) es := by
  refine alongRun_iff OnePlace (fun x e hx => onePlace_step x e hx) es ?_
  intro id p q hp
  cases p with
  | members => exact absurd hp (notMem_empty id)
  | pendingPeers => exact absurd hp (by simp [In,Keeps,create])
  | unreachableMembers => exact absurd hp (by simp [In,Keeps,create])
  | neighborsConn => exact absurd (lookup_empty id) hp

end Transitions

/-- A peer that cannot be reached is tried four times within ten minutes. -/
def retries : List (OverlayEvent ℕ ℕ ℕ) :=
  [.memberToPending 7,.pendingToMember 7,.memberToPending 7,.pendingToMember 7,.memberToPending 7,
    .pendingToMember 7,.memberToPending 7].map fun call =>
      ⟨1000,⟨true,fun _ => false,fun _ => false,fun _ => false,fun _ => false,fun _ => false,
        fun _ => 0⟩,call⟩

/-- On the fourth attempt the peer is pending, and an unreachable member as well. -/
theorem retried_unreachable_member :
    ¬ (retries.foldl (step ⟨fun p => p,fun c => c,fun c => c,fun c => c⟩)
      (create true 30 20 0)).OnePlace := by
  intro h
  exact absurd (h 7 .pendingPeers .unreachableMembers (by decide) (by decide)) (by decide)

end Overlay

end P2Streaming
