import Mathlib.Data.List.Nodup
import Mathlib.Data.Int.Basic

/-!
# `member_table` of the tracker

A login puts a peer into one of two tables, for servers and for all others. The tables have
unique indexes by peer id and by socket. When one of them refuses the new entry, `insert` calls
`updata`, which removes an entry in the way and calls `insert` again, with the playing point
that has been translated already.
-/
namespace P2Streaming
open List

inductive PeerType where
  | server | assistServer | assistPeer | normalPeer
  deriving DecidableEq

/-- `peer_info`; `rest` has the fields that the tables neither read nor set. -/
structure PeerInfo (Id Rest : Type*) where
  peerId : Id
  peerType : PeerType
  joinTime : ℕ
  externalIp : ℕ
  externalUdpPort : ℕ
  externalTcpPort : ℕ
  rest : Rest

structure Remote where
  ip : ℕ
  port : ℕ
  udp : Bool

namespace MemberTable

variable {Socket Id Rest : Type*}

/-- The address the tracker sees replaces what the peer says of itself. -/
def observe (edp : Remote) (info : PeerInfo Id Rest) : PeerInfo Id Rest :=
  { info with
    externalIp := edp.ip
    externalUdpPort := if edp.udp then edp.port else info.externalUdpPort
    externalTcpPort := if edp.udp then info.externalTcpPort else edp.port }

/-- `peer`; its key is left out. -/
structure Peer (Socket Id Rest : Type*) where
  info : PeerInfo Id Rest
  socket : Socket
  id : Id
  externalIpport : ℕ × ℕ
  relativePlayingPointSlot : ℤ

/-- The constructor of `peer`, at the given time. -/
def Peer.new (net : Socket → Remote) (now : ℕ) (info : PeerInfo Id Rest) (conn : Socket) (slot : ℤ) :
    Peer Socket Id Rest :=
  ⟨{ observe (net conn) info with joinTime := now },conn,info.peerId,
    ((net conn).ip, (net conn).port),slot⟩

/-- The entry has the information of a login, up to what the tracker sets itself. -/
def Peer.Stores (net : Socket → Remote) (info : PeerInfo Id Rest) (e : Peer Socket Id Rest) : Prop :=
  ∃ joinTime, e.info = { observe (net e.socket) info with joinTime := joinTime }

/-- `peer_set`, with its two unique indexes. -/
structure PeerSet (Socket Id Rest : Type*) where
  entries : List (Peer Socket Id Rest)
  ids : (entries.map Peer.id).Nodup
  sockets : (entries.map Peer.socket).Nodup

namespace PeerSet

variable {conn : Socket} {id : Id} {e e' : Peer Socket Id Rest}

def Free (s : PeerSet Socket Id Rest) (conn : Socket) (id : Id) : Prop :=
  ∀ e∈s.entries, e.socket≠conn ∧ e.id≠id

instance [DecidableEq Socket] [DecidableEq Id] (s : PeerSet Socket Id Rest) (conn : Socket) (id : Id) :
    Decidable (s.Free conn id) := inferInstanceAs (Decidable (∀ e∈_, _))

def add (s : PeerSet Socket Id Rest) (p : Peer Socket Id Rest) (h : s.Free p.socket p.id) :
    PeerSet Socket Id Rest where
  entries := p :: s.entries
  ids := by
    refine nodup_cons.mpr ⟨fun hmem => ?_,s.ids⟩
    obtain ⟨e,he,heq⟩ := mem_map.mp hmem
    exact (h e he).2 heq
  sockets := by
    refine nodup_cons.mpr ⟨fun hmem => ?_,s.sockets⟩
    obtain ⟨e,he,heq⟩ := mem_map.mp hmem
    exact (h e he).1 heq

variable {s : PeerSet Socket Id Rest}

theorem eq_of_socket (he : e∈s.entries) (he' : e'∈s.entries) (h : e.socket=e'.socket) : e=e' :=
  inj_on_of_nodup_map s.sockets he he' h

theorem eq_of_id (he : e∈s.entries) (he' : e'∈s.entries) (h : e.id=e'.id) : e=e' :=
  inj_on_of_nodup_map s.ids he he' h

section Socket

variable [DecidableEq Socket]

def findSocket (s : PeerSet Socket Id Rest) (conn : Socket) : Option (Peer Socket Id Rest) :=
  s.entries.find? fun e => e.socket = conn

def eraseSocket (s : PeerSet Socket Id Rest) (conn : Socket) : PeerSet Socket Id Rest where
  entries := s.entries.filter fun e => e.socket ≠ conn
  ids := s.ids.sublist (filter_sublist.map _)
  sockets := s.sockets.sublist (filter_sublist.map _)

def setInfo (s : PeerSet Socket Id Rest) (conn : Socket) (info : PeerInfo Id Rest) :
    PeerSet Socket Id Rest where
  entries := s.entries.map fun e => if e.socket=conn then { e with info := info } else e
  ids := by
    have h : (s.entries.map fun e => if e.socket=conn then { e with info := info } else e).map Peer.id =
        s.entries.map Peer.id := by
      rw [map_map]
      refine map_congr_left fun e _ => ?_
      simp only [Function.comp]
      split_ifs <;> rfl
    rw [h]
    exact s.ids
  sockets := by
    have h : (s.entries.map fun e => if e.socket=conn then { e with info := info } else e).map
      Peer.socket =
        s.entries.map Peer.socket := by
      rw [map_map]
      refine map_congr_left fun e _ => ?_
      simp only [Function.comp]
      split_ifs <;> rfl
    rw [h]
    exact s.sockets

theorem findSocket_eq_some (h : s.findSocket conn = some e) : e∈s.entries ∧ e.socket=conn := by
  have hsome := List.find?_some h
  exact ⟨mem_of_find?_eq_some h,by simpa using hsome⟩

theorem findSocket_eq_none : s.findSocket conn = none ↔ ∀ e∈s.entries, e.socket≠conn := by
  simp [findSocket]

theorem findSocket_of_mem (he : e∈s.entries) : s.findSocket e.socket = some e := by
  cases hf : s.findSocket e.socket with
  | none => exact absurd rfl (findSocket_eq_none.mp hf e he)
  | some e' =>
    obtain ⟨he',hsocket⟩ := findSocket_eq_some hf
    rw [eq_of_socket he' he hsocket]

theorem mem_eraseSocket : e ∈ (s.eraseSocket conn).entries ↔ e∈s.entries ∧ e.socket≠conn := by
  simp [eraseSocket]

theorem length_eraseSocket_lt (he : e∈s.entries) (h : e.socket=conn) :
    (s.eraseSocket conn).entries.length < s.entries.length :=
  length_filter_lt_length_iff_exists.mpr ⟨e,he,by simp [h]⟩

end Socket

section Id

variable [DecidableEq Id]

def findId (s : PeerSet Socket Id Rest) (id : Id) : Option (Peer Socket Id Rest) :=
  s.entries.find? fun e => e.id = id

def eraseId (s : PeerSet Socket Id Rest) (id : Id) : PeerSet Socket Id Rest where
  entries := s.entries.filter fun e => e.id ≠ id
  ids := s.ids.sublist (filter_sublist.map _)
  sockets := s.sockets.sublist (filter_sublist.map _)

theorem findId_eq_some (h : s.findId id = some e) : e∈s.entries ∧ e.id=id := by
  have hsome := List.find?_some h
  exact ⟨mem_of_find?_eq_some h,by simpa using hsome⟩

theorem findId_eq_none : s.findId id = none ↔ ∀ e∈s.entries, e.id≠id := by
  simp [findId]

theorem mem_eraseId : e ∈ (s.eraseId id).entries ↔ e∈s.entries ∧ e.id≠id := by
  simp [eraseId]

theorem length_eraseId_lt (he : e∈s.entries) (h : e.id=id) :
    (s.eraseId id).entries.length < s.entries.length :=
  length_filter_lt_length_iff_exists.mpr ⟨e,he,by simp [h]⟩

end Id

end PeerSet

end MemberTable

structure MemberTable (Socket Id Rest : Type*) where
  peers : MemberTable.PeerSet Socket Id Rest
  serverSet : MemberTable.PeerSet Socket Id Rest
  totalVideoTimeMsec : ℤ

namespace MemberTable

variable {Socket Id Rest : Type*}

def playingPointSlotDuration : ℤ := 15000

inductive Side where
  | peers | servers
  deriving DecidableEq

variable (t : MemberTable Socket Id Rest)

def table : Side → PeerSet Socket Id Rest
  | .peers => t.peers
  | .servers => t.serverSet

def put (side : Side) (s : PeerSet Socket Id Rest) : MemberTable Socket Id Rest :=
  match side with
  | .peers => { t with peers := s }
  | .servers => { t with serverSet := s }

/-- The table that `insert` takes. -/
def insertSide : PeerType → Side
  | .server => .servers
  | .assistServer => .servers
  | _ => .peers

/-- The table that `updata` takes. -/
def updataSide : PeerType → Side
  | .assistServer => .servers
  | _ => .peers

def IsVodType : Prop := 0 < t.totalVideoTimeMsec

instance : Decidable t.IsVodType := inferInstanceAs (Decidable (0<_))

def translateRelativePlayingPointSlot (dynamicPt : ℤ) : ℤ :=
  if t.IsVodType then dynamicPt.tdiv playingPointSlotDuration else -1

def size : ℕ := t.peers.entries.length+t.serverSet.entries.length

variable {s : PeerSet Socket Id Rest}

theorem size_put_lt {t : MemberTable Socket Id Rest} {side : Side}
    (h : s.entries.length < (t.table side).entries.length) : (t.put side s).size < t.size := by
  cases side <;> simp only [put,size,table] at h ⊢ <;> omega

variable [DecidableEq Socket] [DecidableEq Id]

mutual

/-- `insert`; the new state and the entry, if one is returned. -/
def insert (net : Socket → Remote) (now : ℕ) (t : MemberTable Socket Id Rest) (conn : Socket)
    (info : PeerInfo Id Rest) (dynamicPt : ℤ) :
    MemberTable Socket Id Rest × Option (Peer Socket Id Rest) :=
  let slot := t.translateRelativePlayingPointSlot dynamicPt
  let p := Peer.new net now info conn slot
  let side := insertSide info.peerType
  if h : (t.table side).Free conn info.peerId then (t.put side ((t.table side).add p h), some p)
  else updata net now t conn info slot
termination_by 2 * t.size + 1

def updata (net : Socket → Remote) (now : ℕ) (t : MemberTable Socket Id Rest) (conn : Socket)
    (info : PeerInfo Id Rest) (dynamicPt : ℤ) :
    MemberTable Socket Id Rest × Option (Peer Socket Id Rest) :=
  let side := updataSide info.peerType
  let peers := t.table side
  let replace (e : Peer Socket Id Rest) : MemberTable Socket Id Rest × Option (Peer Socket Id Rest) :=
    let info := observe (net conn) info
    (t.put side (peers.setInfo e.socket info), some { e with info := info })
  match hs : peers.findSocket conn with
  | some e =>
    if dynamicPt≠e.relativePlayingPointSlot ∨ info.peerId≠e.id then
      insert net now (t.put side (peers.eraseSocket conn)) conn info dynamicPt
    else replace e
  | none =>
    match hi : peers.findId info.peerId with
    | some e =>
      if conn≠e.socket ∨ dynamicPt≠e.relativePlayingPointSlot then
        insert net now (t.put side (peers.eraseId info.peerId)) conn info dynamicPt
      else replace e
    | none => (t, none)
termination_by 2 * t.size
decreasing_by
  · obtain ⟨he,hsocket⟩ := PeerSet.findSocket_eq_some hs
    have hlt : (t.put (updataSide info.peerType)
      ((t.table (updataSide info.peerType)).eraseSocket conn)).size < t.size :=
      size_put_lt (PeerSet.length_eraseSocket_lt he hsocket)
    omega
  · obtain ⟨he,hid⟩ := PeerSet.findId_eq_some hi
    have hlt : (t.put (updataSide info.peerType)
      ((t.table (updataSide info.peerType)).eraseId info.peerId)).size <
        t.size := size_put_lt (PeerSet.length_eraseId_lt he hid)
    omega

end

variable {net : Socket → Remote} {now : ℕ} {t} {conn : Socket}
  {info : PeerInfo Id Rest} {pt : ℤ}

theorem insert_of_free (h : (t.table (insertSide info.peerType)).Free conn info.peerId) :
    insert net now t conn info pt =
      (t.put (insertSide info.peerType) ((t.table (insertSide info.peerType)).add
        (Peer.new net now info conn (t.translateRelativePlayingPointSlot pt)) h),
        some (Peer.new net now info conn (t.translateRelativePlayingPointSlot pt))) := by
  rw [insert]
  exact dif_pos h

theorem insert_of_not_free (h : ¬ (t.table (insertSide info.peerType)).Free conn info.peerId) :
    insert net now t conn info pt = updata net now t conn info
      (t.translateRelativePlayingPointSlot pt) := by
  rw [insert]
  exact dif_neg h

variable {e : Peer Socket Id Rest}

theorem updata_of_socket (he : (t.table (updataSide info.peerType)).findSocket conn = some e) :
    updata net now t conn info pt = if pt≠e.relativePlayingPointSlot ∨ info.peerId≠e.id then
        insert net now (t.put (updataSide info.peerType)
          ((t.table (updataSide info.peerType)).eraseSocket conn)) conn
          info pt
      else (t.put (updataSide info.peerType) ((t.table (updataSide info.peerType)).setInfo e.socket
        (observe (net conn) info)), some { e with info := observe (net conn) info }) := by
  rw [updata]
  split
  · rename_i e' he'
    obtain rfl : e=e' := Option.some.inj (he.symm.trans he')
    rfl
  · rename_i hnone
    exact nomatch he.symm.trans hnone

theorem updata_of_id (hs : (t.table (updataSide info.peerType)).findSocket conn = none)
    (he : (t.table (updataSide info.peerType)).findId info.peerId = some e) :
    updata net now t conn info pt =
      insert net now (t.put (updataSide info.peerType)
        ((t.table (updataSide info.peerType)).eraseId info.peerId)) conn
        info pt := by
  have hne : conn≠e.socket :=
    (PeerSet.findSocket_eq_none.mp hs e (PeerSet.findId_eq_some he).1).symm
  rw [updata]
  split
  · rename_i hs'
    exact nomatch hs.symm.trans hs'
  · split
    · rename_i e' he'
      obtain rfl : e=e' := Option.some.inj (he.symm.trans he')
      exact if_pos (.inl hne)
    · rename_i hnone
      exact nomatch he.symm.trans hnone

theorem updata_of_none (hs : (t.table (updataSide info.peerType)).findSocket conn = none)
    (hi : (t.table (updataSide info.peerType)).findId info.peerId = none) :
    updata net now t conn info pt = (t, none) := by
  rw [updata]
  split
  · rename_i hs'
    exact nomatch hs.symm.trans hs'
  · split
    · rename_i hi'
      exact nomatch hi.symm.trans hi'
    · rfl

omit [DecidableEq Socket] [DecidableEq Id] in
@[simp] theorem table_put_self (t : MemberTable Socket Id Rest) (side : Side)
    (s : PeerSet Socket Id Rest) : (t.put side s).table side = s := by
  cases side <;> rfl

omit [DecidableEq Socket] [DecidableEq Id] in
theorem table_put_of_ne (t : MemberTable Socket Id Rest) {side side' : Side} (h : side'≠side)
    (s : PeerSet Socket Id Rest) : (t.put side s).table side' = t.table side' := by
  cases side <;> cases side' <;> first | rfl | exact absurd rfl h

omit [DecidableEq Socket] [DecidableEq Id] in
@[simp] theorem translate_put (t : MemberTable Socket Id Rest) (side : Side)
    (s : PeerSet Socket Id Rest) (pt : ℤ) :
    (t.put side s).translateRelativePlayingPointSlot pt = t.translateRelativePlayingPointSlot pt := by
  cases side <;> rfl

structure Replaced (t : MemberTable Socket Id Rest) (side : Side) (p : Peer Socket Id Rest)
    (r : MemberTable Socket Id Rest × Option (Peer Socket Id Rest)) : Prop where
  returned : r.2 = some p
  mem : ∀ e, e ∈ (r.1.table side).entries ↔ e=p ∨ e ∈ (t.table side).entries ∧ e.socket≠p.socket ∧
    e.id≠p.id
  other : ∀ side'≠side, r.1.table side' = t.table side'

omit [DecidableEq Socket] [DecidableEq Id] in
theorem Replaced.of_put {side : Side} {p : Peer Socket Id Rest}
    {r : MemberTable Socket Id Rest × Option (Peer Socket Id Rest)} (h : Replaced (t.put side s) side p r)
    (hs : ∀ e, e.socket≠p.socket → e.id≠p.id → (e∈s.entries ↔ e ∈ (t.table side).entries)) :
    Replaced t side p r := by
  refine ⟨h.returned,fun e => ?_,fun side' hne => (h.other side' hne).trans (table_put_of_ne t hne s)⟩
  rw [h.mem e,table_put_self]
  refine or_congr_right ⟨fun ⟨he,hne⟩ => ⟨(hs e hne.1 hne.2).mp he,hne⟩,fun ⟨he,hne⟩ => ⟨?_,hne⟩⟩
  exact (hs e hne.1 hne.2).mpr he

theorem replaced_of_free (h : (t.table (insertSide info.peerType)).Free conn info.peerId) :
    Replaced t (insertSide info.peerType) (Peer.new net now info conn
      (t.translateRelativePlayingPointSlot pt))
      (insert net now t conn info pt) := by
  rw [insert_of_free h]
  refine ⟨rfl,fun e => ?_,fun side' hne => table_put_of_ne t hne _⟩
  rw [table_put_self]
  change e ∈ _ :: _ ↔ _
  rw [mem_cons]
  exact or_congr_right ⟨fun he => ⟨he,h e he⟩,And.left⟩

theorem replaced_of_id (hside : updataSide info.peerType = insertSide info.peerType)
    (hs : ∀ e ∈ (t.table (insertSide info.peerType)).entries, e.socket≠conn)
    (hfree : ¬ (t.table (insertSide info.peerType)).Free conn info.peerId) :
    Replaced t (insertSide info.peerType) (Peer.new net now info conn
        (t.translateRelativePlayingPointSlot (t.translateRelativePlayingPointSlot pt)))
      (insert net now t conn info pt) := by
  obtain ⟨e,he,hid⟩ : ∃ e ∈ (t.table (insertSide info.peerType)).entries, e.id=info.peerId := by
    by_contra hno
    push Not at hno
    exact hfree fun e he => ⟨hs e he,hno e he⟩
  rw [insert_of_not_free hfree]
  have hfind : ∃ e, (t.table (updataSide info.peerType)).findId info.peerId = some e := by
    rw [hside]
    refine Option.ne_none_iff_exists'.mp fun hnone => ?_
    exact PeerSet.findId_eq_none.mp hnone e he hid
  obtain ⟨e',he'⟩ := hfind
  rw [updata_of_id (by rw [hside]; exact PeerSet.findSocket_eq_none.mpr hs) he',hside]
  have hfree' : ((t.put (insertSide info.peerType)
    ((t.table (insertSide info.peerType)).eraseId info.peerId)).table
      (insertSide info.peerType)).Free conn info.peerId := by
    rw [table_put_self]
    intro e he
    obtain ⟨he,hne⟩ := PeerSet.mem_eraseId.mp he
    exact ⟨hs e he,hne⟩
  refine Replaced.of_put ?_ fun e _ hne => PeerSet.mem_eraseId.trans (and_iff_left hne)
  rw [← translate_put t (insertSide info.peerType)
    ((t.table (insertSide info.peerType)).eraseId info.peerId)]
  exact replaced_of_free hfree'

theorem replaced_of_socket (hside : updataSide info.peerType = insertSide info.peerType)
    (he : e ∈ (t.table (insertSide info.peerType)).entries) (hsocket : e.socket=conn)
    (hne : t.translateRelativePlayingPointSlot pt ≠ e.relativePlayingPointSlot ∨ info.peerId≠e.id) :
    ∃ slot, (slot = t.translateRelativePlayingPointSlot (t.translateRelativePlayingPointSlot pt) ∨
      slot = t.translateRelativePlayingPointSlot
        (t.translateRelativePlayingPointSlot (t.translateRelativePlayingPointSlot pt))) ∧
      Replaced t (insertSide info.peerType) (Peer.new net now info conn slot)
        (insert net now t conn info pt) := by
  have hfree : ¬ (t.table (insertSide info.peerType)).Free conn info.peerId := fun h => (h e he).1 hsocket
  have hfind : (t.table (updataSide info.peerType)).findSocket conn = some e := by
    rw [hside,← hsocket]
    exact PeerSet.findSocket_of_mem he
  rw [insert_of_not_free hfree,updata_of_socket hfind,if_pos hne,hside]
  obtain ⟨t',ht'⟩ : ∃ t', t.put (insertSide info.peerType)
    ((t.table (insertSide info.peerType)).eraseSocket conn) = t' := ⟨_,rfl⟩
  have htable : t'.table (insertSide info.peerType) =
    (t.table (insertSide info.peerType)).eraseSocket conn := by
    rw [← ht',table_put_self]
  have htranslate (pt : ℤ) : t'.translateRelativePlayingPointSlot pt =
    t.translateRelativePlayingPointSlot pt := by
    rw [← ht',translate_put]
  have hback {p : Peer Socket Id Rest} (hp : p.socket=conn)
    {r : MemberTable Socket Id Rest × Option (Peer Socket Id Rest)}
      (h : Replaced t' (insertSide info.peerType) p r) : Replaced t (insertSide info.peerType) p r := by
    rw [← ht'] at h
    exact h.of_put fun e hne _ => PeerSet.mem_eraseSocket.trans (and_iff_left (hp ▸ hne))
  rw [ht']
  by_cases hfree' : (t'.table (insertSide info.peerType)).Free conn info.peerId
  · refine ⟨_,.inl rfl,hback rfl ?_⟩
    rw [← htranslate (t.translateRelativePlayingPointSlot pt)]
    exact replaced_of_free hfree'
  · refine ⟨_,.inr rfl,hback rfl ?_⟩
    rw [← htranslate (t.translateRelativePlayingPointSlot pt),
      ← htranslate (t'.translateRelativePlayingPointSlot _)]
    refine replaced_of_id hside (fun e he => ?_) hfree'
    rw [htable] at he
    exact (PeerSet.mem_eraseSocket.mp he).2

structure LoggedIn (net : Socket → Remote) (t : MemberTable Socket Id Rest) (conn : Socket)
    (info : PeerInfo Id Rest)
    (pt : ℤ) (r : MemberTable Socket Id Rest × Option (Peer Socket Id Rest)) : Prop where
  returned : r.2≠none
  entry : ∃ e ∈ (r.1.table (insertSide info.peerType)).entries, e.socket=conn ∧ e.id=info.peerId ∧
    e.Stores net info ∧
    e.relativePlayingPointSlot = (if 0<t.totalVideoTimeMsec then pt.tdiv
      playingPointSlotDuration else -1) ∧
    ∀ e' ∈ (r.1.table (insertSide info.peerType)).entries, e'.socket=conn ∨ e'.id=info.peerId → e'=e
  others : ∀ side (e : Peer Socket Id Rest), e.socket≠conn → e.id≠info.peerId →
    (e ∈ (r.1.table side).entries ↔ e ∈ (t.table side).entries)

omit [DecidableEq Socket] [DecidableEq Id] in
theorem Replaced.loggedIn_iff {slot : ℤ} {r : MemberTable Socket Id Rest × Option (Peer Socket Id Rest)}
    (h : Replaced t (insertSide info.peerType) (Peer.new net now info conn slot) r) :
    LoggedIn net t conn info pt r ↔ slot = t.translateRelativePlayingPointSlot pt := by
  constructor
  · rintro ⟨-,⟨e,he,hsocket,-,-,hslot,-⟩,-⟩
    rcases (h.mem e).mp he with rfl | ⟨-,hne,-⟩
    · exact hslot
    · exact absurd hsocket hne
  · intro hslot
    refine ⟨by rw [h.returned]; exact Option.some_ne_none _,
      ⟨_,(h.mem _).mpr (.inl rfl),rfl,rfl,⟨now,rfl⟩,hslot,fun e' he' hor => ?_⟩,fun side e hs hi => ?_⟩
    · rcases (h.mem e').mp he' with heq | ⟨-,hns,hni⟩
      · exact heq
      · exact (hor.elim hns hni).elim
    · by_cases hside : side = insertSide info.peerType
      · rw [hside,h.mem e]
        refine ⟨fun hor => hor.elim (fun heq => absurd (heq ▸ rfl) hs) And.left,fun he => .inr ⟨he,hs,hi⟩⟩
      · rw [h.other side hside]

/-- The entry of an earlier login with the same socket, id and slot. -/
def Repeated (t : MemberTable Socket Id Rest) (side : Side) (conn : Socket)
    (info : PeerInfo Id Rest) (pt : ℤ) (e : Peer Socket Id Rest) : Prop :=
  e ∈ (t.table side).entries ∧ e.socket=conn ∧ e.id=info.peerId ∧
    e.relativePlayingPointSlot = t.translateRelativePlayingPointSlot pt

theorem insert_of_repeated (h : t.Repeated (updataSide info.peerType) conn info pt e)
    (hfree : ¬ (t.table (insertSide info.peerType)).Free conn info.peerId) :
    insert net now t conn info pt =
      (t.put (updataSide info.peerType) ((t.table (updataSide info.peerType)).setInfo conn
        (observe (net conn) info)),some { e with info := observe (net conn) info }) := by
  obtain ⟨he,hsocket,hid,hslot⟩ := h
  have hfind : (t.table (updataSide info.peerType)).findSocket conn = some e := by
    rw [← hsocket]
    exact PeerSet.findSocket_of_mem he
  rw [insert_of_not_free hfree,updata_of_socket hfind,if_neg (by simp [hslot,hid]),hsocket]

omit [DecidableEq Id] in
theorem PeerSet.mem_setInfo_of_ne {info : PeerInfo Id Rest}
    (h : e.socket≠conn) : e ∈ (s.setInfo conn info).entries ↔ e∈s.entries := by
  simp only [setInfo,mem_map]
  constructor
  · rintro ⟨e',he',rfl⟩
    split_ifs at h ⊢ with hs
    · exact absurd hs h
    · exact he'
  · exact fun he => ⟨e,he,if_neg h⟩

omit [DecidableEq Id] in
theorem PeerSet.mem_setInfo {info : PeerInfo Id Rest} {e e' : Peer Socket Id Rest}
    (he : e∈s.entries) (h : e.socket=conn) (he' : e' ∈ (s.setInfo conn info).entries)
    (h' : e'.socket=conn ∨ e'.id=e.id) : e' = { e with info := info } := by
  obtain ⟨e₀,he₀,rfl⟩ := mem_map.mp he'
  have heq : e₀=e := by
    rcases h' with h' | h'
    · refine eq_of_socket he₀ he ?_
      split_ifs at h' with hs
      · rw [hs,h]
      · exact absurd h' hs
    · refine eq_of_id he₀ he ?_
      split_ifs at h' <;> exact h'
  rw [heq,if_pos h]

theorem loggedIn_of_repeated (hside : updataSide info.peerType = insertSide info.peerType)
    (h : t.Repeated (insertSide info.peerType) conn info pt e) :
    LoggedIn net t conn info pt (insert net now t conn info pt) := by
  obtain ⟨he,hsocket,hid,hslot⟩ := h
  have hfree : ¬ (t.table (insertSide info.peerType)).Free conn info.peerId := fun h => (h e he).1 hsocket
  rw [insert_of_repeated (by rw [hside]; exact ⟨he,hsocket,hid,hslot⟩) hfree,hside]
  refine ⟨Option.some_ne_none _,?_,fun side e' hs hi => ?_⟩
  · rw [table_put_self]
    refine ⟨{ e with info := observe (net conn) info },mem_map.mpr ⟨e,he,if_pos hsocket⟩,hsocket,hid,
      ⟨info.joinTime,by rw [hsocket]; rfl⟩,hslot,fun e' he' hor => ?_⟩
    exact PeerSet.mem_setInfo he hsocket he' (by rw [hid]; exact hor)
  · by_cases heq : side = insertSide info.peerType
    · rw [heq,table_put_self,PeerSet.mem_setInfo_of_ne hs]
    · rw [table_put_of_ne t heq]

theorem insert_server_of_no_socket (htype : info.peerType = .server)
    (hfree : ¬ t.serverSet.Free conn info.peerId)
    (hs : ∀ e∈t.peers.entries, e.socket≠conn) : (insert net now t conn info pt).2 = none := by
  have hstep {t : MemberTable Socket Id Rest} {pt : ℤ} (hfree : ¬ t.serverSet.Free conn info.peerId) :
      insert net now t conn info pt = updata net now t conn info
        (t.translateRelativePlayingPointSlot pt) :=
    insert_of_not_free (by rw [htype]; exact hfree)
  rw [hstep hfree]
  cases hi : t.peers.findId info.peerId with
  | none =>
    rw [updata_of_none (by rw [htype]; exact PeerSet.findSocket_eq_none.mpr hs) (by rw [htype]; exact hi)]
  | some e =>
    rw [updata_of_id (by rw [htype]; exact PeerSet.findSocket_eq_none.mpr hs)
      (by rw [htype]; exact hi),htype,hstep (by exact hfree),updata_of_none]
    · rw [htype]
      refine PeerSet.findSocket_eq_none.mpr fun e he => ?_
      exact hs e (PeerSet.mem_eraseId.mp he).1
    · rw [htype]
      exact PeerSet.findId_eq_none.mpr fun e he => (PeerSet.mem_eraseId.mp he).2

theorem insert_server (htype : info.peerType = .server) (hfree : ¬ t.serverSet.Free conn info.peerId)
    (hrepeated : ∀ e, ¬ t.Repeated .peers conn info pt e) : (insert net now t conn info pt).2 = none := by
  by_cases hs : ∀ e∈t.peers.entries, e.socket≠conn
  · exact insert_server_of_no_socket htype hfree hs
  push Not at hs
  obtain ⟨e,he,hsocket⟩ := hs
  have hfind : (t.table (updataSide info.peerType)).findSocket conn = some e := by
    rw [htype,← hsocket]
    exact PeerSet.findSocket_of_mem he
  have hne : t.translateRelativePlayingPointSlot pt ≠ e.relativePlayingPointSlot ∨ info.peerId≠e.id := by
    by_contra hno
    push Not at hno
    exact hrepeated e ⟨he,hsocket,hno.2.symm,hno.1.symm⟩
  rw [insert_of_not_free (by rw [htype]; exact hfree),updata_of_socket hfind,if_pos hne,htype]
  exact insert_server_of_no_socket htype hfree fun e he => (PeerSet.mem_eraseSocket.mp he).2

omit [DecidableEq Socket] [DecidableEq Id] in
theorem translate_again_iff (t : MemberTable Socket Id Rest) (pt : ℤ) {slot : ℤ}
    (h : slot = t.translateRelativePlayingPointSlot (t.translateRelativePlayingPointSlot pt) ∨
      slot = t.translateRelativePlayingPointSlot
        (t.translateRelativePlayingPointSlot (t.translateRelativePlayingPointSlot pt))) :
    slot = t.translateRelativePlayingPointSlot pt ↔
      t.totalVideoTimeMsec ≤ 0 ∨ pt.natAbs<playingPointSlotDuration.natAbs := by
  by_cases hvod : t.IsVodType
  · have hvod' : 0<t.totalVideoTimeMsec := hvod
    simp only [translateRelativePlayingPointSlot,if_pos hvod] at h ⊢
    have hdiv (x : ℤ) : (x.tdiv playingPointSlotDuration).natAbs = x.natAbs / 15000 := Int.natAbs_tdiv x _
    have hzero : pt.natAbs<playingPointSlotDuration.natAbs → pt.tdiv playingPointSlotDuration = 0 := by
      intro hlt
      have := hdiv pt
      have hlt' : pt.natAbs<15000 := hlt
      omega
    constructor
    · intro heq
      have habs : slot.natAbs = pt.natAbs / 15000 := by rw [heq,hdiv]
      refine .inr ?_
      change pt.natAbs < 15000
      rcases h with h | h
      · rw [h,hdiv,hdiv] at habs
        omega
      · rw [h,hdiv,hdiv,hdiv] at habs
        omega
    · intro hor
      have hpt := hzero (hor.resolve_left (by omega))
      rcases h with h | h
      · rw [h,hpt]
        rfl
      · rw [h,hpt]
        rfl
  · have hlive : t.totalVideoTimeMsec≤0 := Int.not_lt.mp hvod
    simp only [translateRelativePlayingPointSlot,if_neg hvod,or_self] at h ⊢
    exact iff_of_true h (.inl hlive)

theorem loggedIn_server_iff (htype : info.peerType = .server)
    (hfree : ¬ t.serverSet.Free conn info.peerId) (he : t.Repeated .peers conn info pt e) :
    LoggedIn net t conn info pt (insert net now t conn info pt) ↔
      ∃ e, t.Repeated .servers conn info pt e ∧ e.Stores net info := by
  have hinsert : insert net now t conn info pt = _ :=
    insert_of_repeated (by rw [htype]; exact he) (by rw [htype]; exact hfree)
  rw [hinsert,htype]
  constructor
  · rintro ⟨-,⟨e',he',hsocket,hid,hstores,hslot,-⟩,-⟩
    rw [htype] at he'
    exact ⟨e',⟨he',hsocket,hid,hslot⟩,hstores⟩
  · rintro ⟨e',⟨he',hsocket,hid,hslot⟩,hstores⟩
    refine ⟨Option.some_ne_none _,?_,fun side e'' hs _ => ?_⟩
    · rw [htype]
      refine ⟨e',he',hsocket,hid,hstores,hslot,fun e'' he'' hor => ?_⟩
      rcases hor with h | h
      · exact PeerSet.eq_of_socket he'' he' (h.trans hsocket.symm)
      · exact PeerSet.eq_of_id he'' he' (h.trans hid.symm)
    · cases side with
      | peers => exact PeerSet.mem_setInfo_of_ne hs
      | servers => exact Iff.rfl

/-- When a login leaves behind what it should. -/
theorem login_postcondition_iff (net : Socket → Remote) (now : ℕ) (t : MemberTable Socket Id Rest)
    (conn : Socket)
    (info : PeerInfo Id Rest) (pt : ℤ) : LoggedIn net t conn info pt (insert net now t conn info pt) ↔
      (t.table (insertSide info.peerType)).Free conn info.peerId ∨
      (info.peerType ≠ .server ∧ (t.totalVideoTimeMsec≤0 ∨ pt.natAbs<playingPointSlotDuration.natAbs ∨
        ∃ e, t.Repeated (insertSide info.peerType) conn info pt e)) ∨
      (info.peerType = .server ∧ (∃ e, t.Repeated .peers conn info pt e) ∧
        ∃ e, t.Repeated .servers conn info pt e ∧ e.Stores net info) := by
  by_cases hfree : (t.table (insertSide info.peerType)).Free conn info.peerId
  · exact iff_of_true ((replaced_of_free hfree).loggedIn_iff.mpr rfl) (.inl hfree)
  by_cases htype : info.peerType = .server
  · have hfree' : ¬ t.serverSet.Free conn info.peerId := by rw [htype] at hfree; exact hfree
    by_cases hrepeated : ∃ e, t.Repeated .peers conn info pt e
    · obtain ⟨e,he⟩ := hrepeated
      rw [loggedIn_server_iff htype hfree' he]
      exact ⟨fun h => .inr (.inr ⟨htype,⟨e,he⟩,h⟩),fun h => ((h.resolve_left hfree).resolve_left
        fun h => h.1 htype).2.2⟩
    · have hnone : (insert net now t conn info pt).2 = none :=
        insert_server htype hfree' (not_exists.mp hrepeated)
      refine iff_of_false (fun h => h.returned hnone) ?_
      rintro (h | ⟨h,-⟩ | ⟨-,h,-⟩)
      · exact hfree h
      · exact h htype
      · exact hrepeated h
  · have hside : updataSide info.peerType = insertSide info.peerType := by
      cases hp : info.peerType <;> first | rfl | exact absurd hp htype
    by_cases hrepeated : ∃ e, t.Repeated (insertSide info.peerType) conn info pt e
    · obtain ⟨e,he⟩ := hrepeated
      exact iff_of_true (loggedIn_of_repeated hside he) (.inr (.inl ⟨htype,.inr (.inr ⟨e,he⟩)⟩))
    · have hslot : ∃ slot, (slot = t.translateRelativePlayingPointSlot
        (t.translateRelativePlayingPointSlot pt) ∨
          slot = t.translateRelativePlayingPointSlot
            (t.translateRelativePlayingPointSlot (t.translateRelativePlayingPointSlot pt))) ∧
          Replaced t (insertSide info.peerType) (Peer.new net now info conn slot)
            (insert net now t conn info pt) := by
        by_cases hs : ∀ e ∈ (t.table (insertSide info.peerType)).entries, e.socket≠conn
        · exact ⟨_,.inl rfl,replaced_of_id hside hs hfree⟩
        · push Not at hs
          obtain ⟨e,he,hsocket⟩ := hs
          refine replaced_of_socket hside he hsocket ?_
          by_contra hno
          push Not at hno
          exact hrepeated ⟨e,he,hsocket,hno.2.symm,hno.1.symm⟩
      obtain ⟨slot,hor,hreplaced⟩ := hslot
      rw [hreplaced.loggedIn_iff,t.translate_again_iff pt hor]
      simp [hfree,htype,hrepeated]

section Example

def loopback (conn : ℕ) : Remote := ⟨conn,1,true⟩

def loginInfo (id : ℕ) (type : PeerType) : PeerInfo ℕ Unit := ⟨id,type,0,0,0,0,()⟩

def emptyTable (totalVideoTimeMsec : ℤ) : MemberTable ℕ ℕ Unit :=
  ⟨⟨[],nodup_nil,nodup_nil⟩,⟨[],nodup_nil,nodup_nil⟩,totalVideoTimeMsec⟩

/-- Logins one after the other, with socket, id, type and playing point. -/
def logins (totalVideoTimeMsec : ℤ) (l : List (ℕ × ℕ × PeerType × ℤ)) :
    MemberTable ℕ ℕ Unit × Option (Peer ℕ ℕ Unit) :=
  l.foldl (fun r (conn, id, type, pt) => insert loopback 0 r.1 conn (loginInfo id type) pt)
    (emptyTable totalVideoTimeMsec, none)

/-- A server with a new socket gets no entry, and a peer that moves on in a film gets the
wrong slot. -/
theorem login_postcondition_fails : (logins 0 [(1, 5, .server, 0),(2, 5, .server, 0)]).2.isNone ∧
    (logins 0 [(1, 5, .server, 0),(2, 5, .server, 0)]).1.serverSet.entries.map Peer.socket = [1] ∧
    (logins 1 [(1, 5, .normalPeer, 0),(1, 5, .normalPeer, 30000)]).1.peers.entries.map
      Peer.relativePlayingPointSlot = [0] ∧
    (30000 : ℤ).tdiv playingPointSlotDuration = 2 := by
  decide +kernel

end Example

end MemberTable

end P2Streaming
