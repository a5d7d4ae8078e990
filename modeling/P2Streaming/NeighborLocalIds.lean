import P2Streaming.OverlayPlaces

/-!
# Local ids of neighbours

`neighbor_map` numbers its connections with a `basic_local_id_allocator<int>` that reuses ids. The
number is written into the connection object, so it is read back from there when an entry is erased.
-/
namespace P2Streaming
open TransitionRuns List

/-- `basic_local_id_allocator`, reusing ids, with no low water mark and nothing reserved. -/
structure LocalIdAllocator where
  availIdSet : List ℕ
  tailId : ℕ

namespace LocalIdAllocator

variable (a : LocalIdAllocator)

/-- `alloc_id`: the id released first, or else the next new one. -/
def allocId : ℕ × LocalIdAllocator :=
  match a.availIdSet with
  | id :: rest => (id, { a with availIdSet := rest })
  | [] => (a.tailId, { a with tailId := a.tailId + 1 })

def releaseId (id : ℕ) : LocalIdAllocator :=
  if id<a.tailId ∧ id ∉ a.availIdSet then { a with availIdSet := a.availIdSet ++ [id] } else a

def reset : LocalIdAllocator := ⟨[],0⟩

/-- An id that can be handed out: it is released, or was never taken. -/
def Available (id : ℕ) : Prop := id ∈ a.availIdSet ∨ a.tailId ≤ id

/-- The ids in use and the released ones are all ids ever taken, each of them once. -/
def Holds (ids : List ℕ) : Prop := (ids++a.availIdSet).Perm (List.range a.tailId)

namespace Holds

variable {a : LocalIdAllocator} {ids : List ℕ} {k : ℕ}

section
variable (h : a.Holds ids)
include h

theorem nodup : (ids++a.availIdSet).Nodup := h.nodup_iff.mpr nodup_range

theorem mem_iff : k∈ids ∨ k∈a.availIdSet ↔ k<a.tailId := by
  rw [← mem_append,List.Perm.mem_iff h,mem_range]

theorem available_iff : a.Available k ↔ k ∉ ids := by
  have hmem := h.mem_iff (k := k)
  have hdisj := (nodup_append.mp h.nodup).2.2 k
  unfold Available
  grind

theorem allocId : a.allocId.2.Holds (a.allocId.1::ids) ∧
    a.allocId.2.tailId ≤ max a.tailId (ids.length+1) := by
  have hlen := h.length_eq
  unfold Holds at h
  cases hav : a.availIdSet with
  | cons id rest =>
    rw [hav] at h
    simp only [LocalIdAllocator.allocId,hav,Holds]
    exact ⟨perm_middle.symm.trans h,Nat.le_max_left _ _⟩
  | nil =>
    rw [hav,append_nil] at h hlen
    simp only [LocalIdAllocator.allocId,hav,Holds,append_nil,range_succ]
    refine ⟨(perm_append_singleton _ _).symm.trans (h.append_right _),?_⟩
    rw [hlen,length_range]
    exact Nat.le_max_right _ _

end

theorem tailId_releaseId : (a.releaseId k).tailId = a.tailId := by
  unfold LocalIdAllocator.releaseId
  split_ifs <;> rfl

theorem releaseId (h : a.Holds (k::ids)) : (a.releaseId k).Holds ids := by
  have hlt : k<a.tailId := h.mem_iff.mp (.inl mem_cons_self)
  have hout : k ∉ a.availIdSet := fun hin => (nodup_cons.mp h.nodup).1 (mem_append_right _ hin)
  rw [LocalIdAllocator.releaseId,if_pos ⟨hlt,hout⟩,Holds,← append_assoc]
  exact (perm_append_singleton _ _).trans h

end Holds
end LocalIdAllocator

/-- `neighbor_map` with its ids; `localId` is the field of each connection object. -/
structure NumberedNeighbors (Id Conn : Type*) where
  peers : NeighborMap Id Conn
  idAllocator : LocalIdAllocator
  localId : Conn → ℕ

inductive NeighborEvent (Id Conn : Type*) where
  | insert (id : Id) (conn : Conn)
  -- an iterator is known by the id of its entry
  | erase (id : Id)
  | clear

namespace NumberedNeighbors

variable {Id Conn : Type*} [DecidableEq Id] [DecidableEq Conn]

def create (maxPeerCnt : ℕ) (localId : Conn → ℕ) : NumberedNeighbors Id Conn :=
  ⟨⟨maxPeerCnt,∅,Nat.zero_le _⟩,.reset,localId⟩

variable (m : NumberedNeighbors Id Conn)

def insert (id : Id) (conn : Conn) : NumberedNeighbors Id Conn × Bool :=
  if (m.peers.insert id conn).2 then
    (⟨(m.peers.insert id conn).1,m.idAllocator.allocId.2,
      Function.update m.localId conn m.idAllocator.allocId.1⟩, true)
  else (m, false)

def erase (id : Id) : NumberedNeighbors Id Conn :=
  match m.peers.find id with
  | some conn => ⟨m.peers.erase id,m.idAllocator.releaseId (m.localId conn),m.localId⟩
  | none => m

def clear : NumberedNeighbors Id Conn := ⟨m.peers.clear,.reset,m.localId⟩

def step : NeighborEvent Id Conn → NumberedNeighbors Id Conn
  | .insert id conn => (m.insert id conn).1
  | .erase id => m.erase id
  | .clear => m.clear

def localIds : List ℕ := m.peers.conns.map m.localId

/-- Different peer ids are stored with different connection objects. -/
def Apart : NeighborEvent Id Conn → Prop
  | .insert id conn => ∀ entry∈m.peers.container.entries, entry.2=conn → entry.1=id
  | _ => True

structure Numbered (max : ℕ) (m : NumberedNeighbors Id Conn) : Prop where
  limit : m.peers.maxPeerCnt=max
  held : m.idAllocator.Holds m.localIds
  tail : m.idAllocator.tailId ≤ max

variable {m} {max : ℕ} {id : Id} {conn : Conn}

omit [DecidableEq Conn] in
theorem mem_localIds (hfind : m.peers.find id = some conn) : m.localId conn ∈ m.localIds :=
  mem_map_of_mem (mem_map.mpr ⟨⟨id,conn⟩,AList.mem_lookup_iff.mp hfind,rfl⟩)

omit [DecidableEq Conn] in
theorem localIds_erase (hfind : m.peers.find id = some conn) :
    m.localIds.Perm (m.localId conn :: (m.erase id).localIds) := by
  have hmem := AList.mem_lookup_iff.mp hfind
  obtain ⟨c,before,after,-,hl,he⟩ := exists_of_kerase (mem_keys_of_mem hmem)
  have hc : c=conn := m.peers.container.nodupKeys.eq_of_mk_mem (by simp [hl]) hmem
  have hrest : (m.peers.container.erase id).entries = before++after := he
  simp only [localIds,erase,hfind,NeighborMap.conns,NeighborMap.erase,hrest]
  rw [hl,hc]
  simp

theorem insert_of_refused (h : ¬(m.peers.find id = none ∧ m.peers.size < m.peers.maxPeerCnt)) :
    m.insert id conn = (m, false) := by
  have hno : (m.peers.insert id conn).2 = false := by
    unfold NeighborMap.insert
    split_ifs with hfull hmem
    · rfl
    · rfl
    · exact absurd ⟨NeighborMap.find_eq_none.mpr hmem,Nat.lt_of_not_le hfull⟩ h
  rw [insert,hno]
  rfl

theorem insert_of_room (h : m.peers.find id = none ∧ m.peers.size < m.peers.maxPeerCnt) :
    m.insert id conn = (⟨(m.peers.insert id conn).1,m.idAllocator.allocId.2,
      Function.update m.localId conn m.idAllocator.allocId.1⟩, true) :=
  if_pos (NeighborMap.insert_eq_true conn h.2 h.1).1

theorem localIds_insert (h : m.peers.find id = none ∧ m.peers.size < m.peers.maxPeerCnt)
    (hapart : m.Apart (.insert id conn)) :
    (m.insert id conn).1.localIds = m.idAllocator.allocId.1 :: m.localIds := by
  have hmem : id ∉ m.peers.container := NeighborMap.find_eq_none.mp h.1
  have hconns : (m.peers.insert id conn).1.conns = conn :: m.peers.conns := by
    rw [NeighborMap.insert,dif_neg (Nat.not_le.mpr h.2),dif_neg hmem]
    exact congrArg _ (AList.entries_insert_of_notMem hmem)
  have hout : conn ∉ m.peers.conns := by
    intro hin
    obtain ⟨⟨other,c⟩,hother,rfl⟩ := mem_map.mp hin
    rw [← hapart _ hother rfl] at hmem
    exact hmem (mem_keys_of_mem hother)
  rw [insert_of_room h,localIds]
  dsimp only
  rw [hconns,map_cons,Function.update_self,localIds]
  congr 1
  -- the other connections keep their ids
  exact map_congr_left fun c hc => Function.update_of_ne (ne_of_mem_of_not_mem hc hout) _ _

namespace Numbered

theorem step (h : m.Numbered max) {e : NeighborEvent Id Conn} (hapart : m.Apart e) :
    (m.step e).Numbered max := by
  cases e with
  | insert id conn =>
    by_cases hroom : m.peers.find id = none ∧ m.peers.size < m.peers.maxPeerCnt
    · obtain ⟨hheld,htail⟩ := h.held.allocId
      have hids := localIds_insert hroom hapart
      have hsize : m.localIds.length=m.peers.size := by
        simp [localIds,NeighborMap.conns,NeighborMap.size]
      have hlimit : (m.peers.insert id conn).1.maxPeerCnt = m.peers.maxPeerCnt := by
        unfold NeighborMap.insert
        split_ifs <;> rfl
      rw [← hids] at hheld
      rw [NumberedNeighbors.step]
      rw [insert_of_room hroom] at hheld ⊢
      refine ⟨hlimit.trans h.limit,hheld,Nat.le_trans htail (Nat.max_le.mpr ⟨h.tail,?_⟩)⟩
      rw [hsize,← h.limit]
      exact hroom.2
    · rwa [NumberedNeighbors.step,insert_of_refused hroom]
  | erase id =>
    cases hfind : m.peers.find id with
    | none => rwa [NumberedNeighbors.step,erase,hfind]
    | some conn =>
      have hheld : m.idAllocator.Holds (m.localId conn :: (m.erase id).localIds) :=
        ((localIds_erase hfind).symm.append_right _).trans h.held
      have hrelease := hheld.releaseId
      rw [NumberedNeighbors.step]
      rw [erase,hfind] at hrelease ⊢
      exact ⟨h.limit,hrelease,by rw [LocalIdAllocator.Holds.tailId_releaseId]; exact h.tail⟩
  | clear => exact ⟨h.limit,.nil,Nat.zero_le _⟩

/-- For every stored connection, the event makes its id available exactly by erasing it. -/
theorem available_step_iff (h : m.Numbered max) (hfind : m.peers.find id = some conn)
    {e : NeighborEvent Id Conn} (hapart : m.Apart e) :
    (m.step e).idAllocator.Available (m.localId conn) ↔ e = .erase id ∨ e = .clear := by
  have hin := mem_localIds hfind
  rw [(h.step hapart).held.available_iff]
  cases e with
  | insert other c =>
    suffices m.localId conn ∈ (m.insert other c).1.localIds by simpa [NumberedNeighbors.step] using this
    by_cases hroom : m.peers.find other = none ∧ m.peers.size < m.peers.maxPeerCnt
    · rw [localIds_insert hroom hapart]
      exact mem_cons_of_mem _ hin
    · rwa [insert_of_refused hroom]
  | erase other =>
    by_cases hsame : other=id
    · subst hsame
      have hids := (localIds_erase hfind).nodup_iff.mp (nodup_append.mp h.held.nodup).1
      simpa [NumberedNeighbors.step] using (nodup_cons.mp hids).1
    · suffices m.localId conn ∈ (m.erase other).localIds by
        simpa [NumberedNeighbors.step,hsame] using this
      unfold erase
      cases m.peers.find other with
      | none => exact hin
      | some c => exact mem_localIds ((m.peers.find_erase_of_ne (Ne.symm hsame)).trans hfind)
  | clear => simp [NumberedNeighbors.step,clear,localIds,NeighborMap.clear,NeighborMap.conns]

end Numbered

/-- In every state a map reaches, and for every event then: the ids of the stored connections are
different and below the limit, an insertion fails only for a known peer or a full map, an id is
available just when no stored connection has it, and the id of a stored connection becomes so
exactly when the connection is erased. -/
theorem local_ids_unique (max : ℕ) (localId : Conn → ℕ) (es : List (NeighborEvent Id Conn))
    (hrun : AlongRun step Apart (create max localId) es) :
    let m : NumberedNeighbors Id Conn := es.foldl step (create max localId)
    m.localIds.Nodup ∧ (∀ k∈m.localIds, k < max) ∧
      (∀ id conn, (m.insert id conn).2 = false ↔ m.peers.find id ≠ none ∨ m.peers.size=max) ∧
      (∀ k, m.idAllocator.Available k ↔ k ∉ m.localIds) ∧
      ∀ id conn, m.peers.find id = some conn → ∀ e, m.Apart e →
        ((m.step e).idAllocator.Available (m.localId conn) ↔ e = .erase id ∨ e = .clear) := by
  intro m
  have h : m.Numbered max := invariant_of_run (Numbered max) (fun _ _ hp hm => hm.step hp) hrun
    ⟨rfl,.nil,Nat.zero_le _⟩
  refine ⟨(nodup_append.mp h.held.nodup).1,fun k hk => ?_,fun id conn => ?_,
    fun _ => h.held.available_iff,fun _ _ hfind _ => h.available_step_iff hfind⟩
  · exact Nat.lt_of_lt_of_le (h.held.mem_iff.mp (.inl hk)) h.tail
  · have hbound : m.peers.size ≤ m.peers.maxPeerCnt := m.peers.bounded
    rw [← h.limit]
    by_cases hroom : m.peers.find id = none ∧ m.peers.size < m.peers.maxPeerCnt
    · simp [hroom,insert_of_room hroom,Nat.ne_of_lt hroom.2]
    · simp only [insert_of_refused hroom,true_iff]
      by_contra hnot
      rw [not_or,not_not] at hnot
      exact hroom ⟨hnot.1,Nat.lt_of_le_of_ne hbound hnot.2⟩

/-- A connection erased and another one inserted: the second gets the id of the first. -/
theorem erased_id_reused :
    let m : NumberedNeighbors ℕ ℕ :=
      [.insert 5 50,.insert 6 60,.erase 5,.insert 7 70].foldl step (create 2 fun _ => 9)
    m.localIds = [0,1] ∧ m.localIds.Nodup :=
  ⟨by decide,(local_ids_unique 2 (fun _ => 9) [.insert 5 50,.insert 6 60,.erase 5,.insert 7 70]
    ⟨by simp only [Apart]; decide,by simp only [Apart]; decide,trivial,by simp only [Apart]; decide,
      trivial⟩).1⟩

end NumberedNeighbors
end P2Streaming
