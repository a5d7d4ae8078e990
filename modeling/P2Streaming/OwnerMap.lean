import P2Streaming.IndexedVectors
import P2Streaming.TransitionRuns
import Mathlib.Data.Fintype.Card

/-!
# `owner_map`: the connections that have a packet

The owners stand in a vector, and an array says for each local id where its owner stands. Local ids
are given to later connections again, so an owner also has the uuid of its connection. The array is
released with the owners and made anew with the next one. Where the source reads behind the end of
the vector the model leaves the map as it is; no consistent map comes to that.
-/
namespace P2Streaming
open IndexedVectors TransitionRuns Function List

variable {Conn : Type*} {cnt : ℕ}

/-- What `owner_map` reads of a connection; local ids lie below `STREAM_NEIGHTBOR_PEER_CNT`. -/
structure ConnIds (Conn : Type*) (cnt : ℕ) where
  localId : Conn → Fin cnt
  localUuid : Conn → BitVec 32
  isLinkLocal : Conn → Bool

structure Owner (Conn : Type*) (cnt : ℕ) where
  conn : Conn
  uuid : BitVec 32
  id : Fin cnt
  requestDeadline : BitVec 4
  isLinkLocal : Bool

/-- The constructor of `owner` and `assign`, with `kRequestDeadline`. -/
def ConnIds.owner (L : ConnIds Conn cnt) (c : Conn) : Owner Conn cnt :=
  ⟨c,L.localUuid c,L.localId c,2,L.isLinkLocal c⟩

structure OwnerMap (Conn : Type*) (cnt : ℕ) where
  ownerIndex : Option (Fin cnt → ℤ)
  ownerVec : List (Owner Conn cnt)

def int8 (pos : ℕ) : ℤ := (BitVec.ofNat 8 pos).toInt

namespace OwnerMap

variable (L : ConnIds Conn cnt) (m : OwnerMap Conn cnt)

def create : OwnerMap Conn cnt := ⟨some fun _ => -1,[]⟩

def index : Fin cnt → ℤ := m.ownerIndex.getD fun _ => -1

def insert (c : Conn) : OwnerMap Conn cnt :=
  let pos := m.index (L.localId c)
  if 0≤pos then
    if (m.ownerVec[pos.toNat]?).any (fun o => decide (o.uuid = L.localUuid c)) then
      ⟨some m.index,m.ownerVec⟩
    else ⟨some m.index,m.ownerVec.set pos.toNat (L.owner c)⟩
  else
    ⟨some (update m.index (L.localId c) (int8 m.ownerVec.length)),m.ownerVec ++ [L.owner c]⟩

def reset : OwnerMap Conn cnt := if m.ownerIndex.isSome then ⟨none,[]⟩ else m

/-- `erase_owner`; the entry of the array is cleared before the uuids are compared. -/
def eraseOwner (id : Fin cnt) (uuid : Option (BitVec 32)) : OwnerMap Conn cnt :=
  match m.ownerIndex with
  | none => m
  | some index =>
      if index id < 0 then m
      else
        let pos := (index id).toNat
        let cleared := update index id (-1)
        match m.ownerVec[pos]?, m.ownerVec.getLast? with
        | some o, some last =>
            if uuid.all fun u => decide (u=o.uuid) then
              if pos + 1 = m.ownerVec.length then ⟨some cleared,m.ownerVec.dropLast⟩
              else
                ⟨some (update cleared last.id (int8 pos)),(m.ownerVec.set pos last).dropLast⟩
            else ⟨some cleared,m.ownerVec⟩
        | _, _ => ⟨some cleared,m.ownerVec⟩

def erase (c : Conn) : OwnerMap Conn cnt := m.eraseOwner (L.localId c) (some (L.localUuid c))

/-- `find`; with an owner in the vector it returns nothing, and without one it would read behind
the end. -/
def find (c : Conn) : OwnerMap Conn cnt × Option Conn :=
  match m.ownerIndex with
  | none => (m, none)
  | some index =>
      if index (L.localId c) < 0 then (m, none)
      else (⟨some (update index (L.localId c) (-1)),m.ownerVec⟩, none)

def decRequestDeadline (c : Conn) : OwnerMap Conn cnt × Bool :=
  let pos := m.index (L.localId c)
  if 0≤pos ∧ pos < m.ownerVec.length then
    ({ m with
      ownerVec := m.ownerVec.modify pos.toNat fun o =>
        { o with requestDeadline := o.requestDeadline - 1 } }, true)
  else (m, false)

variable (alive : Conn → Bool)

/-- `select`, which takes a local id; a connection that is gone or not connected is not alive. The
deadline is unsigned. -/
def select (i : ℕ) : OwnerMap Conn cnt × Option Conn :=
  if h : i<cnt then
    if m.index ⟨i,h⟩ < 0 then (m, none)
    else
      match m.ownerVec[(m.index ⟨i,h⟩).toNat]? with
      | none => (m, none)
      | some o =>
          if alive o.conn then if 0 ≤ (o.requestDeadline.toNat : ℤ) then (m, some o.conn) else (m, none)
          else (m.eraseOwner o.id none, none)
  else (m, none)

/-- `random % size`, which needs a size that is not zero. -/
def remainder (random size : ℕ) : Option ℕ := if size=0 then none else some (random % size)

/-- The position a pass of the first loop looks at, and the tries for a link local owner that are
left; `random` has the numbers drawn in this pass. -/
def pick (random : ℕ → ℕ) (n : ℕ) : ℕ → ℕ → Option (ℕ × ℕ)
  | 0, j => (remainder (random j) m.ownerVec.length).map fun i => (i, 0)
  | tries + 1, j =>
      (remainder (random j) m.ownerVec.length).bind fun i =>
        if 1<n ∧ (m.ownerVec[i]?).any (fun o => !o.isLinkLocal) then
          if 0<tries then pick random n tries (j+1) else some (i, tries)
        else some (i, tries + 1)

/-- What the random choices of a call give: the numbers drawn in each pass of the first loop, the
direction of the second loop and the number drawn at the end. -/
structure Choices where
  probe : ℕ → ℕ → ℕ
  reverse : Bool
  last : ℕ

/-- A loop returns what it has found, and nothing once the vector is empty. -/
def settled (rst : Option Conn) : Option (Option Conn) :=
  if rst.isSome || m.ownerVec.isEmpty then some rst else none

/-- The first loop from pass `n` on. -/
def probes (c : Choices) : ℕ → ℕ → OwnerMap Conn cnt → Option (OwnerMap Conn cnt × Option (Option Conn))
  | 0, tries, m =>
      (m.pick (c.probe 0) 0 tries 0).map fun p =>
        let r := m.select alive p.1
        (r.1, r.1.settled r.2)
  | n + 1, tries, m =>
      (m.pick (c.probe (n+1)) (n+1) tries 0).bind fun p =>
        let r := m.select alive p.1
        match r.1.settled r.2 with
        | some rst => some (r.1, some rst)
        | none => probes c n p.2 r.1

/-- The second loop from pass `n` on; it has at most as many passes as there are owners. -/
def sweep (reverse : Bool) : ℕ → ℕ → OwnerMap Conn cnt → OwnerMap Conn cnt × Option (Option Conn)
  | 0, _, m => (m, none)
  | passes + 1, n, m =>
      if n < m.ownerVec.length then
        let r := m.select alive (if reverse then m.ownerVec.length - n - 1 else n)
        match r.1.settled r.2 with
        | some rst => (r.1, some rst)
        | none => sweep reverse passes (n+1) r.1
      else (m, none)

/-- `random_select`; without a result a remainder by zero has been computed. -/
def randomSelect (c : Choices) : Option (OwnerMap Conn cnt × Option Conn) :=
  if m.ownerVec.isEmpty then some (m, none)
  else
    (probes alive c (m.ownerVec.length / 2) 2 m).bind fun p =>
      match p.2 with
      | some rst => some (p.1, rst)
      | none =>
          let q := sweep alive c.reverse p.1.ownerVec.length 0 p.1
          match q.2 with
          | some rst => some (q.1, rst)
          | none => (remainder c.last q.1.ownerVec.length).map fun i => q.1.select alive i

/-! ### The array and the vector -/

def Consistent : Prop := Indexes Owner.id m.index m.ownerVec

variable {m L}

theorem int8_of_le {pos : ℕ} (h : pos≤127) : int8 pos = pos := by
  rw [int8,BitVec.toInt_eq_toNat_of_lt,BitVec.toNat_ofNat,Nat.mod_eq_of_lt (by omega)]
  rw [BitVec.toNat_ofNat,Nat.mod_eq_of_lt (by omega)]
  omega

theorem consistent_create : (create : OwnerMap Conn cnt).Consistent := Indexes.nil

section
variable (h : m.Consistent)
include h

theorem Consistent.length_le : m.ownerVec.length ≤ cnt := by
  have hcard := h.nodup.length_le_card
  rwa [length_map,Fintype.card_fin] at hcard

theorem Consistent.reset : m.reset.Consistent := by
  unfold OwnerMap.reset
  split_ifs
  · exact Indexes.nil
  · exact h

theorem Consistent.insert (hcnt : cnt≤127) (c : Conn) : (m.insert L c).Consistent := by
  unfold OwnerMap.insert
  dsimp only
  split_ifs with hpos huuid
  · exact h
  · obtain ⟨o,ho,hid⟩ := h.getElem?_of_nonneg hpos
    exact h.set ho hid.symm
  · have hlen := h.length_le
    rw [int8_of_le (by omega)]
    exact h.push (x := L.owner c) (not_le.mp hpos)

theorem Consistent.decRequestDeadline (c : Conn) :
    (m.decRequestDeadline L c).1.Consistent := by
  unfold OwnerMap.decRequestDeadline
  dsimp only
  split_ifs
  · apply h.modify
    intro o
    rfl
  · exact h

theorem eraseOwner_of_absent {id : Fin cnt} (hid : ∀ o∈m.ownerVec, o.id≠id)
    (uuid : Option (BitVec 32)) : m.eraseOwner id uuid = m := by
  have hneg := (h.neg_iff id).mpr hid
  unfold eraseOwner
  unfold index at hneg
  cases hindex : m.ownerIndex with
  | none => rfl
  | some index =>
    rw [hindex,Option.getD_some] at hneg
    dsimp only
    rw [if_pos hneg]

theorem eraseOwner_of_getElem? (hcnt : cnt≤127) {k : ℕ} {o last : Owner Conn cnt}
    (hk : m.ownerVec[k]? = some o) (hlast : m.ownerVec.getLast? = some last) (uuid : Option (BitVec 32)) :
    m.eraseOwner o.id uuid = if uuid.all fun u => decide (u=o.uuid) then
        if k + 1 = m.ownerVec.length then
          ⟨some (update m.index o.id (-1)),m.ownerVec.dropLast⟩
        else
          ⟨some (update (update m.index o.id (-1)) last.id k),
            (m.ownerVec.set k last).dropLast⟩
      else ⟨some (update m.index o.id (-1)),m.ownerVec⟩ := by
  have hpos := h.of_getElem? hk
  have hlen := h.length_le
  have hlt := (List.getElem?_eq_some_iff.mp hk).1
  unfold eraseOwner
  unfold index at hpos ⊢
  cases hindex : m.ownerIndex with
  | none =>
    rw [hindex,Option.getD_none] at hpos
    omega
  | some index =>
    rw [hindex,Option.getD_some] at hpos
    dsimp only [Option.getD_some]
    rw [hpos,if_neg (by omega),Int.toNat_natCast,hk,hlast]
    rw [int8_of_le (by omega)]

end

variable {o : Owner Conn cnt}

section
variable (h : m.Consistent)
include h

theorem eraseOwner_spec (hcnt : cnt≤127)
    (ho : o∈m.ownerVec) {uuid : Option (BitVec 32)} (huuid : ∀ u∈uuid, u=o.uuid) :
    (m.eraseOwner o.id uuid).Consistent ∧
      m.ownerVec.Perm (o :: (m.eraseOwner o.id uuid).ownerVec) := by
  obtain ⟨k,hk⟩ := List.getElem?_of_mem ho
  have hlt := (List.getElem?_eq_some_iff.mp hk).1
  have hmatch : (uuid.all fun u => decide (u=o.uuid)) = true := by
    rw [Option.all_eq_true]
    exact fun u hu => decide_eq_true (huuid u hu)
  obtain ⟨xs,last,hvec⟩ : ∃ xs last, m.ownerVec = xs ++ [last] :=
    ⟨_,_,(dropLast_append_getLast (ne_nil_of_mem ho)).symm⟩
  have hlast : m.ownerVec.getLast? = some last := by rw [hvec,List.getLast?_concat]
  have hlen : m.ownerVec.length=xs.length+1 := by rw [hvec,length_append,length_singleton]
  rw [eraseOwner_of_getElem? h hcnt hk hlast,if_pos hmatch]
  unfold Consistent at h
  rw [hvec] at h hk
  rw [hvec,length_append,length_singleton]
  split_ifs with hend
  · -- the owner is the last one
    have hsame : last=o := by
      have hk' : k=xs.length := by omega
      rw [hk',List.getElem?_concat_length] at hk
      exact Option.some.inj hk
    subst hsame
    rw [dropLast_concat]
    exact ⟨h.pop,perm_append_singleton _ _⟩
  · have hlt' : k<xs.length := by omega
    rw [List.getElem?_append_left hlt'] at hk
    have hset : (xs ++ [last]).set k last = xs.set k last ++ [last] := set_append_left _ _ hlt'
    rw [hset,dropLast_concat]
    exact ⟨h.moveLast hk,perm_set_of_append hk⟩

theorem eraseOwner_of_uuid_ne (hcnt : cnt≤127)
    (ho : o∈m.ownerVec) {u : BitVec 32} (hu : u≠o.uuid) :
    m.eraseOwner o.id (some u) = ⟨some (update m.index o.id (-1)),m.ownerVec⟩ := by
  obtain ⟨k,hk⟩ := List.getElem?_of_mem ho
  have hlast := List.getLast?_eq_getLast_of_ne_nil (ne_nil_of_mem ho)
  rw [eraseOwner_of_getElem? h hcnt hk hlast,if_neg]
  simpa using hu

theorem select_of_absent {i : ℕ} (hi : ∀ o∈m.ownerVec, o.id.val≠i) :
    m.select alive i = (m, none) := by
  unfold select
  split_ifs with hlt hneg
  · rfl
  · obtain ⟨o,ho,hid⟩ := h.getElem?_of_nonneg (not_lt.mp hneg)
    exact absurd (congrArg Fin.val hid) (hi o (mem_of_getElem? ho))
  · rfl

theorem select_of_mem (ho : o∈m.ownerVec) : m.select alive o.id =
      if alive o.conn then (m, some o.conn) else (m.eraseOwner o.id none, none) := by
  obtain ⟨k,hk⟩ := List.getElem?_of_mem ho
  have hpos := h.of_getElem? hk
  unfold select
  rw [dif_pos o.id.isLt,hpos,if_neg (by omega),Int.toNat_natCast,hk]
  dsimp only
  rw [if_pos (by omega : (0 : ℤ) ≤ (o.requestDeadline.toNat : ℤ))]

theorem Consistent.select (hcnt : cnt≤127) (i : ℕ) :
    (m.select alive i).1.Consistent := by
  by_cases hi : ∀ o∈m.ownerVec, o.id.val≠i
  · rw [select_of_absent alive h hi]
    exact h
  · push Not at hi
    obtain ⟨o,ho,rfl⟩ := hi
    rw [select_of_mem alive h ho]
    split_ifs
    · exact h
    · exact (eraseOwner_spec h hcnt ho (by simp)).1

end

theorem Consistent.probes {c : Choices} (hcnt : cnt≤127) {n tries : ℕ} (h : m.Consistent)
    {p : OwnerMap Conn cnt × Option (Option Conn)} (hp : probes alive c n tries m = some p) :
    p.1.Consistent := by
  induction n generalizing m tries with
  | zero =>
    obtain ⟨q,-,rfl⟩ := Option.map_eq_some_iff.mp hp
    exact h.select alive hcnt _
  | succ n ih =>
    obtain ⟨q,-,hq⟩ := Option.bind_eq_some_iff.mp hp
    dsimp only at hq
    split at hq
    · cases hq
      exact h.select alive hcnt _
    · exact ih (h.select alive hcnt _) hq

theorem Consistent.sweep (hcnt : cnt≤127) (reverse : Bool) (passes : ℕ) {n : ℕ} (h : m.Consistent) :
    (sweep alive reverse passes n m).1.Consistent := by
  induction passes generalizing m n with
  | zero => exact h
  | succ passes ih =>
    rw [OwnerMap.sweep]
    by_cases hn : n < m.ownerVec.length
    · rw [if_pos hn]
      dsimp only
      split
      · exact h.select alive hcnt _
      · exact ih (h.select alive hcnt _)
    · rw [if_neg hn]
      exact h

theorem Consistent.randomSelect (h : m.Consistent) (hcnt : cnt≤127) {c : Choices}
    {p : OwnerMap Conn cnt × Option Conn} (hp : m.randomSelect alive c = some p) : p.1.Consistent := by
  unfold OwnerMap.randomSelect at hp
  by_cases hempty : m.ownerVec.isEmpty=true
  · rw [if_pos hempty] at hp
    cases hp
    exact h
  rw [if_neg hempty] at hp
  obtain ⟨q,hq,hp⟩ := Option.bind_eq_some_iff.mp hp
  have hqc := h.probes alive hcnt hq
  dsimp only at hp
  split at hp
  · cases hp
    exact hqc
  · have hsc := hqc.sweep alive hcnt c.reverse q.1.ownerVec.length (n := 0)
    split at hp
    · cases hp
      exact hsc
    · obtain ⟨i,-,rfl⟩ := Option.map_eq_some_iff.mp hp
      exact hsc.select alive hcnt i

/-! ### Runs -/

inductive Event (Conn : Type*) (cnt : ℕ) where
  | insert (c : Conn)
  | erase (c : Conn)
  | find (c : Conn)
  | select (alive : Conn → Bool) (i : Fin cnt)
  | randomSelect (alive : Conn → Bool) (choices : Choices)
  | decRequestDeadline (c : Conn)
  | reset

def step (L : ConnIds Conn cnt) (m : OwnerMap Conn cnt) : Event Conn cnt → OwnerMap Conn cnt
  | .insert c => m.insert L c
  | .erase c => m.erase L c
  | .find c => (m.find L c).1
  | .select alive i => (m.select alive i).1
  | .randomSelect alive choices => ((m.randomSelect alive choices).map Prod.fst).getD m
  | .decRequestDeadline c => (m.decRequestDeadline L c).1
  | .reset => m.reset

/-- The connection is recorded: an owner has its id and its uuid. -/
def Records (L : ConnIds Conn cnt) (m : OwnerMap Conn cnt) (c : Conn) : Prop :=
  ∃ o∈m.ownerVec, o.id = L.localId c ∧ o.uuid = L.localUuid c

instance (L : ConnIds Conn cnt) (m : OwnerMap Conn cnt) (c : Conn) : Decidable (m.Records L c) :=
  inferInstanceAs (Decidable (∃ o∈m.ownerVec, _))

/-- `find` changes nothing and returns the connection just when it is recorded. -/
def Finds (L : ConnIds Conn cnt) (m : OwnerMap Conn cnt) : Event Conn cnt → Prop
  | .find c => (m.find L c).1 = m ∧ ((m.find L c).2 = some c ↔ m.Records L c)
  | _ => True

/-- The array and the vector agree, and no id stands twice in the vector. -/
def IndexAgrees (m : OwnerMap Conn cnt) : Prop :=
  (∀ (id : Fin cnt) (k : ℕ), m.index id = k ↔
    ∃ h : k < m.ownerVec.length, (m.ownerVec.get ⟨k,h⟩).id = id) ∧
  (m.ownerVec.map Owner.id).Nodup

/-- A connection is searched only if no owner has its id, and erased only if no owner of its id has
another uuid. -/
def Careful (L : ConnIds Conn cnt) (m : OwnerMap Conn cnt) : Event Conn cnt → Prop
  | .erase c => ∀ o∈m.ownerVec, o.id = L.localId c → o.uuid = L.localUuid c
  | .find c => ∀ o∈m.ownerVec, o.id ≠ L.localId c
  | _ => True

instance (L : ConnIds Conn cnt) (m : OwnerMap Conn cnt) (e : Event Conn cnt) :
    Decidable (Careful L m e) := by
  cases e <;> unfold Careful <;> infer_instance

theorem indexAgrees_iff : m.IndexAgrees ↔ m.Consistent := by
  have hpos : ∀ (id : Fin cnt) (k : ℕ), (∃ h : k < m.ownerVec.length, (m.ownerVec.get ⟨k,h⟩).id = id) ↔
      ∃ o, m.ownerVec[k]? = some o ∧ o.id=id := by
    intro id k
    constructor
    · rintro ⟨h,hid⟩
      exact ⟨_,List.getElem?_eq_getElem h,hid⟩
    · rintro ⟨o,ho,hid⟩
      obtain ⟨h,rfl⟩ := List.getElem?_eq_some_iff.mp ho
      exact ⟨h,hid⟩
  constructor
  · intro h id k
    rw [h.1 id k,hpos id k]
  · intro h
    exact ⟨fun id k => by rw [hpos id k,h id k],h.nodup⟩

theorem not_consistent_of_cleared {index : Fin cnt → ℤ} (ho : o∈m.ownerVec) :
    ¬ (⟨some (update index o.id (-1)),m.ownerVec⟩ : OwnerMap Conn cnt).Consistent := by
  intro h
  have hneg : (⟨some (update index o.id (-1)),m.ownerVec⟩ : OwnerMap Conn cnt).index o.id < 0 := by
    change update index o.id (-1) o.id < 0
    rw [update_self]
    decide
  exact (h.neg_iff o.id).mp hneg o ho rfl

section
variable (h : m.Consistent)
include h

theorem consistent_erase_iff (hcnt : cnt≤127) (c : Conn) :
    (m.erase L c).Consistent ↔ ∀ o∈m.ownerVec, o.id = L.localId c → o.uuid = L.localUuid c := by
  unfold OwnerMap.erase
  by_cases hid : ∀ o∈m.ownerVec, o.id ≠ L.localId c
  · rw [eraseOwner_of_absent h hid]
    exact iff_of_true h fun o ho heq => absurd heq (hid o ho)
  · push Not at hid
    obtain ⟨o,ho,heq⟩ := hid
    rw [← heq]
    by_cases huuid : o.uuid = L.localUuid c
    · refine iff_of_true (eraseOwner_spec h hcnt ho (by simp [huuid])).1 fun o' ho' heq' => ?_
      rw [h.eq_of_key_eq ho' ho heq',huuid]
    · refine iff_of_false ?_ fun hall => huuid (hall o ho rfl)
      rw [eraseOwner_of_uuid_ne h hcnt ho (Ne.symm huuid)]
      exact not_consistent_of_cleared ho

theorem find_eq (c : Conn) :
    (∀ o∈m.ownerVec, o.id ≠ L.localId c) ∧ m.find L c = (m, none) ∨
      ∃ o∈m.ownerVec, o.id = L.localId c ∧
        m.find L c = (⟨some (update m.index o.id (-1)),m.ownerVec⟩, none) := by
  have hneg := h.neg_iff (L.localId c)
  unfold find
  unfold index at hneg ⊢
  cases hindex : m.ownerIndex with
  | none =>
    rw [hindex,Option.getD_none] at hneg
    exact .inl ⟨hneg.mp (by decide),rfl⟩
  | some index =>
    rw [hindex,Option.getD_some] at hneg
    dsimp only [Option.getD_some]
    split_ifs with hlt
    · exact .inl ⟨hneg.mp hlt,rfl⟩
    · rw [hneg] at hlt
      push Not at hlt
      obtain ⟨o,ho,hid⟩ := hlt
      exact .inr ⟨o,ho,hid,by rw [hid]⟩

theorem consistent_step_iff (hcnt : cnt≤127) (e : Event Conn cnt) :
    (step L m e).Consistent ↔ Careful L m e := by
  cases e with
  | insert c => exact iff_of_true (h.insert hcnt c) trivial
  | erase c => exact consistent_erase_iff h hcnt c
  | find c =>
    rw [step,Careful]
    rcases find_eq h c with ⟨hnone,heq⟩ | ⟨o,ho,hid,heq⟩
    · rw [heq]
      exact iff_of_true h hnone
    · rw [heq]
      exact iff_of_false (not_consistent_of_cleared ho) fun hall => hall o ho hid
  | select alive i => exact iff_of_true (h.select alive hcnt i) trivial
  | randomSelect alive choices =>
    refine iff_of_true ?_ trivial
    rw [step]
    cases hp : m.randomSelect alive choices with
    | none => exact h
    | some p => exact h.randomSelect alive hcnt hp
  | decRequestDeadline c => exact iff_of_true (h.decRequestDeadline c) trivial
  | reset => exact iff_of_true h.reset trivial

theorem finds_of_careful {e : Event Conn cnt} (he : Careful L m e) : Finds L m e := by
  cases e with
  | find c =>
    rcases find_eq h c with ⟨hnone,heq⟩ | ⟨o,ho,hid,-⟩
    · refine ⟨by rw [heq],?_⟩
      rw [heq]
      refine iff_of_false (by simp) ?_
      rintro ⟨o,ho,hid,-⟩
      exact hnone o ho hid
    · exact absurd hid (he o ho)
  | _ => trivial

end

/-- Over a run of calls the array and the vector agree and every search is right just as long as
the calls are careful. -/
theorem index_consistent_iff (L : ConnIds Conn cnt) (hcnt : cnt≤127) (es : List (Event Conn cnt)) :
    (∀ n, ((es.take n).foldl (step L) create).IndexAgrees) ∧ AlongRun (step L) (Finds L) create es ↔
      AlongRun (step L) (Careful L) create es := by
  have hruns := alongRun_iff Consistent (fun m e h => consistent_step_iff (L := L) h hcnt e) es
    consistent_create
  simp only [indexAgrees_iff]
  rw [hruns]
  refine ⟨And.left,fun h => ⟨h,?_⟩⟩
  exact h.imp_of_invariant Consistent (fun m e hm => (consistent_step_iff hm hcnt e).mpr)
    (fun m e hm => finds_of_careful hm) consistent_create

/-- Connections are numbers; the local id of a connection is its remainder by eight. -/
def eightIds : ConnIds ℕ 8 :=
  ⟨fun c => Fin.ofNat 8 c,fun c => BitVec.ofNat 32 c,fun _ => false⟩

/-- Connection 11 takes the id of connection 3, which had been there before. -/
theorem reused_id_consistent :
    let es : List (Event ℕ 8) := [.insert 3,.insert 5,.insert 11,.decRequestDeadline 5,.erase 11,.find 3]
    (es.foldl (step eightIds) create).IndexAgrees :=
  ((index_consistent_iff eightIds (by decide) [.insert 3,.insert 5,.insert 11,.decRequestDeadline 5,
    .erase 11,.find 3]).mpr (by decide)).1 6

/-- The connection is recorded, and `find` neither finds it nor leaves it recorded. -/
theorem recorded_connection_lost :
    let m := (create : OwnerMap ℕ 8).insert eightIds 3
    m.Records eightIds 3 ∧ (m.find eightIds 3).2 = none ∧ ¬ (m.find eightIds 3).1.IndexAgrees := by
  intro m
  refine ⟨by decide,by decide,fun h => ?_⟩
  have hfound : (m.find eightIds 3).1.index 3 = (0 : ℕ) := (h.1 3 0).mpr ⟨by decide,by decide⟩
  exact absurd hfound (by decide)

end OwnerMap
end P2Streaming
