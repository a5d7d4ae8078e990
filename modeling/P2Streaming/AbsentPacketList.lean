import P2Streaming.SerialMaps
import Mathlib.Data.List.DropRight

/-!
# `absent_packet_list`: the packets the client knows of and has not received

A number that is known and absent is in one of two sets, according to whether it is being
requested, and its `absent_packet_info` is in the slot the number has modulo the capacity. The
sets are ordered by the modular order and the slots are shared by all numbers 32768 apart, so
both only make sense for numbers that lie close together.
-/
namespace P2Streaming
open WrappableInteger SerialMaps List

/-- `absent_packet_info` while it is inited. -/
structure AbsentPacketInfo where
  seqno : BitVec 32
  firstKnownThisPieceTime : BitVec 32
  deriving DecidableEq

def AbsentPacketInfo.isThis (info : AbsentPacketInfo) (seqno now : BitVec 32) : Bool :=
  decide (info.seqno=seqno) &&
    wrappableGreater (info.firstKnownThisPieceTime + BitVec.ofNat 32 ((2^31 - 1) / 4)) now

/-- `absent_packet_list` with the capacity its owner gives it, `MAX_PKT_BUFFER_SIZE`. -/
structure AbsentPacketList where
  notRequestingPackets : List (BitVec 32)
  requestingPackets : List (BitVec 32)
  mediaPacketInfoVector : Fin (2^15) → Option AbsentPacketInfo

namespace AbsentPacketList

def empty : AbsentPacketList := ⟨[],[],fun _ => none⟩

variable (l : AbsentPacketList)

def isEmpty : Bool :=
  l.notRequestingPackets.isEmpty && l.requestingPackets.isEmpty

def size : ℕ :=
  l.notRequestingPackets.length + l.requestingPackets.length

/-- `get_slot`. -/
def slot (seqno : BitVec 32) : Fin (2^15) := Fin.ofNat (2^15) seqno.toNat

/-- `get_packet_info`: whatever the slot of the number holds. -/
def getPacketInfo (seqno : BitVec 32) : Option AbsentPacketInfo :=
  l.mediaPacketInfoVector (slot seqno)

def delete (seqno : BitVec 32) : AbsentPacketList :=
  { l with mediaPacketInfoVector := Function.update l.mediaPacketInfoVector (slot seqno) none }

/-- `just_known` once the number has passed its tests. -/
def enter (seqno now : BitVec 32) : AbsentPacketList :=
  { l with
    notRequestingPackets := SerialMaps.insert id seqno l.notRequestingPackets
    mediaPacketInfoVector :=
      Function.update l.mediaPacketInfoVector (slot seqno) (some ⟨seqno,now⟩) }

def justKnown (seqno smallestSeqnoICare now : BitVec 32) :
    AbsentPacketList × Bool :=
  if wrappableGreater smallestSeqnoICare seqno then (l, false)
  else if 2^15 < wrappableMinus seqno smallestSeqnoICare then (l, false)
  else if (l.getPacketInfo seqno).any (·.isThis seqno now) then (l, false)
  else (l.enter seqno now, true)

def requestFailed (seqno : BitVec 32) : AbsentPacketList :=
  if (l.getPacketInfo seqno).isSome then
    { l with
      notRequestingPackets := SerialMaps.insert id seqno l.notRequestingPackets
      requestingPackets := SerialMaps.erase id seqno l.requestingPackets }
  else l

def setRequesting (seqno : BitVec 32) : AbsentPacketList :=
  { l with
    notRequestingPackets := SerialMaps.erase id seqno l.notRequestingPackets
    requestingPackets := SerialMaps.insert id seqno l.requestingPackets }

/-- `erase`; the slot that is cleared is that of the number found in a set. -/
def erase (seqno now : BitVec 32) : AbsentPacketList :=
  match find id seqno l.notRequestingPackets with
  | some found =>
      { l with notRequestingPackets := SerialMaps.erase id seqno l.notRequestingPackets }.delete
        found
  | none =>
      match find id seqno l.requestingPackets with
      | some found =>
          { l with requestingPackets := SerialMaps.erase id seqno l.requestingPackets }.delete found
      | none => if (l.getPacketInfo seqno).any (·.isThis seqno now) then l.delete seqno else l

/-- `recvd`; the statistics of the info it also updates are dropped with the info. -/
def recvd (seqno now : BitVec 32) : AbsentPacketList := l.erase seqno now

def minSeqno : Option (BitVec 32) :=
  match l.notRequestingPackets.head?, l.requestingPackets.head? with
  | none, seq => seq
  | seq, none => seq
  | some seq, some seq2 => if wrappableLess seq2 seq then some seq2 else some seq

/-- The tests of `__trim` on the last and on the first element of a set. -/
def beyond (smallestSeqnoICare : BitVec 32) (maxRangeCnt : ℤ) (seqno : BitVec 32) : Bool :=
  decide (maxRangeCnt < wrappableMinus seqno smallestSeqnoICare)

/-- What `__trim` leaves of a set, the tail cut off first. -/
def trimmed (smallestSeqnoICare : BitVec 32) (maxRangeCnt : ℤ) (lst : List (BitVec 32)) :
    List (BitVec 32) :=
  (lst.rdropWhile (beyond smallestSeqnoICare maxRangeCnt)).dropWhile
    (wrappableLess · smallestSeqnoICare)

/-- What `__trim` takes out of a set, in its order. -/
def trimmings (smallestSeqnoICare : BitVec 32) (maxRangeCnt : ℤ) (lst : List (BitVec 32)) :
    List (BitVec 32) :=
  (lst.rtakeWhile (beyond smallestSeqnoICare maxRangeCnt)).reverse ++
    (lst.rdropWhile (beyond smallestSeqnoICare maxRangeCnt)).takeWhile
      (wrappableLess · smallestSeqnoICare)

def trim (smallestSeqnoICare : BitVec 32) (maxRangeCnt : ℤ) :
    AbsentPacketList :=
  let cut := trimmings smallestSeqnoICare maxRangeCnt l.notRequestingPackets ++
    trimmings smallestSeqnoICare maxRangeCnt l.requestingPackets
  cut.foldl delete
    { l with
      notRequestingPackets := trimmed smallestSeqnoICare maxRangeCnt l.notRequestingPackets
      requestingPackets := trimmed smallestSeqnoICare maxRangeCnt l.requestingPackets }

def Listed (seqno : BitVec 32) : Prop :=
  seqno∈l.notRequestingPackets ∨ seqno∈l.requestingPackets

instance (seqno : BitVec 32) : Decidable (l.Listed seqno) :=
  inferInstanceAs (Decidable (_ ∨ _))

/-- The listed numbers fit into the slots above `o`, and a slot that is in use is that of a
listed number. -/
structure Sound (l : AbsentPacketList) (o : BitVec 32) : Prop where
  notRequesting : Window id o (2^15) l.notRequestingPackets
  requesting : Window id o (2^15) l.requestingPackets
  slots : ∀ k info, l.mediaPacketInfoVector k = some info → slot info.seqno = k ∧ l.Listed info.seqno

theorem sound_empty (o : BitVec 32) : empty.Sound o :=
  ⟨.nil,.nil,fun _ _ h => nomatch h⟩

variable {l} {o p : BitVec 32}

theorem Sound.of_not_listed (h : l.Sound o) (hnot : ∀ x, ¬ l.Listed x) : l.Sound p := by
  have hn : l.notRequestingPackets=[] := eq_nil_iff_forall_not_mem.mpr fun x hx => hnot x (.inl hx)
  have hr : l.requestingPackets=[] := eq_nil_iff_forall_not_mem.mpr fun x hx => hnot x (.inr hx)
  exact ⟨hn ▸ .nil,hr ▸ .nil,fun k info hk => absurd (h.slots k info hk).2 (hnot _)⟩

theorem minSeqno_listed {seqno : BitVec 32} (h : l.minSeqno = some seqno) : l.Listed seqno := by
  have hhead : ∀ {lst : List (BitVec 32)} {x : BitVec 32}, lst.head? = some x → x∈lst :=
    fun h => mem_of_mem_head? h
  unfold minSeqno at h
  split at h
  · exact .inr (hhead h)
  · exact .inl (hhead h)
  · rename_i seq seq2 h1 h2
    split_ifs at h with hless
    · cases h
      exact .inr (hhead h2)
    · cases h
      exact .inl (hhead h1)

theorem minSeqno_of_not_isEmpty (h : l.isEmpty=false) : l.minSeqno.isSome=true := by
  unfold minSeqno isEmpty at *
  cases h1 : l.notRequestingPackets <;> cases h2 : l.requestingPackets <;> simp_all
  split_ifs <;> rfl

theorem slot_inj {o x y : BitVec 32} (hx : ahead o x < 2^15) (hy : ahead o y < 2^15)
    (h : slot x = slot y) : x=y := by
  have hmod : x.toNat % 2^15 = y.toNat % 2^15 := congrArg Fin.val h
  unfold ahead at hx hy
  bv_omega

namespace Sound

variable {l : AbsentPacketList} {o : BitVec 32}

theorem listed_lt (h : l.Sound o) {seqno : BitVec 32} (hs : l.Listed seqno) : ahead o seqno < 2^15 :=
  hs.elim (h.notRequesting.bounded seqno) (h.requesting.bounded seqno)

theorem listed_of_info (h : l.Sound o) {seqno : BitVec 32} (hs : ahead o seqno < 2^15)
    {info : AbsentPacketInfo} (hi : l.getPacketInfo seqno = some info) : l.Listed seqno := by
  obtain ⟨hslot,hlisted⟩ := h.slots _ info hi
  exact slot_inj (h.listed_lt hlisted) hs hslot ▸ hlisted

theorem delete {l' : AbsentPacketList} (h : l.Sound o) {found : BitVec 32}
    (hn : l'.notRequestingPackets.Sublist l.notRequestingPackets)
    (hr : l'.requestingPackets.Sublist l.requestingPackets)
    (hv : l'.mediaPacketInfoVector=l.mediaPacketInfoVector)
    (hkeep : ∀ x, x≠found → l.Listed x → l'.Listed x) : (l'.delete found).Sound o := by
  refine ⟨h.notRequesting.sublist hn,h.requesting.sublist hr,fun k info hk => ?_⟩
  simp only [AbsentPacketList.delete,hv] at hk
  by_cases hslot : k = slot found
  · subst hslot
    simp at hk
  · rw [Function.update_of_ne hslot] at hk
    obtain ⟨hs,hl⟩ := h.slots k info hk
    exact ⟨hs,hkeep _ (fun he => hslot (by rw [← he,hs])) hl⟩

end Sound

variable {x : BitVec 32}

theorem listed_enter (seqno now : BitVec 32) (h : l.Listed x) : (l.enter seqno now).Listed x :=
  h.imp (mem_insert_of_mem id) id

variable {o seqno : BitVec 32}

theorem Sound.listed_enter_self (h : l.Sound o)
    (hs : ahead o seqno < 2^15) (now : BitVec 32) : (l.enter seqno now).Listed seqno := by
  obtain ⟨y,hy,rfl⟩ := h.notRequesting.mem_insert_self (by decide) hs
  exact .inl hy

theorem Sound.enter (h : l.Sound o)
    (hs : ahead o seqno < 2^15) (now : BitVec 32) : (l.enter seqno now).Sound o := by
  refine ⟨h.notRequesting.insert (by decide) hs,h.requesting,fun k info hk => ?_⟩
  simp only [AbsentPacketList.enter] at hk
  by_cases hslot : k = slot seqno
  · subst hslot
    rw [Function.update_self] at hk
    cases hk
    exact ⟨rfl,h.listed_enter_self hs now⟩
  · rw [Function.update_of_ne hslot] at hk
    obtain ⟨hs',hl⟩ := h.slots k info hk
    exact ⟨hs',listed_enter seqno now hl⟩

theorem justKnown_behind (l : AbsentPacketList) (now : BitVec 32)
    (h : 2^31 < ahead o seqno) : l.justKnown seqno o now = (l, false) := by
  have hless : wrappableGreater o seqno = true := (wrappableLess_origin o seqno).mpr h
  rw [justKnown,if_pos hless]

theorem justKnown_refused {seqno o now : BitVec 32}
    (h : ¬ (l.justKnown seqno o now).2 = true) : (l.justKnown seqno o now).1 = l := by
  unfold justKnown at h ⊢
  split_ifs at h ⊢
  · rfl
  · rfl
  · rfl
  · exact absurd rfl h

theorem Sound.justKnown (h : l.Sound o) (hs : ahead o seqno < 2^15) (now : BitVec 32) :
    (l.justKnown seqno o now).1.Sound o ∧ (l.justKnown seqno o now).1.Listed seqno ∧
      ∀ x, l.Listed x → (l.justKnown seqno o now).1.Listed x := by
  have hgreater : ¬ wrappableGreater o seqno = true := by
    rw [wrappableGreater,wrappableLess_origin]
    omega
  have hminus : ¬ 2^15 < wrappableMinus seqno o := by
    unfold wrappableMinus
    unfold ahead at hs
    rw [BitVec.toInt_eq_toNat_of_lt (by omega)]
    omega
  rw [AbsentPacketList.justKnown,if_neg hgreater,if_neg hminus]
  split_ifs with hthis
  · obtain ⟨info,hi,-⟩ := Option.any_eq_true _ _ |>.mp hthis
    exact ⟨h,h.listed_of_info hs hi,fun _ hx => hx⟩
  · exact ⟨h.enter hs now,h.listed_enter_self hs now,fun _ => listed_enter seqno now⟩

theorem Sound.erase {o : BitVec 32} (h : l.Sound o) (seqno now : BitVec 32) :
    (l.erase seqno now).Sound o ∧
      ∀ x, x≠seqno → ahead seqno x ≠ 2^31 → l.Listed x → (l.erase seqno now).Listed x := by
  have hother : ∀ {lst : List (BitVec 32)} {found : BitVec 32}, find id seqno lst = some found →
      ∀ x, x≠seqno → ahead seqno x ≠ 2^31 → x≠found := by
    rintro lst found hf x hne hfar rfl
    exact (find_eq_some id hf).2.elim hne hfar
  have hkeep : ∀ {lst : List (BitVec 32)} {found : BitVec 32}, find id seqno lst = some found →
      ∀ x, x≠found → x∈lst → x ∈ SerialMaps.erase id seqno lst := by
    intro lst found hf x hne hx
    exact mem_erase_of_find id hx fun he => hne (Option.some.inj (he.symm.trans hf))
  unfold AbsentPacketList.erase
  cases hn : find id seqno l.notRequestingPackets with
  | some found =>
    exact ⟨h.delete (erase_sublist id _ _) (.refl _) rfl fun x hne => Or.imp (hkeep hn x hne) id,
      fun x hne hfar => Or.imp (hkeep hn x (hother hn x hne hfar)) id⟩
  | none =>
    cases hr : find id seqno l.requestingPackets with
    | some found =>
      exact ⟨h.delete (.refl _) (erase_sublist id _ _) rfl fun x hne => Or.imp id (hkeep hr x hne),
        fun x hne hfar => Or.imp id (hkeep hr x (hother hr x hne hfar))⟩
    | none =>
      split_ifs
      · exact ⟨h.delete (.refl _) (.refl _) rfl fun _ _ hx => hx,fun _ _ _ hx => hx⟩
      · exact ⟨h,fun _ _ _ hx => hx⟩

theorem Sound.requestFailed (h : l.Sound o) (hs : l.Listed seqno) :
    (l.requestFailed seqno).Sound o ∧ ∀ x, l.Listed x → (l.requestFailed seqno).Listed x := by
  have hlt := h.listed_lt hs
  unfold AbsentPacketList.requestFailed
  split_ifs
  · obtain ⟨y,hy,rfl⟩ := h.notRequesting.mem_insert_self (by decide) hlt
    have hlisted : ∀ x, l.Listed x →
        x ∈ SerialMaps.insert id y l.notRequestingPackets ∨
          x ∈ SerialMaps.erase id y l.requestingPackets := by
      rintro x (hx | hx)
      · exact .inl (mem_insert_of_mem id hx)
      · by_cases he : x=y
        · exact .inl (he ▸ hy)
        · exact .inr (mem_erase_of_find id hx fun hf =>
            he (h.requesting.find_key (by decide) hlt hf))
    refine ⟨⟨h.notRequesting.insert (by decide) hlt,
      h.requesting.sublist (erase_sublist id _ _),fun k info hk => ?_⟩,hlisted⟩
    exact (h.slots k info hk).imp id (hlisted _)
  · exact ⟨h,fun _ hx => hx⟩

theorem Sound.setRequesting (h : l.Sound o) (hs : l.Listed seqno) :
    (l.setRequesting seqno).Sound o ∧ ∀ x, l.Listed x → (l.setRequesting seqno).Listed x := by
  have hlt := h.listed_lt hs
  obtain ⟨y,hy,rfl⟩ := h.requesting.mem_insert_self (by decide) hlt
  have hlisted : ∀ x, l.Listed x → (l.setRequesting y).Listed x := by
    rintro x (hx | hx)
    · by_cases he : x=y
      · exact .inr (he ▸ hy)
      · exact .inl (mem_erase_of_find id hx fun hf =>
          he (h.notRequesting.find_key (by decide) hlt hf))
    · exact .inr (mem_insert_of_mem id hx)
  refine ⟨⟨h.notRequesting.sublist (erase_sublist id _ _),
    h.requesting.insert (by decide) hlt,fun k info hk => ?_⟩,hlisted⟩
  exact (h.slots k info hk).imp id (hlisted _)

theorem trimmed_sublist (o : BitVec 32) (range : ℤ) (lst : List (BitVec 32)) :
    (trimmed o range lst).Sublist lst :=
  (dropWhile_sublist _).trans ( rdropWhile_prefix _ _).sublist

variable {lst : List (BitVec 32)}

theorem mem_trimmed_or_trimmings (o : BitVec 32) (range : ℤ) (h : x∈lst) :
    x ∈ trimmed o range lst ∨ x ∈ trimmings o range lst := by
  have htail : lst.rdropWhile (beyond o range) ++ lst.rtakeWhile (beyond o range) = lst := by
    rw [List.rdropWhile,List.rtakeWhile,← reverse_append,takeWhile_append_dropWhile,
      reverse_reverse]
  rw [← htail,← takeWhile_append_dropWhile (p := (wrappableLess · o))
    (l := lst.rdropWhile (beyond o range))] at h
  simp only [mem_append] at h
  rw [trimmed,trimmings,mem_append,mem_reverse]
  tauto

variable {range : ℤ}

theorem of_mem_trimmings {o : BitVec 32}
    (h : x ∈ trimmings o range lst) : beyond o range x = true ∨ wrappableLess x o = true := by
  rw [trimmings,mem_append,mem_reverse] at h
  refine h.imp (fun hx => ?_) fun hx =>
    mem_takeWhile_imp (p := (wrappableLess · o)) hx
  rw [List.rtakeWhile,mem_reverse] at hx
  exact mem_takeWhile_imp hx

theorem foldl_delete (cut : List (BitVec 32)) (l : AbsentPacketList) :
    (cut.foldl delete l).notRequestingPackets = l.notRequestingPackets ∧
      (cut.foldl delete l).requestingPackets = l.requestingPackets ∧
      ∀ k info, (cut.foldl delete l).mediaPacketInfoVector k = some info →
        l.mediaPacketInfoVector k = some info ∧ ∀ e∈cut, slot e ≠ k := by
  induction cut generalizing l with
  | nil => exact ⟨rfl,rfl,fun k info hk => ⟨hk,by simp⟩⟩
  | cons e cut ih =>
    obtain ⟨hn,hr,hv⟩ := ih (l.delete e)
    refine ⟨hn,hr,fun k info hk => ?_⟩
    obtain ⟨hk,hcut⟩ := hv k info hk
    simp only [delete] at hk
    by_cases hslot : k = slot e
    · subst hslot
      simp at hk
    · rw [Function.update_of_ne hslot] at hk
      exact ⟨hk,forall_mem_cons.mpr ⟨fun he => hslot he.symm,hcut⟩⟩

theorem trim_notRequestingPackets (l : AbsentPacketList) (o : BitVec 32) (range : ℤ) :
    (l.trim o range).notRequestingPackets = trimmed o range l.notRequestingPackets :=
  (foldl_delete _ _).1

theorem trim_requestingPackets (l : AbsentPacketList) (o : BitVec 32) (range : ℤ) :
    (l.trim o range).requestingPackets = trimmed o range l.requestingPackets :=
  (foldl_delete _ _).2.1

theorem listed_trim {o x : BitVec 32} (h : l.Listed x)
    (hx : ahead o x < 2^31) (hrange : (ahead o x : ℤ) ≤ range) : (l.trim o range).Listed x := by
  have hno : ∀ lst, x ∉ trimmings o range lst := by
    intro lst hx'
    rcases of_mem_trimmings hx' with hb | hl
    · rw [beyond,decide_eq_true_eq,wrappableMinus] at hb
      unfold ahead at hx hrange
      rw [BitVec.toInt_eq_toNat_of_lt (by omega)] at hb
      omega
    · rw [wrappableLess_origin] at hl
      omega
  rw [Listed,trim_notRequestingPackets,trim_requestingPackets]
  exact h.imp (fun hx => (mem_trimmed_or_trimmings o range hx).resolve_right (hno _))
    fun hx => (mem_trimmed_or_trimmings o range hx).resolve_right (hno _)

theorem not_of_mem_dropWhile {α : Type*} {p : α → Bool} {lst : List α}
    (h : lst.Pairwise fun x y => p y = true → p x = true) {x : α} (hx : x ∈ lst.dropWhile p) :
    ¬ p x = true := by
  induction lst with
  | nil => cases hx
  | cons y rest ih =>
    obtain ⟨hy,hrest⟩ := pairwise_cons.mp h
    rw [dropWhile_cons] at hx
    split_ifs at hx with hp
    · exact ih hrest hx
    · rcases mem_cons.mp hx with rfl | hx
      · exact hp
      · exact fun hpx => hp (hy x hx hpx)

theorem not_of_mem_rdropWhile {α : Type*} {p : α → Bool} {lst : List α}
    (h : lst.Pairwise fun x y => p x = true → p y = true) {x : α} (hx : x ∈ lst.rdropWhile p) :
    ¬ p x = true := by
  rw [List.rdropWhile,mem_reverse] at hx
  exact not_of_mem_dropWhile (pairwise_reverse.mpr h) hx

theorem le_of_mem_trimmed {p o x : BitVec 32} {b : ℕ}
    (h : Window id p b lst) (hb : b≤2^31) (ho : ahead p o < 2^31)
    (hx : x ∈ trimmed o range lst) : ahead p o ≤ ahead p x := by
  have hcut := h.sublist ( rdropWhile_prefix (beyond o range) lst).sublist
  have hmono : (lst.rdropWhile (beyond o range)).Pairwise
      fun y z => wrappableLess z o = true → wrappableLess y o = true := by
    refine hcut.sorted.imp_of_mem fun {y z} hy hz hlt hless => ?_
    have hyb : ahead p y < b := hcut.bounded _ hy
    have hzb : ahead p z < b := hcut.bounded _ hz
    rw [wrappableLess_iff_ahead_lt (o := p) (by omega) (by omega)] at hless ⊢
    exact hlt.trans hless
  have hxb : ahead p x < b := h.bounded x ((trimmed_sublist o range lst).subset hx)
  have hnot := not_of_mem_dropWhile hmono hx
  rw [wrappableLess_iff_ahead_lt (o := p) (by omega) (by omega)] at hnot
  omega

theorem within_of_mem_trimmed {o x : BitVec 32} {b : ℕ}
    (h : Window id o b lst) (hb : b≤2^31) (hx : x ∈ trimmed o range lst) : (ahead o x : ℤ) ≤ range := by
  have hminus : ∀ y∈lst, wrappableMinus y o = ahead o y := by
    intro y hy
    have hyb : ahead o y < b := h.bounded y hy
    unfold ahead at *
    exact BitVec.toInt_eq_toNat_of_lt (by omega)
  have hmono : lst.Pairwise fun y z => beyond o range y = true → beyond o range z = true := by
    refine h.sorted.imp_of_mem fun {y z} hy hz hlt => ?_
    simp only [beyond,decide_eq_true_eq,hminus y hy,hminus z hz]
    intro hy'
    have : ahead o y < ahead o z := hlt
    omega
  have hnot := not_of_mem_rdropWhile hmono ((dropWhile_sublist _).subset hx)
  rw [beyond,decide_eq_true_eq,hminus x ((trimmed_sublist o range lst).subset hx)] at hnot
  omega

/-- The new smallest number can be compared with every listed one: it is not almost half the
ring behind the old one. -/
def Reaches (o p : BitVec 32) : Prop := ahead o p < 2^31 ∨ ahead p o + 2^15 ≤ 2^31

instance (o p : BitVec 32) : Decidable (Reaches o p) := inferInstanceAs (Decidable (_ ∨ _))

theorem Reaches.refl (o : BitVec 32) : Reaches o o := .inl (by simp)

theorem window_trimmed (h : Window id o (2^15) lst) (hp : Reaches o p)
    (hfit : ∀ x∈lst, ahead p x < 2^31 → (ahead p x : ℤ) ≤ range → ahead p x < 2^15) :
    Window id p (2^15) (trimmed p range lst) := by
  have hsub := trimmed_sublist p range lst
  rcases hp with hforth | hback
  · exact (h.sublist hsub).advance fun x hx =>
      le_of_mem_trimmed h (by decide) hforth hx
  · have hfrom := h.retreat (p := p) (by omega)
    refine ⟨(hfrom.sublist hsub).sorted,fun x hx => ?_⟩
    have hxb : ahead p x < ahead p o + 2^15 := hfrom.bounded x (hsub.subset hx)
    exact hfit x (hsub.subset hx) (by omega) (within_of_mem_trimmed hfrom hback hx)

theorem Sound.trim (h : l.Sound o) (hp : Reaches o p)
    (hfit : ∀ x, l.Listed x → ahead p x < 2^31 → (ahead p x : ℤ) ≤ range → ahead p x < 2^15) :
    (l.trim p range).Sound p := by
  refine ⟨?_,?_,fun k info hk => ?_⟩
  · rw [trim_notRequestingPackets]
    exact window_trimmed h.notRequesting hp fun x hx => hfit x (.inl hx)
  · rw [trim_requestingPackets]
    exact window_trimmed h.requesting hp fun x hx => hfit x (.inr hx)
  · obtain ⟨hk,hcut⟩ := (foldl_delete _ _).2.2 k info hk
    obtain ⟨hslot,hlisted⟩ := h.slots k info hk
    refine ⟨hslot,?_⟩
    -- the slot of a number that was cut is empty
    rw [Listed,trim_notRequestingPackets,trim_requestingPackets]
    refine hlisted.imp (fun hx => ?_) fun hx => ?_
    · exact (mem_trimmed_or_trimmings p range hx).resolve_right fun hc =>
        hcut _ (mem_append_left _ hc) hslot
    · exact (mem_trimmed_or_trimmings p range hx).resolve_right fun hc =>
        hcut _ (mem_append_right _ hc) hslot

end AbsentPacketList
end P2Streaming
