import P2Streaming.MediaPacket
import P2Streaming.WrappableInteger

/-!
# `packet_buffer`: the ring of recently received media packets

A packet is stored in the slot its sequence number has modulo the ring size, and
listed under its sequence number. Slots are overwritten and listed numbers are
evicted independently of each other, so a number may stay listed after another
packet has taken its slot.
-/
namespace P2Streaming
open WrappableInteger Function

/-- `is_time_passed` on wrapping milliseconds. -/
def isTimePassed (duration startTime now : BitVec 32) : Bool :=
  wrappableLessEqual (startTime+duration) now

/-- `packet_buffer::packet_elm` while it is `__inited`. -/
structure PacketElm where
  packetBuf : MediaPacket
  time : BitVec 32
  pushed : Bool
  deriving DecidableEq

/-- An element of `recent_seq_lst_long_`. -/
structure SeqEntry where
  seqno : BitVec 32
  timeStamp : BitVec 32
  deriving DecidableEq

/-- The answers of `packet_buffer::has`. -/
inductive HasState where
  | notHas | pulledHas | pushedHas
  deriving DecidableEq

/-- `packet_buffer` with a ring of `2 ^ n` slots. A slot that is not `__inited` is absent.
`recent_seq_lst_long_` is listed from `rbegin`, so its smallest number comes first. -/
structure PacketBuffer (n : ℕ) where
  bufTimeMsec : BitVec 32
  isVodCategory : Bool
  mediaPackets : Fin (2^n) → Option PacketElm
  buffermapCache : Fin (2^max 3 n) → Bool
  recentSeqLstLong : List SeqEntry
  bigestTimeStamp : Option (BitVec 32)

namespace PacketBuffer

variable {n : ℕ}

/-- `get_slot`. -/
def slot (n : ℕ) (seqno : BitVec 32) : Fin (2^n) := Fin.ofNat (2^n) seqno.toNat

instance neZero_mapBits (n : ℕ) : NeZero (2^max 3 n) := ⟨(Nat.two_pow_pos _).ne'⟩

/-- The bit of `ring_buffermap` for a number; the map is never shorter than one byte. -/
def bitOf (n : ℕ) (seqno : BitVec 32) : Fin (2^max 3 n) := Fin.ofNat (2^max 3 n) seqno.toNat

/-- The constructor's loop, which doubles the ring until it has `minCnt` slots. -/
def ringLog (minCnt : ℕ) : ℕ → ℕ → ℕ
  | 0, k => k
  | fuel + 1, k => if 2^k < minCnt then ringLog minCnt fuel (k+1) else k

/-- The slots of a live buffer: 4 Mbit/s in pieces of 1350 bytes, and at most 32768. -/
def liveRingLog (bufTime : ℕ) : ℕ :=
  ringLog (min 32768 (bufTime / 1000 * (4 * 1024 * 1024 / 8 / 1350))) 15 0

/-- A buffer as its constructor leaves it, for a duration in milliseconds. -/
def create (n bufTime : ℕ) (isVodCategory : Bool) : PacketBuffer n where
  bufTimeMsec := BitVec.ofNat 32 (bufTime+5000)
  isVodCategory := isVodCategory
  mediaPackets := fun _ => none
  buffermapCache := fun _ => false
  recentSeqLstLong := []
  bigestTimeStamp := none

variable (b : PacketBuffer n)

/-- A slot answers for a number when it holds a packet with that number which is not too old. -/
def holds (seqno now : BitVec 32) (elm : PacketElm) : Bool :=
  decide (elm.packetBuf.seqno=seqno) &&
    (b.isVodCategory || !isTimePassed (b.bufTimeMsec*8) elm.time now)

def has (seqno now : BitVec 32) : HasState :=
  match b.mediaPackets (slot n seqno) with
  | none => .notHas
  | some elm =>
      if b.holds seqno now elm then (if elm.pushed then .pushedHas else .pulledHas) else .notHas

def get (seqno now : BitVec 32) : Option MediaPacket :=
  if b.has seqno now ≠ .notHas then (b.mediaPackets (slot n seqno)).map PacketElm.packetBuf
  else none

/-- `bigest_time_stamp_` once a packet with this time stamp has been seen. -/
def bigestAfter (timeStamp : BitVec 32) : BitVec 32 :=
  match b.bigestTimeStamp with
  | none => timeStamp
  | some big => if wrappableLess big timeStamp then timeStamp else big

/-- The test of the eviction loop of `insert` on the smallest of `count` entries. -/
def due (big : BitVec 32) (playing : Option (BitVec 32)) (count : ℕ)
    (e : SeqEntry) : Bool :=
  decide (2^n<count) ||
    (!b.isVodCategory && isTimePassed b.bufTimeMsec e.timeStamp big &&
      playing.all (fun p => wrappableGreater p e.seqno))

/-- What the eviction loop does to the slot and the bit of an entry. -/
def evict (e : SeqEntry) : PacketBuffer n :=
  { b with
    mediaPackets := update b.mediaPackets (slot n e.seqno)
      ((b.mediaPackets (slot n e.seqno)).filter fun elm => elm.packetBuf.seqno ≠ e.seqno)
    buffermapCache := update b.buffermapCache (bitOf n e.seqno) false }

/-- The eviction loop of `insert`. -/
def evictLoop (big : BitVec 32) (playing : Option (BitVec 32)) :
    List SeqEntry → PacketBuffer n → PacketBuffer n
  | [], b => { b with recentSeqLstLong := [] }
  | e :: rest, b =>
      if b.due big playing (rest.length+1) e then evictLoop big playing rest (b.evict e)
      else { b with recentSeqLstLong := e :: rest }

/-- `recent_seq_lst_long_.insert`; a listed number keeps its entry. -/
def insertEntry (e : SeqEntry) : List SeqEntry → List SeqEntry
  | [] => [e]
  | x :: rest =>
      if wrappableLess x.seqno e.seqno then x :: insertEntry e rest
      else if wrappableLess e.seqno x.seqno then e :: x :: rest
      else x :: rest

/-- The slot is written and the time stamp taken before anything is evicted. -/
def assign (pkt : MediaPacket) (now : BitVec 32) : PacketBuffer n :=
  { b with
    mediaPackets := update b.mediaPackets (slot n pkt.seqno)
      (some ⟨pkt,now,pkt.isPush≠0⟩)
    bigestTimeStamp := some (b.bigestAfter pkt.timeStamp) }

def insert (pkt : MediaPacket) (now : BitVec 32)
    (playing : Option (BitVec 32)) : PacketBuffer n × Bool :=
  if b.has pkt.seqno now ≠ .notHas then (b, false)
  else
    let b := evictLoop (b.bigestAfter pkt.timeStamp) playing b.recentSeqLstLong (b.assign pkt now)
    ({ b with
        recentSeqLstLong := insertEntry ⟨pkt.seqno,pkt.timeStamp⟩ b.recentSeqLstLong
        buffermapCache := update b.buffermapCache (bitOf n pkt.seqno) true }, true)

def reset : PacketBuffer n :=
  { b with
    mediaPackets := fun _ => none
    buffermapCache := fun _ => false
    recentSeqLstLong := []
    bigestTimeStamp := none }

theorem has_ne_notHas_iff (seqno now : BitVec 32) : b.has seqno now ≠ .notHas ↔
      ∃ elm, b.mediaPackets (slot n seqno) = some elm ∧ b.holds seqno now elm = true := by
  unfold has
  cases b.mediaPackets (slot n seqno) with
  | none => simp
  | some elm =>
    by_cases h : b.holds seqno now elm = true
    · by_cases hp : elm.pushed = true <;> simp [h,hp]
    · simp [h]

theorem get_eq_some_iff (seqno now : BitVec 32) (pkt : MediaPacket) :
    b.get seqno now = some pkt ↔
      ∃ elm, b.mediaPackets (slot n seqno) = some elm ∧ b.holds seqno now elm = true ∧
        elm.packetBuf = pkt := by
  unfold get
  split
  · rename_i h
    obtain ⟨elm,helm,hh⟩ := (b.has_ne_notHas_iff seqno now).mp h
    simp [helm,hh]
  · rename_i h
    have hno : ¬ ∃ elm, b.mediaPackets (slot n seqno) = some elm ∧ b.holds seqno now elm = true :=
      fun he => h ((b.has_ne_notHas_iff seqno now).mpr he)
    constructor
    · intro hn
      cases hn
    · rintro ⟨elm,helm,hh,-⟩
      exact absurd ⟨elm,helm,hh⟩ hno

variable {b} {elm : PacketElm}

theorem evict_slot_of_ne {e : SeqEntry} {seqno : BitVec 32}
    (h : b.mediaPackets (slot n seqno) = some elm) (hs : elm.packetBuf.seqno=seqno)
    (hne : e.seqno≠seqno) : (b.evict e).mediaPackets (slot n seqno) = some elm := by
  by_cases hslot : slot n seqno = slot n e.seqno
  · have hkeep : elm.packetBuf.seqno≠e.seqno := fun he => hne (he ▸ hs)
    rw [hslot] at h ⊢
    simp [evict,h,hkeep]
  · simp only [evict]
    rw [update_of_ne hslot,h]

theorem evict_slot_self {e : SeqEntry}
    (h : b.mediaPackets (slot n e.seqno) = some elm) (hs : elm.packetBuf.seqno=e.seqno) :
    (b.evict e).mediaPackets (slot n e.seqno) = none := by
  simp [evict,h,hs]

variable {i : Fin (2^n)}

theorem evict_slot_none (e : SeqEntry)
    (h : b.mediaPackets i = none) : (b.evict e).mediaPackets i = none := by
  by_cases hi : i = slot n e.seqno
  · subst hi
    simp [evict,h]
  · simp only [evict]
    rw [update_of_ne hi,h]

theorem evictLoop_slot_none (big : BitVec 32) (playing : Option (BitVec 32))
    (es : List SeqEntry) (h : b.mediaPackets i = none) :
    (evictLoop big playing es b).mediaPackets i = none := by
  induction es generalizing b with
  | nil => exact h
  | cons e rest ih =>
    rw [evictLoop]
    split
    · exact ih (evict_slot_none e h)
    · exact h

theorem of_evict_slot {e : SeqEntry}
    (h : (b.evict e).mediaPackets i = some elm) : b.mediaPackets i = some elm := by
  by_cases hi : i = slot n e.seqno
  · subst hi
    simp only [evict,update_self] at h
    exact (Option.filter_eq_some_iff.mp h).1
  · simpa only [evict,update_of_ne hi] using h

theorem of_evictLoop_slot {big : BitVec 32} {playing : Option (BitVec 32)} (es : List SeqEntry)
    (h : (evictLoop big playing es b).mediaPackets i = some elm) : b.mediaPackets i = some elm := by
  induction es generalizing b with
  | nil => exact h
  | cons e rest ih =>
    rw [evictLoop] at h
    split at h
    · exact of_evict_slot (ih h)
    · exact h

variable {pkt : MediaPacket} {now : BitVec 32}

theorem of_insert_slot {playing : Option (BitVec 32)}
    (h : (b.insert pkt now playing).1.mediaPackets i = some elm) :
    b.mediaPackets i = some elm ∨ elm.packetBuf=pkt := by
  unfold insert at h
  split at h
  · exact .inl h
  · have hassign := of_evictLoop_slot _ h
    by_cases hi : i = slot n pkt.seqno
    · subst hi
      simp only [assign,update_self] at hassign
      exact .inr (Option.some.inj hassign ▸ rfl)
    · left
      simpa only [assign,update_of_ne hi] using hassign

/-- The entry for a number is among those the eviction loop removes from the list: it and
all smaller entries are due when their turn comes. -/
def Evicts (b : PacketBuffer n) (big : BitVec 32) (playing : Option (BitVec 32))
    (es : List SeqEntry) (seqno : BitVec 32) : Prop :=
  ∃ j e, es[j]? = some e ∧ e.seqno=seqno ∧
    ∀ i≤j, ∀ x, es[i]? = some x → b.due big playing (es.length - i) x = true

theorem evicts_cons (b : PacketBuffer n) (big : BitVec 32) (playing : Option (BitVec 32))
    (e : SeqEntry) (rest : List SeqEntry) (seqno : BitVec 32) : b.Evicts big playing (e::rest) seqno ↔
      b.due big playing (rest.length+1) e = true ∧
        (e.seqno=seqno ∨ b.Evicts big playing rest seqno) := by
  constructor
  · rintro ⟨j,x,hx,hseq,hdue⟩
    refine ⟨hdue 0 (Nat.zero_le j) e rfl,?_⟩
    cases j with
    | zero =>
      have : e=x := by simpa using hx
      exact .inl (this ▸ hseq)
    | succ j =>
      refine .inr ⟨j,x,by simpa using hx,hseq,fun i hi y hy => ?_⟩
      simpa using hdue (i+1) (by omega) y (by simpa using hy)
  · rintro ⟨hdue,hseq | ⟨j,x,hx,hseq,hrest⟩⟩
    · refine ⟨0,e,rfl,hseq,fun i hi y hy => ?_⟩
      obtain rfl : i=0 := by omega
      have : e=y := by simpa using hy
      exact this ▸ hdue
    · refine ⟨j+1,x,by simpa using hx,hseq,fun i hi y hy => ?_⟩
      cases i with
      | zero =>
        have : e=y := by simpa using hy
        exact this ▸ hdue
      | succ i => simpa using hrest i (by omega) y (by simpa using hy)

theorem evictLoop_slot (big : BitVec 32) (playing : Option (BitVec 32)) (es : List SeqEntry)
    {seqno : BitVec 32}
    (h : b.mediaPackets (slot n seqno) = some elm) (hs : elm.packetBuf.seqno=seqno) :
    (b.Evicts big playing es seqno →
      (evictLoop big playing es b).mediaPackets (slot n seqno) = none) ∧
    (¬ b.Evicts big playing es seqno →
      (evictLoop big playing es b).mediaPackets (slot n seqno) = some elm) := by
  induction es generalizing b with
  | nil => exact ⟨fun ⟨_,_,he,_⟩ => by simp at he,fun _ => h⟩
  | cons e rest ih =>
    rw [evictLoop,evicts_cons]
    by_cases hdue : b.due big playing (rest.length+1) e = true
    · simp only [hdue,if_true,true_and]
      by_cases he : e.seqno=seqno
      · subst he
        refine ⟨fun _ => evictLoop_slot_none big playing rest (evict_slot_self h hs),?_⟩
        exact fun hno => absurd (.inl rfl) hno
      · have hrest := ih (evict_slot_of_ne h hs he)
        exact ⟨fun hev => hrest.1 (hev.resolve_left he),fun hno => hrest.2 (fun hev => hno (.inr hev))⟩
    · rw [if_neg hdue]
      exact ⟨fun hev => absurd hev.1 hdue,fun _ => h⟩

/-- `insert` keeps its word: a packet it reports as stored is handed out by `get`, and one it
refuses was there before. -/
def Stores (b : PacketBuffer n) (pkt : MediaPacket) (now : BitVec 32)
    (playing : Option (BitVec 32)) : Prop :=
  ((b.insert pkt now playing).2 = true → (b.insert pkt now playing).1.get pkt.seqno now = some pkt) ∧
  ((b.insert pkt now playing).2 = false →
    ∃ p, b.get pkt.seqno now = some p ∧ p.seqno=pkt.seqno)

/-- A packet just stored is within the retention time of its own buffer. -/
def Retains (b : PacketBuffer n) (now : BitVec 32) : Prop :=
  b.isVodCategory=true ∨ isTimePassed (b.bufTimeMsec*8) now now = false

theorem insert_of_has (playing : Option (BitVec 32)) (h : b.has pkt.seqno now ≠ .notHas) :
    b.insert pkt now playing = (b, false) := by
  rw [insert,if_pos h]

theorem stores_of_has (playing : Option (BitVec 32)) (h : b.has pkt.seqno now ≠ .notHas) :
    b.Stores pkt now playing := by
  obtain ⟨elm,helm,hh⟩ := (b.has_ne_notHas_iff pkt.seqno now).mp h
  have hseq : elm.packetBuf.seqno=pkt.seqno := by
    simp only [holds,Bool.and_eq_true,decide_eq_true_eq] at hh
    exact hh.1
  rw [Stores,insert_of_has playing h]
  refine ⟨fun hf => by simp at hf,fun _ => ⟨elm.packetBuf,?_,hseq⟩⟩
  exact (b.get_eq_some_iff _ _ _).mpr ⟨elm,helm,hh,rfl⟩

theorem insert_slot (playing : Option (BitVec 32)) (h : b.has pkt.seqno now = .notHas) :
    (b.insert pkt now playing).1.mediaPackets (slot n pkt.seqno) =
      (evictLoop (b.bigestAfter pkt.timeStamp) playing b.recentSeqLstLong
        (b.assign pkt now)).mediaPackets (slot n pkt.seqno) ∧
    (b.insert pkt now playing).2 = true := by
  rw [insert,if_neg (not_not.mpr h)]
  exact ⟨rfl,rfl⟩

theorem evictLoop_config (big : BitVec 32) (playing : Option (BitVec 32)) (es : List SeqEntry)
    (b : PacketBuffer n) : (evictLoop big playing es b).bufTimeMsec = b.bufTimeMsec ∧
      (evictLoop big playing es b).isVodCategory = b.isVodCategory := by
  induction es generalizing b with
  | nil => exact ⟨rfl,rfl⟩
  | cons e rest ih =>
    rw [evictLoop]
    split
    · exact ih (b.evict e)
    · exact ⟨rfl,rfl⟩

theorem insert_config (b : PacketBuffer n) (pkt : MediaPacket) (now : BitVec 32)
    (playing : Option (BitVec 32)) : (b.insert pkt now playing).1.bufTimeMsec = b.bufTimeMsec ∧
      (b.insert pkt now playing).1.isVodCategory = b.isVodCategory := by
  unfold insert
  split
  · exact ⟨rfl,rfl⟩
  · exact evictLoop_config _ _ _ _

/-- An insertion keeps its word exactly when it is refused, or the buffer retains packets at
all and the eviction loop meets no entry left over from an earlier packet of the same
number. -/
theorem insert_stores_iff (b : PacketBuffer n) (pkt : MediaPacket) (now : BitVec 32)
    (playing : Option (BitVec 32)) : b.Stores pkt now playing ↔
      b.has pkt.seqno now ≠ .notHas ∨ b.Retains now ∧
        ¬ b.Evicts (b.bigestAfter pkt.timeStamp) playing b.recentSeqLstLong pkt.seqno := by
  by_cases hhas : b.has pkt.seqno now = .notHas
  swap
  · exact iff_of_true (stores_of_has playing hhas) (.inl hhas)
  obtain ⟨hslot,hstored⟩ := insert_slot playing hhas
  obtain ⟨htime,hvod⟩ := b.insert_config pkt now playing
  have hassigned : (b.assign pkt now).mediaPackets (slot n pkt.seqno) =
      some ⟨pkt,now,pkt.isPush≠0⟩ := by simp [assign]
  have hloop := evictLoop_slot (b.bigestAfter pkt.timeStamp) playing b.recentSeqLstLong
    hassigned rfl
  rw [← hslot] at hloop
  have hget := (b.insert pkt now playing).1.get_eq_some_iff pkt.seqno now pkt
  rw [Stores,hstored]
  simp only [forall_const,Bool.true_eq_false,false_implies,and_true,hhas,ne_eq,
    not_true_eq_false,false_or]
  rw [hget]
  constructor
  · rintro ⟨elm,helm,hh,-⟩
    have hno : ¬ b.Evicts (b.bigestAfter pkt.timeStamp) playing b.recentSeqLstLong pkt.seqno := by
      intro hev
      rw [hloop.1 hev] at helm
      cases helm
    refine ⟨?_,hno⟩
    rw [hloop.2 hno,Option.some.injEq] at helm
    subst helm
    simpa [holds,htime,hvod,Retains] using hh
  · rintro ⟨hret,hno⟩
    refine ⟨_,hloop.2 hno,?_,rfl⟩
    simpa [holds,htime,hvod,Retains] using hret

def numbered (seqno timeStamp : BitVec 32) : MediaPacket :=
  { MediaPacket.blank with seqno, timeStamp }

/-- A live buffer of one second in which packet 512 has taken the slot of packet 0 while the
entry of packet 0 stayed listed for the player. -/
def overtakenBuffer : PacketBuffer (liveRingLog 1000) :=
  (((((create (liveRingLog 1000) 1000 false).insert (numbered 0 0) 0 (some 0)).1).insert
    (numbered 512 0) 0 (some 0)).1.insert (numbered 600 6000) 0 (some 0)).1

/-- Packet 0 arrives again once the player is past it: `insert` reports it as stored, but it
has just evicted it. -/
theorem overtaken_packet_is_lost : (overtakenBuffer.insert (numbered 0 0) 0 (some 513)).2 = true ∧
      (overtakenBuffer.insert (numbered 0 0) 0 (some 513)).1.get 0 0 = none := by
  decide +kernel

end PacketBuffer
end P2Streaming
