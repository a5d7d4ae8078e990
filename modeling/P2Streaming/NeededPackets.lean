import P2Streaming.AbsentLearning
import P2Streaming.TransitionRuns

/-!
# No needed packet is forgotten

The client with its buffer manager, the smallest number its dispatcher cares for and, for the
record, all numbers it has received. In every run in which each event is one the modular
comparisons can deal with, trims nothing needed and does not raise `bigest_sqno_i_know_` over a
packet that is neither received nor listed, every number up to `bigest_sqno_i_know_` that has not
been received is in the absent list.
-/
namespace P2Streaming
open WrappableInteger SerialMaps TransitionRuns BufferManager

/-- The client; `received` records the numbers of all packets that came in. -/
structure Client (n : ℕ) where
  bufferManager : BufferManager n
  smallestSeqnoICare : Option (BitVec 32)
  received : List (BitVec 32)

inductive ClientEvent where
  | setBigestSeqno (currentBigestSeq : BitVec 32) (backfetchCnt : ℤ) (now : BitVec 32)
  | injectAbsentSeqno (bufferSize : ℤ) (now : BitVec 32)
  | recvdBuffermap (bufmap : BuffermapInfo) (now : BitVec 32) (addToOwner : Bool)
  | recvdSeqnos (seqnomap : List (BitVec 32)) (bigest now : BitVec 32) (addToOwner : Bool)
  | recvdPacket (pkt : MediaPacket) (now : BitVec 32) (toCache : Bool) (playing : Option (BitVec 32))
  | requestFailed (seqno : BitVec 32)
  | setRequesting (seqno : BitVec 32)
  | advance (smallest : BitVec 32) (maxRangeCnt : ℤ)

namespace Client

variable {n : ℕ}

/-- A client that has just been constructed; only a vod client knows the range of a film. -/
def create (n bufTime : ℕ) (isVod : Bool) (film : BitVec 32 × BitVec 32) : Client n where
  bufferManager :=
    { isVod := isVod
      seqnoRange := if isVod then some film else none
      memoryPacketCache := PacketBuffer.create n bufTime isVod
      absentPacketList := .empty
      bigestSqnoIKnow := none }
  smallestSeqnoICare := none
  received := []

variable (c : Client n)

/-- The absent list after `f`. -/
def mapAbsent (f : AbsentPacketList → AbsentPacketList) : Client n :=
  { c with bufferManager :=
      { c.bufferManager with absentPacketList := f c.bufferManager.absentPacketList } }

/-- `process_recvd_media_packet` and `process_media_packet_from_nonsocket`: a packet that is not
in the memory cache yet is stored there, the latter only if it is not too late, and is absent no
longer. -/
def recvdPacket (pkt : MediaPacket) (now : BitVec 32) (toCache : Bool)
    (playing : Option (BitVec 32)) : Client n :=
  if c.bufferManager.lacks pkt.seqno now then
    { c with
      bufferManager :=
        { c.bufferManager with
          memoryPacketCache :=
            if toCache then (c.bufferManager.memoryPacketCache.insert pkt now playing).1
            else c.bufferManager.memoryPacketCache
          absentPacketList := c.bufferManager.absentPacketList.recvd pkt.seqno now }
      received := pkt.seqno :: c.received }
  else c

def step : ClientEvent → Client n
  | .setBigestSeqno current backfetchCnt now =>
      { c with
        bufferManager := c.bufferManager.setBigestSeqno current backfetchCnt now
        smallestSeqnoICare := some (current - BitVec.ofInt 32 backfetchCnt) }
  | .injectAbsentSeqno bufferSize now =>
      match c.smallestSeqnoICare with
      | some o => { c with bufferManager := c.bufferManager.injectAbsentSeqno o bufferSize now }
      | none => c
  | .recvdBuffermap bufmap now addToOwner =>
      match c.smallestSeqnoICare with
      | some o =>
          { c with bufferManager := c.bufferManager.processRecvdBuffermap bufmap o now addToOwner }
      | none => c
  | .recvdSeqnos seqnomap bigest now addToOwner =>
      match c.smallestSeqnoICare with
      | some o =>
          { c with
            bufferManager := c.bufferManager.processRecvdSeqnos seqnomap bigest o now addToOwner }
      | none => c
  | .recvdPacket pkt now toCache playing => c.recvdPacket pkt now toCache playing
  | .requestFailed seqno => c.mapAbsent (·.requestFailed seqno)
  | .setRequesting seqno => c.mapAbsent (·.setRequesting seqno)
  | .advance smallest maxRangeCnt =>
      match c.smallestSeqnoICare with
      | some _ =>
          { c.mapAbsent (·.trim smallest maxRangeCnt) with smallestSeqnoICare := some smallest }
      | none => c

def listed : List (BitVec 32) :=
  c.bufferManager.absentPacketList.notRequestingPackets ++
    c.bufferManager.absentPacketList.requestingPackets

def Accounted (s : BitVec 32) : Prop := s ∈ c.received ∨ s∈c.listed

/-- Every number from the smallest one the client cares for up to the bigest one it knows is
received or tracked. -/
def ForgetsNothing : Prop :=
  ∀ o∈c.smallestSeqnoICare, ∀ known∈c.bufferManager.bigestSqnoIKnow, ∀ s,
    ahead o known < 2^31 → ahead o s ≤ ahead o known → c.Accounted s

def MessageFits (o known : BitVec 32) (seqnomap : List (BitVec 32))
    (bigest : BitVec 32) : Prop :=
  seqnomap≠[] → c.bufferManager.Fits o (· ∈ c.received) known seqnomap bigest

def Harmless : ClientEvent → Prop
  | .setBigestSeqno current backfetchCnt _ =>
      let p := current - BitVec.ofInt 32 backfetchCnt
      1 - backfetchCnt ≤ 2^31 - 2^16 ∧
        (∀ o∈c.smallestSeqnoICare, c.listed=[] ∨ AbsentPacketList.Reaches o p) ∧
        ∀ x∈c.listed, ahead p x < 2^31 → (ahead p x : ℤ) ≤ backfetchCnt → ahead p x < 2^15
  | .injectAbsentSeqno _ _ =>
      ∀ o∈c.smallestSeqnoICare, ∀ film∈c.bufferManager.seqnoRange,
        BufferManager.FilmEndNear o film.2
  | .recvdBuffermap bufmap _ _ =>
      ∀ o∈c.smallestSeqnoICare, ∀ known∈c.bufferManager.bigestSqnoIKnow,
        ∀ call ∈ c.bufferManager.firstCall bufmap known, c.MessageFits o known call.1 call.2
  | .recvdSeqnos seqnomap bigest _ _ =>
      ∀ o∈c.smallestSeqnoICare, ∀ known∈c.bufferManager.bigestSqnoIKnow,
        c.MessageFits o known seqnomap bigest
  | .recvdPacket pkt _ _ _ => ∀ x∈c.listed, ahead pkt.seqno x ≠ 2^31
  | .requestFailed seqno => seqno ∈ c.listed
  | .setRequesting seqno => seqno ∈ c.listed
  | .advance p maxRangeCnt =>
      ∀ o∈c.smallestSeqnoICare, ahead o p < 2^31 ∧
        ∀ known∈c.bufferManager.bigestSqnoIKnow,
          (ahead o known < 2^31 ∧ ahead o p ≤ ahead o known ∨ ahead known p ≤ 2^31 - 2^16) ∧
          ∀ s∈c.listed, ahead p s ≤ ahead p known → ahead p known < 2^31 →
            (ahead p s : ℤ) ≤ maxRangeCnt ∨ s∈c.received

instance (o known : BitVec 32) (seqnomap : List (BitVec 32)) (bigest : BitVec 32) :
    Decidable (c.MessageFits o known seqnomap bigest) := inferInstanceAs (Decidable (_ → _))

-- a bounded quantifier over numbers is decided by going through the bound, not through all words
instance : (e : ClientEvent) → Decidable (c.Harmless e)
  | .setBigestSeqno _ _ _ =>
      @instDecidableAnd _ _ _
        (@instDecidableAnd _ _ (Option.decidableForallMem _) (List.decidableBAll _ c.listed))
  | .injectAbsentSeqno _ _ =>
      @Option.decidableForallMem _ _ (fun _ => Option.decidableForallMem _) c.smallestSeqnoICare
  | .recvdBuffermap _ _ _ =>
      @Option.decidableForallMem _ _
        (fun _ => @Option.decidableForallMem _ _ (fun _ => Option.decidableForallMem _) _)
        c.smallestSeqnoICare
  | .recvdSeqnos _ _ _ _ =>
      @Option.decidableForallMem _ _ (fun _ => Option.decidableForallMem _) c.smallestSeqnoICare
  | .recvdPacket pkt _ _ _ => List.decidableBAll (fun x => ahead pkt.seqno x ≠ 2^31) c.listed
  | .requestFailed seqno => inferInstanceAs (Decidable (seqno∈c.listed))
  | .setRequesting seqno => inferInstanceAs (Decidable (seqno∈c.listed))
  | .advance _ _ =>
      @Option.decidableForallMem _ _
        (fun _ => @instDecidableAnd _ _ _ (@Option.decidableForallMem _ _
          (fun _ => @instDecidableAnd _ _ _ (List.decidableBAll _ c.listed)) _))
        c.smallestSeqnoICare

theorem mem_listed {c : Client n} {s : BitVec 32} :
    s∈c.listed ↔ c.bufferManager.absentPacketList.Listed s := by
  rw [listed,List.mem_append,AbsentPacketList.Listed]

structure Keeps (c : Client n) : Prop where
  cached : ∀ k elm, c.bufferManager.memoryPacketCache.mediaPackets k = some elm →
    elm.packetBuf.seqno∈c.received
  live : c.bufferManager.isVod=false → c.bufferManager.seqnoRange=none
  unset : c.smallestSeqnoICare=none → ∀ o, c.bufferManager.absentPacketList.Sound o
  tracks : ∀ o, c.smallestSeqnoICare = some o → c.bufferManager.Tracks o (· ∈ c.received)

theorem keeps_create (bufTime : ℕ) (isVod : Bool) (film : BitVec 32 × BitVec 32) :
    (create n bufTime isVod film).Keeps := by
  refine ⟨nofun,fun h => ?_,fun _ => AbsentPacketList.sound_empty,nofun⟩
  have hvod : isVod=false := h
  simp [create,hvod]

namespace Keeps

variable {c : Client n}

section
variable (h : c.Keeps)
include h

theorem received_of_cached {s : BitVec 32} (hs : c.bufferManager.Cached s) :
    s∈c.received := by
  obtain ⟨now,hnow⟩ := hs
  have hhas := of_decide_eq_false hnow
  obtain ⟨elm,helm,hholds⟩ := (PacketBuffer.has_ne_notHas_iff _ _ _).mp hhas
  simp only [PacketBuffer.holds,Bool.and_eq_true,decide_eq_true_eq] at hholds
  exact hholds.1 ▸ h.cached _ elm helm

theorem accounted : c.ForgetsNothing := by
  intro o ho known hknown s hlt hs
  exact ((h.tracks o ho).tracked known s hknown hlt hs).imp id mem_listed.mpr

theorem mapAbsent {f : AbsentPacketList → AbsentPacketList}
    (hf : ∀ o, c.bufferManager.absentPacketList.Sound o →
      (f c.bufferManager.absentPacketList).Sound o ∧
        ∀ x, c.bufferManager.absentPacketList.Listed x →
          (f c.bufferManager.absentPacketList).Listed x) : (c.mapAbsent f).Keeps := by
  refine ⟨h.cached,h.live,fun hu o => (hf o (h.unset hu o)).1,fun o ho => ?_⟩
  obtain ⟨hsound,hplaced,htracked⟩ := h.tracks o ho
  exact ⟨(hf o hsound).1,hplaced,fun known s hk hlt hs =>
    (htracked known s hk hlt hs).imp id ((hf o hsound).2 s)⟩

theorem manage {m : BufferManager n} {o : BitVec 32}
    (hconfig : m.memoryPacketCache=c.bufferManager.memoryPacketCache ∧
      m.isVod = c.bufferManager.isVod ∧ m.seqnoRange=c.bufferManager.seqnoRange)
    (hm : m.Tracks o (· ∈ c.received)) :
    { c with bufferManager := m, smallestSeqnoICare := some o }.Keeps := by
  obtain ⟨hcache,hvod,hfilm⟩ := hconfig
  refine ⟨?_,?_,nofun,fun p hp => ?_⟩
  · rw [hcache]
    exact h.cached
  · rw [hvod,hfilm]
    exact h.live
  · obtain rfl : o=p := Option.some.inj hp
    exact hm

theorem setBigestSeqno (current : BitVec 32) (backfetchCnt : ℤ) (now : BitVec 32)
    (hc : c.Harmless (.setBigestSeqno current backfetchCnt now)) :
    (c.step (.setBigestSeqno current backfetchCnt now)).Keeps := by
  obtain ⟨hcnt,hreach,hfit⟩ := hc
  have hfit' := fun x hx => hfit x (mem_listed.mpr hx)
  refine ⟨h.cached,h.live,nofun,fun p hp => ?_⟩
  obtain rfl : current - BitVec.ofInt 32 backfetchCnt = p := Option.some.inj hp
  refine tracks_setBigestSeqno (fun s => h.received_of_cached) rfl ?_ hcnt now
  cases ho : c.smallestSeqnoICare with
  | none => exact (h.unset ho _).trim (.refl _) hfit'
  | some o =>
    have hsound := (h.tracks o ho).sound
    rcases hreach o ho with hnil | hreach
    · exact (hsound.of_not_listed fun x hx => by
        rw [← mem_listed,hnil] at hx
        cases hx).trim (.refl _) hfit'
    · exact hsound.trim hreach hfit'

theorem advance (p : BitVec 32) (maxRangeCnt : ℤ)
    (hc : c.Harmless (.advance p maxRangeCnt)) : (c.step (.advance p maxRangeCnt)).Keeps := by
  cases ho : c.smallestSeqnoICare with
  | none =>
    rw [step,ho]
    exact h
  | some o =>
    obtain ⟨hforth,hknown⟩ := hc o ho
    obtain ⟨hsound,hplaced,htracked⟩ := h.tracks o ho
    rw [step,ho]
    refine ⟨h.cached,h.live,nofun,fun q hq => ?_⟩
    obtain rfl : p=q := Option.some.inj hq
    refine ⟨hsound.trim (.inl hforth) fun x hx hlt _ => ?_,fun known hk => ?_,
      fun known s hk hlt hs => ?_⟩
    · -- what is ahead of the new smallest number was in the window before
      have hx' := hsound.listed_lt hx
      unfold ahead at *
      bv_omega
    · obtain ⟨hpast,-⟩ := hknown known hk
      have hold := hplaced known hk
      unfold BufferManager.Placed ahead at *
      rcases hpast with ⟨hlt,hle⟩ | hpast
      · left
        rcases hold with hold | hold <;> bv_omega
      · exact .inr hpast
    · obtain ⟨hpast,hcut⟩ := hknown known hk
      have hbefore : ahead o known < 2^31 ∧ ahead o s ≤ ahead o known := by
        have hold := hplaced known hk
        unfold BufferManager.Placed ahead at *
        rcases hold with hold | hold <;> rcases hpast with ⟨hlt,hle⟩ | hpast <;>
          constructor <;> bv_omega
      rcases htracked known s hk hbefore.1 hbefore.2 with hr | hl
      · exact .inl hr
      · rcases hcut s (mem_listed.mpr hl) hs hlt with hrange | hr
        · exact .inr (AbsentPacketList.listed_trim hl (by omega) hrange)
        · exact .inl hr

theorem recvdPacket (pkt : MediaPacket) (now : BitVec 32) (toCache : Bool)
    (playing : Option (BitVec 32)) (hc : ∀ x∈c.listed, ahead pkt.seqno x ≠ 2^31) :
    (c.recvdPacket pkt now toCache playing).Keeps := by
  unfold Client.recvdPacket
  by_cases hlacks : c.bufferManager.lacks pkt.seqno now = true
  swap
  · rw [if_neg hlacks]
    exact h
  rw [if_pos hlacks]
  have herase := fun o (ho : c.bufferManager.absentPacketList.Sound o) => ho.erase pkt.seqno now
  refine ⟨fun k elm hk => ?_,h.live,fun hu o => (herase o (h.unset hu o)).1,fun o ho => ?_⟩
  · split_ifs at hk
    · rcases PacketBuffer.of_insert_slot hk with hk | hpkt
      · exact List.mem_cons_of_mem _ (h.cached k elm hk)
      · exact hpkt ▸ List.mem_cons_self
    · exact List.mem_cons_of_mem _ (h.cached k elm hk)
  · obtain ⟨hsound,hplaced,htracked⟩ := h.tracks o ho
    refine ⟨(herase o hsound).1,hplaced,fun known s hk hlt hs => ?_⟩
    rcases htracked known s hk hlt hs with hr | hl
    · exact .inl (List.mem_cons_of_mem _ hr)
    · by_cases he : s=pkt.seqno
      · exact .inl (he ▸ List.mem_cons_self)
      · exact .inr ((herase o hsound).2 s he (hc s (mem_listed.mpr hl)) hl)

end

end Keeps

theorem Keeps.step {c : Client n} (h : c.Keeps) {e : ClientEvent} (hc : c.Harmless e) :
    (c.step e).Keeps := by
  cases e with
  | setBigestSeqno current backfetchCnt now => exact h.setBigestSeqno current backfetchCnt now hc
  | advance p maxRangeCnt => exact h.advance p maxRangeCnt hc
  | recvdPacket pkt now toCache playing => exact h.recvdPacket pkt now toCache playing hc
  | requestFailed seqno =>
    exact h.mapAbsent (f := (·.requestFailed seqno)) fun o ho => ho.requestFailed (mem_listed.mp hc)
  | setRequesting seqno =>
    exact h.mapAbsent (f := (·.setRequesting seqno)) fun o ho => ho.setRequesting (mem_listed.mp hc)
  | injectAbsentSeqno bufferSize now =>
    cases ho : c.smallestSeqnoICare with
    | none =>
      rw [Client.step,ho]
      exact h
    | some o =>
      rw [Client.step,ho]
      exact h.manage (injectAbsentSeqno_config _ o bufferSize now)
        ((h.tracks o ho).injectAbsentSeqno (fun s => h.received_of_cached) (hc o ho) bufferSize now)
  | recvdBuffermap bufmap now addToOwner =>
    cases ho : c.smallestSeqnoICare with
    | none =>
      rw [Client.step,ho]
      exact h
    | some o =>
      rw [Client.step,ho]
      refine h.manage (processRecvdBuffermap_config _ bufmap o now addToOwner)
        ((h.tracks o ho).processRecvdBuffermap (fun s => h.received_of_cached) h.live bufmap now
          addToOwner fun known hk call hcall => hc o ho known hk call hcall ?_)
      exact firstCall_ne_nil hcall
  | recvdSeqnos seqnomap bigest now addToOwner =>
    cases ho : c.smallestSeqnoICare with
    | none =>
      rw [Client.step,ho]
      exact h
    | some o =>
      rw [Client.step,ho]
      refine h.manage (processRecvdSeqnos_config _ seqnomap bigest o now addToOwner) ?_
      cases hk : c.bufferManager.bigestSqnoIKnow with
      | none =>
        rw [processRecvdSeqnos,hk]
        exact h.tracks o ho
      | some known =>
        by_cases hnil : seqnomap=[]
        · subst hnil
          rw [processRecvdSeqnos,hk]
          exact h.tracks o ho
        · exact ((h.tracks o ho).processRecvdSeqnos (fun s => h.received_of_cached) hk
            (by simpa using hnil) (hc o ho known hk hnil) now addToOwner).1

/-- In every run of harmless events the client forgets no needed packet. -/
theorem needed_packets_tracked {bufTime : ℕ} {isVod : Bool} {film : BitVec 32 × BitVec 32}
    {events : List ClientEvent} (h : AlongRun step Harmless (create n bufTime isVod film) events) :
    (events.foldl step (create n bufTime isVod film)).ForgetsNothing :=
  (invariant_of_run Keeps (fun _ _ hc hs => hs.step hc) h (keeps_create bufTime isVod film)).accounted

/-- A vod client that starts at packet 5, requests some packets, receives one, hears of more from
a peer and plays on. -/
def playingRun : List ClientEvent :=
  [.setBigestSeqno 10 5 0,.setRequesting 5,.setRequesting 6,
    .recvdPacket (PacketBuffer.numbered 5 0) 0 true none,.requestFailed 6,
    .recvdSeqnos [11,12] 12 0 true,.injectAbsentSeqno 10 0,.advance 6 2000]

theorem playing_client_forgets_nothing :
    (playingRun.foldl step (create 11 0 true (0, 20))).ForgetsNothing :=
  needed_packets_tracked (by decide +kernel)

/-- A vod client that starts at packet 10 hears from a peer that has packet 9 and knows of no
more. -/
def overtakenRun : List ClientEvent :=
  [.setBigestSeqno 10 0 0,.recvdBuffermap ⟨some [0x80],some 9,some 9,[]⟩ 0 true]

/-- The client now takes packet 10 for known, which it waits for; it has not received it and
nobody tracks it. -/
theorem overtaken_client_forgets_packet :
    ¬ (overtakenRun.foldl step (create 11 0 true (0, 9999))).ForgetsNothing := by
  intro h
  have hsmallest : (overtakenRun.foldl step (create 11 0 true (0, 9999))).smallestSeqnoICare =
      some 10 := by decide +kernel
  have hknown : (overtakenRun.foldl step (create 11 0 true (0, 9999))).bufferManager.bigestSqnoIKnow =
      some 10 := by decide +kernel
  have hlost : 10 ∉ (overtakenRun.foldl step (create 11 0 true (0, 9999))).received ∧
      10 ∉ (overtakenRun.foldl step (create 11 0 true (0, 9999))).listed := by decide +kernel
  exact (h 10 hsmallest 10 hknown 10 (by decide) le_rfl).elim hlost.1 hlost.2

end Client
end P2Streaming
