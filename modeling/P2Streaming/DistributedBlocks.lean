import P2Streaming.FecRecovery
import P2Streaming.TransitionRuns
import Mathlib.Tactic.IntervalCases

/-!
# Parity packets of a whole distribution

In every run of the distributor, whatever number it starts at, a block of thirty-two
numbers that starts at a multiple of thirty-two and has been sent completely ends with
the two parity packets of its substreams.
-/
namespace P2Streaming
open BigEndianBytes SecurityPolicy XorParity PacketFec FecEncoder TransitionRuns MediaPacket
  MediaDistributor
open BitVec
open List

namespace FecDecoder
variable {n : ℕ}

def mates (k : ℕ) : List ℕ := List.range k ++ List.range' (k+1) (14 - k)

theorem filter_range_eq_mates : ∀ k<15, (List.range 15).filter (· ≠ k) = mates k := by decide

theorem range_eq_mates :
    ∀ k<15, List.range 15 = List.range k ++ k :: List.range' (k+1) (14 - k) := by decide

theorem mem_mates {k m : ℕ} (hk : k<15) (hm : m ∈ mates k) : m<15 ∧ m≠k := by
  rw [← filter_range_eq_mates k hk,mem_filter,mem_range] at hm
  simpa using hm

/-- Number `m` of a substream of the block that starts at `base`. -/
def numberAt (base : BitVec 32) (sub m : ℕ) : BitVec 32 := base + BitVec.ofNat 32 (sub + 2 * m)

section
variable {base : BitVec 32} {sub k : ℕ}

theorem numberAt_mod (hbase : base.toNat % 32 = 0) (hsub : sub<2) (hk : k<15) :
    (numberAt base sub k).toNat % 32 = sub + 2 * k := by
  rw [numberAt]
  bv_omega

theorem first_eq (hbase : base.toNat % 32 = 0) (hsub : sub<2) (hk : k<15) :
    numberAt base sub k - BitVec.ofNat 32 ((numberAt base sub k).toNat % (fecN * (fecM+1))) +
      BitVec.ofNat 32 ((numberAt base sub k).toNat % fecN) = base + BitVec.ofNat 32 sub := by
  have h32 : (numberAt base sub k).toNat % (fecN * (fecM+1)) = sub + 2 * k :=
    numberAt_mod hbase hsub hk
  have h2 : (numberAt base sub k).toNat % fecN = sub := by
    have := numberAt_mod hbase hsub hk
    rw [fecN]
    omega
  rw [h32,h2,numberAt]
  bv_omega

theorem numberAt_inj {m : ℕ} (hm : m<16) (hk : k<16) : numberAt base sub m = numberAt base sub k ↔
    m=k := by
  rw [numberAt,numberAt]
  constructor
  · intro h
    bv_omega
  · rintro rfl
    rfl

section
variable (hbase : base.toNat % 32 = 0)
include hbase

theorem fecEncodeSeq_eq (hsub : sub<2) (hk : k<15) :
    fecEncodeSeq (numberAt base sub k) = numberAt base sub 15 := by
  rw [fecEncodeSeq,first_eq hbase hsub hk,numberAt,ofNat_add,add_assoc]
  rfl

theorem substream_others (hsub : sub<2) (hk : k<15) :
    (substream (numberAt base sub k)).filter (· ≠ numberAt base sub k) =
      (mates k).map (numberAt base sub) ++ [numberAt base sub 15] := by
  have hsub16 : substream (numberAt base sub k) = (List.range 16).map (numberAt base sub) := by
    rw [substream,first_eq hbase hsub hk]
    refine map_congr_left fun m _ => ?_
    rw [numberAt,ofNat_add,add_assoc]
    rfl
  rw [hsub16,filter_map,range_succ,filter_append,map_append]
  congr 1
  · rw [← filter_range_eq_mates k hk]
    congr 1
    refine filter_congr fun m hm => ?_
    rw [mem_range] at hm
    simp [numberAt_inj (by omega : m<16) (by omega : k<16)]
  · have hne : numberAt base sub 15 ≠ numberAt base sub k := fun he =>
      absurd ((numberAt_inj (by decide) (by omega)).mp he) (by omega)
    simp [hne]

theorem decode_eq {md5 : List Byte → Digest} {casString : List Byte} {b : PacketBuffer n}
    {now : BitVec 32} {fecPkts : BitVec 32 → Option MediaPacket} {fecPkt : MediaPacket}
    {B : ℕ → List Byte} {copy : ℕ → MediaPacket} (hsub : sub<2) (hk : k<15)
    (hfec : fecPkts (numberAt base sub 15) = some fecPkt)
    (hpay : (casMediapacket md5 fecPkt casString).payload = parityPayload ((List.range 15).map B))
    (hcopy : ∀ m<15, m≠k → b.get (numberAt base sub m) now = some (copy m) ∧
      (copy m).buffer.length = (B m).length) : decode md5 (numberAt base sub k) b fecPkts casString now =
      if b.has (numberAt base sub 15) now ≠ .notHas then
        some (if (BitVec.ofNat 32 (B k).length).toInt < 0 ∨
            (BitVec.ofNat 32 (longest ((List.range 15).map B) + 4)).toInt <
              (BitVec.ofNat 32 (B k).length).toInt then []
          else (parity (parityPayload ((List.range 15).map B))
            ((mates k).map fun m => (copy m).buffer)).take (BitVec.ofNat 32 (B k).length).toInt.toNat)
      else none := by
  have hmates : ∀ m ∈ mates k, m<15 ∧ m≠k := fun m hm => mem_mates hk hm
  have hget : ((mates k).map (numberAt base sub)).map (b.get · now) = ((mates k).map copy).map some := by
    rw [map_map,map_map]
    refine map_congr_left fun m hm => ?_
    exact (hcopy m (hmates m hm).1 (hmates m hm).2).1
  have hhas : ((mates k).map (numberAt base sub)).all (fun seq => b.has seq now ≠ .notHas) = true := by
    rw [all_eq_true]
    intro seq hseq
    obtain ⟨m,hm,rfl⟩ := mem_map.mp hseq
    obtain ⟨elm,helm,hh,-⟩ := (b.get_eq_some_iff _ _ _).mp
      (hcopy m (hmates m hm).1 (hmates m hm).2).1
    exact decide_eq_true ((b.has_ne_notHas_iff _ _).mpr ⟨elm,helm,hh⟩)
  have hlen14 : (mates k).length = 14 := by
    rw [mates,length_append,length_range,length_range']
    omega
  have hsplit : (List.range 15).map B =
      (List.range k).map B ++ B k :: (List.range' (k+1) (14 - k)).map B := by
    rw [range_eq_mates k hk,map_append,map_cons]
  have hlen : ((mates k).map fun m => (copy m).buffer).map List.length =
      ((List.range k).map B ++ (List.range' (k+1) (14 - k)).map B).map List.length := by
    rw [← map_append,map_map,map_map]
    exact map_congr_left fun m hm => (hcopy m (hmates m hm).1 (hmates m hm).2).2
  have hfirst : (PacketFec.create fecM true).push (parityPayload ((List.range 15).map B)) =
      (loaded fecM true [parityPayload ((List.range 15).map B)], none) :=
    push_loaded true (l := []) _ (by decide)
  have hloop := decodeLoop_eq b now (m := fecM) [numberAt base sub 15] ((mates k).map copy)
    ((mates k).map (numberAt base sub)) [parityPayload ((List.range 15).map B)] hget
    (ne_nil_of_length_pos (by rw [length_map,hlen14]; decide))
    (by rw [length_map,hlen14]; rfl)
  rw [decode,fecEncodeSeq_eq hbase hsub hk,hfec]
  dsimp only
  rw [substream_others hbase hsub hk,all_append,hhas,hpay,hfirst,hloop]
  have hcut := cutResult_eq (s := B k) hlen
  rw [← hsplit,length_parity,length_nil,Nat.zero_max] at hcut
  have hbuf : ((mates k).map copy).map buffer = (mates k).map fun m => (copy m).buffer := by
    rw [map_map]
    rfl
  rw [hbuf,singleton_append,hcut]
  by_cases hf : b.has (numberAt base sub 15) now ≠ .notHas
  · simp [hf]
  · simp [not_not.mp hf]

end

end
end FecDecoder

/-- One call of `__do_distribute` from outside. -/
structure DistributeJob where
  pkt : MediaPacket
  env : DistributeEnv
  fecEnv1 : DistributeEnv
  fecEnv2 : DistributeEnv

structure Distribution where
  distributor : MediaDistributor
  sent : List MediaPacket

namespace Distribution

def start (seed : BitVec 32) (sessionId : BitVec 8) : Distribution := ⟨.create seed sessionId,[]⟩

section
variable (md5 : List Byte → Digest) (casString channelUuid : List Byte)

def step (s : Distribution) (job : DistributeJob) : Distribution :=
  let r := s.distributor.doDistribute md5 casString channelUuid job.pkt job.env job.fecEnv1
    job.fecEnv2
  ⟨r.1,s.sent ++ r.2.map Prod.snd⟩

/-- The packet sent at a position; beyond the end an arbitrary one. -/
def packet (s : Distribution) (i : ℕ) : MediaPacket := s.sent.getD i blank

def buffersFrom (s : Distribution) (i : ℕ) (k : ℕ) : List Byte := (s.packet (i+k)).buffer

/-- The block of thirty-two packets from a position on ends with its parity packets. -/
def Coded (s : Distribution) (i : ℕ) : Prop :=
  ∀ sub<2, (casMediapacket md5 (s.packet (i + (30+sub))) casString).payload =
    parityPayload (substreamBefore (s.buffersFrom i) sub 30)

structure Inv (seed : BitVec 32) (s : Distribution) : Prop where
  seeds : s.distributor.mediaPktSeqSeed = seed + BitVec.ofNat 32 s.sent.length
  numbers : ∀ i<s.sent.length, (s.packet i).seqno = seed + BitVec.ofNat 32 (i+1)
  coder : s.distributor.fecEncoder.Waiting ∧ (∀ i<s.sent.length, (s.packet i).seqno.toNat % 32 ≠ 0) ∨
    s.distributor.fecEncoder.foundFirstFecSeqno=true ∧
      ∃ i, i ≤ s.sent.length ∧ (seed.toNat + i + 1) % 32 = 0 ∧
        s.distributor.fecEncoder.InBlock (s.buffersFrom i) (s.sent.length - i)
  coded : ∀ i, i + 32 ≤ s.sent.length → (s.packet i).seqno.toNat % 32 = 0 → s.Coded md5 casString i

end

variable {md5 : List Byte → Digest} {casString channelUuid : List Byte} {seed : BitVec 32}

theorem seqno_mod (seed : BitVec 32) (m : ℕ) :
    (seed + BitVec.ofNat 32 m).toNat % 32 = (seed.toNat+m) % 32 := by
  rw [toNat_add,toNat_ofNat]
  omega

variable {s : Distribution}

theorem packet_append_left (d : MediaDistributor) (more : List MediaPacket) {i : ℕ}
    (h : i<s.sent.length) : (Distribution.mk d (s.sent++more)).packet i = s.packet i :=
  getD_append _ _ _ _ h

theorem packet_append_right (d : MediaDistributor) (more : List MediaPacket)
    (m : ℕ) : (Distribution.mk d (s.sent++more)).packet (s.sent.length+m) = more.getD m blank := by
  rw [packet,getD_append_right _ _ _ _ (by omega),Nat.add_sub_cancel_left]

theorem Coded.append {i : ℕ} (h : s.Coded md5 casString i)
    (hi : i+32 ≤ s.sent.length) (d : MediaDistributor) (more : List MediaPacket) :
    (Distribution.mk d (s.sent++more)).Coded md5 casString i := by
  intro sub hsub
  rw [packet_append_left d more (by omega),h sub hsub]
  congr 1
  refine substreamBefore_congr fun k hk => ?_
  rw [buffersFrom,buffersFrom,packet_append_left d more (by omega)]

theorem step_eq_of_none {job : DistributeJob}
    (h : (s.distributor.fecEncoder.push
      (s.distributor.emit md5 casString channelUuid job.pkt job.env).2).2 = none) :
    s.step md5 casString channelUuid job =
      ⟨{ (s.distributor.emit md5 casString channelUuid job.pkt job.env).1 with
          fecEncoder := (s.distributor.fecEncoder.push
            (s.distributor.emit md5 casString channelUuid job.pkt job.env).2).1 },
        s.sent ++ [(s.distributor.emit md5 casString channelUuid job.pkt job.env).2]⟩ := by
  rw [step,doDistribute]
  rw [emit_fecEncoder,h]
  rfl

theorem step_of_some {job : DistributeJob} {f g : MediaPacket} (h : (s.distributor.fecEncoder.push
      (s.distributor.emit md5 casString channelUuid job.pkt job.env).2).2 = some [f,g]) :
    ∃ f' g', (s.step md5 casString channelUuid job).sent =
        s.sent ++ [(s.distributor.emit md5 casString channelUuid job.pkt job.env).2,f',g'] ∧
      f'.seqno = s.distributor.mediaPktSeqSeed + 1 + 1 ∧
      (casMediapacket md5 f' casString).payload = f.payload ∧
      g'.seqno = s.distributor.mediaPktSeqSeed + 1 + 1 + 1 ∧
      (casMediapacket md5 g' casString).payload = g.payload ∧
      (s.step md5 casString channelUuid job).distributor.mediaPktSeqSeed =
        s.distributor.mediaPktSeqSeed + 1 + 1 + 1 ∧
      (s.step md5 casString channelUuid job).distributor.fecEncoder =
        (s.distributor.fecEncoder.push
          (s.distributor.emit md5 casString channelUuid job.pkt job.env).2).1 := by
  rw [step,doDistribute]
  rw [emit_fecEncoder,h]
  exact ⟨_,_,rfl,rfl,casMediapacket_emit _ f _,rfl,
    casMediapacket_emit _ g _,rfl,rfl⟩

section
variable {s : Distribution}

section
variable (h : s.Inv md5 casString seed)
include h

theorem Inv.position :
    (s.distributor.mediaPktSeqSeed+1).toNat % 32 = (seed.toNat + s.sent.length + 1) % 32 := by
  have hsum : s.distributor.mediaPktSeqSeed+1 = seed + BitVec.ofNat 32 (s.sent.length+1) := by
    rw [h.seeds,ofNat_add,← add_assoc]
    rfl
  rw [hsum,seqno_mod]
  omega

theorem Inv.position_of_mem {i : ℕ} (hi : i<s.sent.length) :
    (s.packet i).seqno.toNat % 32 = (seed.toNat + i + 1) % 32 := by
  rw [h.numbers i hi,seqno_mod]
  omega

theorem Inv.numbers_append (d : MediaDistributor) (more : List MediaPacket)
    (hmore : ∀ m < more.length, (more.getD m blank).seqno =
      s.distributor.mediaPktSeqSeed + BitVec.ofNat 32 (m+1)) :
    ∀ i < (Distribution.mk d (s.sent++more)).sent.length,
      ((Distribution.mk d (s.sent++more)).packet i).seqno = seed + BitVec.ofNat 32 (i+1) := by
  intro i hi
  rw [length_append] at hi
  rcases Nat.lt_or_ge i s.sent.length with hlt | hge
  · rw [packet_append_left d more hlt,h.numbers i hlt]
  · obtain ⟨m,rfl⟩ := Nat.exists_eq_add_of_le hge
    rw [packet_append_right,hmore m (by omega),h.seeds,Nat.add_assoc s.sent.length m 1,
      ofNat_add s.sent.length]
    ring

theorem Inv.append_one {d : MediaDistributor} {p : MediaPacket}
    (hp : p.seqno=s.distributor.mediaPktSeqSeed+1)
    (hd : d.mediaPktSeqSeed=s.distributor.mediaPktSeqSeed+1) (hcoder : d.fecEncoder.Waiting ∧
        (∀ i<s.sent.length, (s.packet i).seqno.toNat % 32 ≠ 0) ∧ p.seqno.toNat % 32 ≠ 0 ∨
      d.fecEncoder.foundFirstFecSeqno = true ∧
        ∃ i, i ≤ s.sent.length ∧ (seed.toNat + i + 1) % 32 = 0 ∧
          d.fecEncoder.InBlock ((Distribution.mk d (s.sent ++ [p])).buffersFrom i)
            (s.sent.length + 1 - i)) :
    (Distribution.mk d (s.sent ++ [p])).Inv md5 casString seed := by
  have hnumbers := h.numbers_append d [p] (fun m hm => by
    obtain rfl : m=0 := by simpa using hm
    exact hp)
  have hlast : (Distribution.mk d (s.sent ++ [p])).packet s.sent.length = p :=
    packet_append_right d [p] 0
  refine ⟨?_,hnumbers,?_,fun i hi hpos => ?_⟩
  · rw [hd,h.seeds,length_append,ofNat_add s.sent.length,← add_assoc]
    rfl
  · rcases hcoder with ⟨hw,hold,hnew⟩ | ⟨hfound,i,hi,hbase,hblock⟩
    · refine .inl ⟨hw,fun i hi => ?_⟩
      rw [length_append,length_singleton] at hi
      rcases Nat.lt_or_ge i s.sent.length with hlt | hge
      · rw [packet_append_left d [p] hlt]
        exact hold i hlt
      · obtain rfl : i=s.sent.length := by omega
        rw [hlast]
        exact hnew
    · refine .inr ⟨hfound,i,?_,hbase,?_⟩
      · rw [length_append]
        omega
      · rw [length_append]
        exact hblock
  · rw [length_append,length_singleton] at hi
    have hlt : i<s.sent.length := by omega
    rw [packet_append_left d [p] hlt] at hpos
    rcases Nat.lt_or_ge s.sent.length (i+32) with hover | hold
    · -- a block cannot be completed by a media packet
      exfalso
      rcases hcoder with ⟨-,hno,-⟩ | ⟨-,k,hk,hbase,hblock⟩
      · exact hno i hlt hpos
      · have hb := hblock.bound
        rw [h.position_of_mem hlt] at hpos
        omega
    · exact (h.coded i hold hpos).append hold d [p]

section
variable (job : DistributeJob)
include job

theorem Inv.step_waiting (hw : s.distributor.fecEncoder.Waiting)
    (hno : ∀ i<s.sent.length, (s.packet i).seqno.toNat % 32 ≠ 0)
    (hpos : (s.distributor.mediaPktSeqSeed+1).toNat % 32 ≠ 0) :
    (s.step md5 casString channelUuid job).Inv md5 casString seed := by
  obtain ⟨hwait,hnone⟩ := hw.push_other
    (s.distributor.emit md5 casString channelUuid job.pkt job.env).2 hpos
  rw [step_eq_of_none hnone]
  exact h.append_one rfl rfl (.inl ⟨hwait,hno,hpos⟩)

theorem Inv.step_middle {i k : ℕ}
    (hi : i+k=s.sent.length) (hbase : (seed.toNat + i + 1) % 32 = 0) (hk : k<29)
    (hblock : s.distributor.fecEncoder.InBlock (s.buffersFrom i) k) :
    (s.step md5 casString channelUuid job).Inv md5 casString seed := by
  have hpos : (s.distributor.mediaPktSeqSeed+1).toNat % 32 = k := by
    rw [h.position]
    omega
  -- the block with the new packet in its place
  have hcongr : ∀ (d : MediaDistributor) (more : List MediaPacket), ∀ m<k,
      s.buffersFrom i m = (Distribution.mk d (s.sent++more)).buffersFrom i m := by
    intro d more m hm
    rw [buffersFrom,buffersFrom,packet_append_left d more (by omega)]
  have hself : ∀ (d : MediaDistributor) (p : MediaPacket),
      p.buffer = (Distribution.mk d (s.sent ++ [p])).buffersFrom i k := by
    intro d p
    rw [buffersFrom,hi]
    exact congrArg buffer (packet_append_right d [p] 0).symm
  have hlen : s.sent.length + 1 - i = k+1 := by omega
  have hpush := fun d => (hblock.congr (hcongr d _)).push_middle
    (s.distributor.emit md5 casString channelUuid job.pkt job.env).2 hpos (hself d _) hk
  rw [step_eq_of_none (hpush s.distributor).2]
  refine h.append_one rfl rfl (.inr ⟨(hpush s.distributor).1.found (by omega),i,by omega,hbase,?_⟩)
  rw [hlen]
  exact (hpush _).1

theorem Inv.step_last {i : ℕ}
    (hi : i+29=s.sent.length) (hbase : (seed.toNat + i + 1) % 32 = 0)
    (hblock : s.distributor.fecEncoder.InBlock (s.buffersFrom i) 29) :
    (s.step md5 casString channelUuid job).Inv md5 casString seed := by
  have hpos : (s.distributor.mediaPktSeqSeed+1).toNat % 32 = 29 := by
    rw [h.position]
    omega
  let p := (s.distributor.emit md5 casString channelUuid job.pkt job.env).2
  let block : ℕ → List Byte := fun m => if m<29 then s.buffersFrom i m else p.buffer
  have hcongr : ∀ m<29, s.buffersFrom i m = block m := fun m hm => (if_pos hm).symm
  have hnext := fun next => (hblock.congr hcongr).push_last p hpos rfl next
  obtain ⟨f,g,hsent,hf,hfp,hg,hgp,hseed,henc⟩ := step_of_some (hnext fun _ => []).2.2
  generalize s.step md5 casString channelUuid job = t at hsent hseed henc ⊢
  obtain ⟨d,sent⟩ := t
  subst hsent
  have hat : ∀ m, (Distribution.mk d (s.sent ++ [p,f,g])).packet (i + (29+m)) =
      [p,f,g].getD m blank := by
    intro m
    rw [← Nat.add_assoc,hi]
    exact packet_append_right d _ m
  have hblock' : ∀ m<30, block m = (Distribution.mk d (s.sent ++ [p,f,g])).buffersFrom i m := by
    intro m hm
    by_cases hlt : m<29
    · rw [← hcongr m hlt,buffersFrom,buffersFrom,packet_append_left d _ (by omega)]
    · obtain rfl : m=29 := by omega
      exact congrArg buffer (hat 0).symm
  refine ⟨?_,h.numbers_append d _ ?_,.inr ⟨?_,i+32,?_,by omega,?_⟩,fun j hj hjpos => ?_⟩
  · rw [hseed,h.seeds,length_append,ofNat_add s.sent.length]
    simp only [add_assoc]
    rfl
  · intro m hm
    have hm3 : m<3 := by simpa using hm
    interval_cases m
    · rfl
    · rw [getD_cons_succ,getD_cons_zero,hf,add_assoc]
      rfl
    · rw [getD_cons_succ,getD_cons_succ,getD_cons_zero,hg,add_assoc,
        add_assoc]
      rfl
  · rw [henc]
    exact (hnext fun _ => []).2.1
  · rw [length_append]
    simp only [length_cons,length_nil]
    omega
  · have hzero : (s.sent ++ [p,f,g]).length - (i+32) = 0 := by
      rw [length_append]
      simp only [length_cons,length_nil]
      omega
    rw [hzero,henc]
    exact (hnext _).1
  · rw [length_append] at hj
    simp only [length_cons,length_nil] at hj
    have hlt : j<s.sent.length := by omega
    rw [packet_append_left d _ hlt] at hjpos
    rcases Nat.lt_or_ge s.sent.length (j+32) with hover | hold
    · rw [h.position_of_mem hlt] at hjpos
      obtain rfl : j=i := by omega
      intro sub hsub
      rw [show 30 + sub = 29 + (sub+1) by omega,hat,
        ← substreamBefore_congr (fun m hm => hblock' m hm)]
      interval_cases sub
      · exact hfp
      · exact hgp
    · exact (h.coded j hold hjpos).append hold d _

theorem Inv.step :
    (s.step md5 casString channelUuid job).Inv md5 casString seed := by
  rcases h.coder with ⟨hw,hno⟩ | ⟨-,i,hi,hbase,hblock⟩
  · by_cases hpos : (s.distributor.mediaPktSeqSeed+1).toNat % 32 = 0
    · rw [h.position] at hpos
      exact h.step_middle job (i := s.sent.length) (k := 0) rfl hpos (by decide) (hw.inBlock _)
    · exact h.step_waiting job hw hno hpos
  · obtain ⟨k,hk⟩ := Nat.exists_eq_add_of_le hi
    rw [hk,Nat.add_sub_cancel_left] at hblock
    rcases Nat.lt_or_ge k 29 with hlt | hge
    · exact h.step_middle job hk.symm hbase hlt hblock
    · have hb := hblock.bound
      obtain rfl : k=29 := by omega
      exact h.step_last job hk.symm hbase hblock

end

end

end

theorem start_inv (seed : BitVec 32) (sessionId : BitVec 8) :
    (start seed sessionId).Inv md5 casString seed := by
  refine ⟨by simp [start,MediaDistributor.create],fun i hi => by simp [start] at hi,.inl ⟨?_,?_⟩,
    fun i hi => by simp [start] at hi⟩
  · exact ⟨rfl,fun _ => rfl,rfl⟩
  · intro i hi
    simp [start] at hi

theorem coded_of_run (sessionId : BitVec 8) (jobs : List DistributeJob) :
    (jobs.foldl (Distribution.step md5 casString channelUuid) (start seed sessionId)).Inv
      md5 casString seed :=
  invariant_of_run (P := fun _ _ => True) (Inv md5 casString seed) (fun _ job _ h => h.step job)
    (alongRun_of_forall (fun _ _ => trivial) _ jobs) (start_inv seed sessionId)

section
open FecDecoder
variable {n : ℕ}

/-- The bytes of the packets of a substream of the block at a position. -/
def members (t : Distribution) (i sub : ℕ) (m : ℕ) : List Byte := t.buffersFrom i (sub + 2 * m)

/-- The decoder gives back a packet: its length, and its bytes wherever the copies of the
other packets it was given agree with what the encoder had. -/
def Recovers (t : Distribution) (i sub k : ℕ) (copy : ℕ → MediaPacket)
    (result : Option (List Byte)) : Prop :=
  ∃ out, result = some out ∧ out.length = (t.members i sub k).length ∧
    ∀ o : ℕ, (∀ m<15, m≠k → (copy m).buffer[o]? = (t.members i sub m)[o]?) →
      out[o]? = (t.members i sub k)[o]?

/-- The lengths of a substream fit the 32-bit arithmetic of the decoder. -/
def LengthsFit (t : Distribution) (i sub k : ℕ) : Prop :=
  (t.members i sub k).length < 2^31 ∧ ((t.members i sub k).length : ℤ) ≤
    (BitVec.ofNat 32 (longest ((List.range 15).map (t.members i sub)) + 4)).toInt

theorem Inv.number {t : Distribution} (h : t.Inv md5 casString seed) {i m : ℕ} (hi : i+m<t.sent.length) :
    (t.packet (i+m)).seqno = (t.packet i).seqno + BitVec.ofNat 32 m := by
  rw [h.numbers _ hi,h.numbers i (by omega),Nat.add_right_comm,ofNat_add (i+1),
    add_assoc]

theorem getElem?_eq_of_getD {a b : List Byte} {o : ℕ} (hlen : a.length=b.length)
    (h : o<b.length → a.getD o 0 = b.getD o 0) : a[o]? = b[o]? := by
  rcases Nat.lt_or_ge o b.length with ho | ho
  · have := h ho
    rw [getD_eq_getElem _ _ (hlen ▸ ho),getD_eq_getElem _ _ ho] at this
    rw [List.getElem?_eq_getElem (hlen ▸ ho),List.getElem?_eq_getElem ho,this]
  · rw [List.getElem?_eq_none (hlen ▸ ho),List.getElem?_eq_none ho]

theorem recovers_take {t : Distribution} {i sub k : ℕ} {copy : ℕ → MediaPacket} (hk : k<15) :
    t.Recovers i sub k copy (some ((parity (parityPayload ((List.range 15).map (t.members i sub)))
      ((mates k).map fun m => (copy m).buffer)).take (t.members i sub k).length)) := by
  have hmates : ∀ m ∈ mates k, m<15 ∧ m≠k := fun m hm => mem_mates hk hm
  have hsplit := range_eq_mates k hk
  have hle : (t.members i sub k).length ≤ longest ((List.range 15).map (t.members i sub)) :=
    length_le_longest (mem_map_of_mem (mem_range.mpr hk))
  have hlen : ((parity (parityPayload ((List.range 15).map (t.members i sub)))
      ((mates k).map fun m => (copy m).buffer)).take (t.members i sub k).length).length =
        (t.members i sub k).length := by
    rw [length_take,length_parity,length_parityPayload,length_parity,length_nil,
      Nat.zero_max]
    omega
  refine ⟨_,rfl,hlen,fun o hagree => getElem?_eq_of_getD hlen fun ho => ?_⟩
  have hbytes : ((mates k).map fun m => (copy m).buffer).map (fun q => q.getD o 0) =
      ((List.range k).map (t.members i sub) ++
        (List.range' (k+1) (14 - k)).map (t.members i sub)).map (fun a => a.getD o 0) := by
    rw [← map_append,map_map,map_map]
    refine map_congr_left fun m hm => ?_
    have heq := hagree m (hmates m hm).1 (hmates m hm).2
    simp only [Function.comp_apply,getD_eq_getElem?_getD,heq]
  have hsum := getD_parity_of_agree (s := t.members i sub k) ho hbytes
  rw [← map_cons,← map_append,← hsplit] at hsum
  rw [← hsum,getD_eq_getElem?_getD,getD_eq_getElem?_getD,List.getElem?_take_of_lt ho]

/-- In every run of the distributor, for every complete block that starts at a multiple of
thirty-two and every lost media packet of it: given the parity packet and copies of the other
packets of its substream, the decoder gives the lost packet back exactly when the packet
buffer has the parity packet as well and the lengths fit 32-bit arithmetic. -/
theorem lost_packet_recovered_iff (sessionId : BitVec 8) (jobs : List DistributeJob) (t : Distribution)
    (ht : t = jobs.foldl (Distribution.step md5 casString channelUuid) (start seed sessionId))
    (i : ℕ) (hi : i+32≤t.sent.length) (hblock : (t.packet i).seqno.toNat % 32 = 0)
    (sub k : ℕ) (hsub : sub<2) (hk : k<15) (b : PacketBuffer n) (now : BitVec 32)
    (fecPkts : BitVec 32 → Option MediaPacket) (fecPkt : MediaPacket)
    (hfec : fecPkts (t.packet (i + (30+sub))).seqno = some fecPkt)
    (hsame : fecPkt.seqno = (t.packet (i + (30+sub))).seqno ∧
      fecPkt.timeStamp = (t.packet (i + (30+sub))).timeStamp ∧
      fecPkt.payload = (t.packet (i + (30+sub))).payload) (copy : ℕ → MediaPacket)
    (hcopy : ∀ m<15, m≠k → b.get (t.packet (i + (sub + 2 * m))).seqno now = some (copy m) ∧
      (copy m).buffer.length = (t.members i sub m).length) : t.Recovers i sub k copy
        (decode md5 (t.packet (i + (sub + 2 * k))).seqno b fecPkts casString now) ↔
      b.has (t.packet (i + (30+sub))).seqno now ≠ .notHas ∧ t.LengthsFit i sub k := by
  have hinv : t.Inv md5 casString seed := ht ▸ coded_of_run sessionId jobs
  have hnum : ∀ m<16, (t.packet (i + (sub + 2 * m))).seqno =
      numberAt (t.packet i).seqno sub m := fun m hm => hinv.number (by omega)
  have hlast : (t.packet (i + (30+sub))).seqno = numberAt (t.packet i).seqno sub 15 := by
    rw [← hnum 15 (by decide),Nat.add_comm 30 sub]
  have hpay : (casMediapacket md5 fecPkt casString).payload =
      parityPayload ((List.range 15).map (t.members i sub)) := by
    have hcoded := hinv.coded i hi hblock sub hsub
    have hcount : (30 + 1 - sub) / 2 = 15 := by omega
    rw [substreamBefore,hcount] at hcoded
    rw [← show _ = parityPayload ((List.range 15).map (t.members i sub)) from hcoded]
    rw [casMediapacket,casMediapacket,casBytes,casBytes,hsame.1,hsame.2.1,hsame.2.2]
  rw [hlast] at hfec ⊢
  rw [hnum k (by omega),decode_eq hblock hsub hk hfec hpay (fun m hm hne => by
    rw [← hnum m (by omega)]
    exact hcopy m hm hne)]
  by_cases hhas : b.has (numberAt (t.packet i).seqno sub 15) now ≠ .notHas
  swap
  · rw [if_neg hhas]
    refine iff_of_false ?_ (fun h => hhas h.1)
    rintro ⟨out,hout,-⟩
    cases hout
  rw [if_pos hhas,and_iff_right hhas]
  have hpos : 0 < (t.members i sub k).length := by
    rw [members,buffersFrom,length_buffer,formatSize]
    omega
  have hint : (t.members i sub k).length < 2^31 →
      (BitVec.ofNat 32 (t.members i sub k).length).toInt = (t.members i sub k).length := by
    intro hlt
    have hnat : (BitVec.ofNat 32 (t.members i sub k).length).toNat = (t.members i sub k).length := by
      rw [toNat_ofNat,Nat.mod_eq_of_lt (by omega)]
    rw [toInt_eq_toNat_of_lt (by omega),hnat]
  constructor
  · rintro ⟨out,hout,hlen,-⟩
    rw [Option.some.injEq] at hout
    split at hout
    · rw [← hout,length_nil] at hlen
      omega
    · have hbound := two_mul_toInt_lt (x := BitVec.ofNat 32 (t.members i sub k).length)
      rw [← hout,length_take] at hlen
      have hlt : (t.members i sub k).length < 2^31 := by omega
      exact ⟨hlt,by omega⟩
  · rintro ⟨hlt,hfit⟩
    rw [hint hlt,if_neg (by omega),Int.toNat_natCast]
    exact recovers_take hk

/-- The first block of a channel, with payloads of different lengths. -/
def firstBlock : Distribution :=
  ((List.range 30).map fun k => (⟨{ blank with payload := List.replicate (k % 3) 7 },
    ⟨0,0,false,true⟩,⟨0,0,false,true⟩,⟨0,0,false,true⟩⟩ : DistributeJob)).foldl
      (step (fun _ _ => 0) [] []) (start (-1) 0)

def bufferWith (ks : List ℕ) : PacketBuffer 11 :=
  ks.foldl (fun b k => (b.insert (firstBlock.packet k) 0 none).1) (.create 11 0 true)

def firstParity (s : BitVec 32) : Option MediaPacket :=
  if s=30 then some (firstBlock.packet 30) else none

/-- Packet 0 is lost; its parity packet and the fourteen other packets of its substream are
there, but the parity packet is not in the packet buffer: nothing is recovered. -/
theorem parity_outside_buffer_useless : (∀ m<15, m≠0 → (bufferWith ((List.range 14).map (2 * · + 2))).get
      (firstBlock.packet (2*m)).seqno 0 = some (firstBlock.packet (2*m))) ∧
    (∃ fecPkt, firstParity (firstBlock.packet 30).seqno = some fecPkt) ∧
    decode (fun _ _ => 0) (firstBlock.packet 0).seqno (bufferWith ((List.range 14).map (2 * · + 2)))
      firstParity [] 0 = none := by
  refine ⟨by decide +kernel,⟨firstBlock.packet 30,by decide +kernel⟩,by decide +kernel⟩

theorem first_packet_recovered : firstBlock.Recovers 0 0 0 (fun m => firstBlock.packet (2*m))
      (decode (fun _ _ => 0) (firstBlock.packet 0).seqno
        (bufferWith ((List.range 15).map (2 * · + 2))) firstParity [] 0) := by
  refine (lost_packet_recovered_iff 0 _ firstBlock rfl 0 (by decide +kernel) (by decide +kernel) 0 0
    (by decide) (by decide) (bufferWith ((List.range 15).map (2 * · + 2))) 0 firstParity
    (firstBlock.packet 30) (by decide +kernel) ⟨rfl,rfl,rfl⟩ (fun m => firstBlock.packet (2*m))
    (by decide +kernel)).mpr ⟨by decide +kernel,by decide +kernel,by decide +kernel⟩

end
end Distribution
end P2Streaming
