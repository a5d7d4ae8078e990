import P2Streaming.MediaDistributor

/-!
# Recovery of a lost media packet

The encoder's parity packet is the sum of the fifteen packets of a substream, followed by
the sum of their lengths. The decoder adds the other fourteen packets and cuts the result
to the length that is left.
-/
namespace P2Streaming
open BigEndianBytes XorParity SecurityPolicy Function List

/-- The sum of the lengths of strings, as `len_header_` keeps it. -/
def lengthSum (l : List (List Byte)) : BitVec 32 := total (l.map fun a => BitVec.ofNat 32 a.length)

namespace PacketFec

/-- A `packet_fec` that has taken these packets since its last reset. -/
def loaded (m : ℕ) (decoder : Bool) (l : List (List Byte)) : PacketFec :=
  ⟨m,l.length,lengthSum l,parity [] l,decoder⟩

/-- The payload an encoder produces from the packets of a substream. -/
def parityPayload (l : List (List Byte)) : List Byte :=
  parity [] l ++ beBytes 4 (lengthSum l ^^^ BitVec.ofNat 32 ((parity [] l).length + 4)).toNat

theorem lengthSum_concat (l : List (List Byte)) (a : List Byte) :
    lengthSum (l ++ [a]) = lengthSum l ^^^ BitVec.ofNat 32 a.length := by
  simp [lengthSum,total_append]

theorem push_loaded {m : ℕ} (decoder : Bool) {l : List (List Byte)} (a : List Byte) (h : l.length+1≠m) :
    (loaded m decoder l).push a = (loaded m decoder (l ++ [a]), none) := by
  dsimp only [push,loaded]
  rw [if_neg h]
  simp [addTo_eq_xorPad,parity_concat,lengthSum_concat]

theorem push_loaded_last {m : ℕ} (decoder : Bool) {l : List (List Byte)} (a : List Byte)
    (h : l.length+1=m) : (loaded m decoder l).push a = (loaded m decoder [], some (
      if decoder then cutResult (parity [] (l ++ [a])) (lengthSum (l ++ [a]))
      else parityPayload (l ++ [a]))) := by
  dsimp only [push,loaded]
  rw [if_pos h]
  rw [addTo_eq_xorPad,← parity_concat,← lengthSum_concat]
  rfl

theorem reset_eq_loaded (f : PacketFec) : f.reset = loaded f.m f.decoder [] := rfl

end PacketFec

namespace FecDecoder
open PacketFec

variable {n : ℕ}

theorem decodeLoop_eq (b : PacketBuffer n) (now : BitVec 32) {m : ℕ} (rest : List (BitVec 32))
    (qs : List MediaPacket) (seqs : List (BitVec 32)) (l : List (List Byte))
    (hget : seqs.map (b.get · now) = qs.map some) (hne : qs≠[]) (hm : l.length+qs.length=m) :
    decodeLoop b now (seqs++rest) (loaded m true l) =
      some (cutResult (parity [] (l ++ qs.map MediaPacket.buffer))
        (lengthSum (l ++ qs.map MediaPacket.buffer))) := by
  induction qs generalizing seqs l with
  | nil => exact absurd rfl hne
  | cons q qs ih =>
    cases seqs with
    | nil => simp at hget
    | cons s seqs =>
      simp only [map_cons,List.cons.injEq] at hget
      obtain ⟨hq,hqs⟩ := hget
      rw [cons_append,decodeLoop,hq]
      dsimp only
      cases qs with
      | nil =>
        rw [push_loaded_last true q.buffer (by simpa using hm)]
        simp
      | cons q' qs =>
        rw [push_loaded true q.buffer (by simp only [length_cons] at hm; omega)]
        have hrest := ih seqs (l ++ [q.buffer]) hqs (by simp)
          (by simp only [length_append,length_cons,length_nil] at hm ⊢; omega)
        simpa using hrest

end FecDecoder

theorem drop_xorPad {w : ℕ} {a b : List (BitVec w)} {k : ℕ} (h : b.length≤k) :
    (xorPad a b).drop k = a.drop k := by
  induction a, b using xorPad.induct generalizing k with
  | case1 b => rw [xorPad,drop_of_length_le h,drop_nil]
  | case2 x a => rw [xorPad]
  | case3 x a y b ih =>
    cases k with
    | zero => simp at h
    | succ k => simpa [xorPad] using ih (by simpa using h)

theorem drop_parity {w : ℕ} {start : List (BitVec w)} {l : List (List (BitVec w))} {k : ℕ}
    (h : ∀ a∈l, a.length≤k) : (parity start l).drop k = start.drop k := by
  induction l generalizing start with
  | nil => rfl
  | cons a l ih =>
    rw [parity_cons,ih (fun b hb => h b (mem_cons_of_mem a hb)),
      drop_xorPad (h a mem_cons_self)]

namespace PacketFec

theorem length_parityPayload (l : List (List Byte)) :
    (parityPayload l).length = (parity [] l).length + 4 := by
  simp [parityPayload]

theorem lengthSum_middle (pre : List (List Byte)) (s : List Byte) (post : List (List Byte)) :
    lengthSum (pre ++ s :: post) = BitVec.ofNat 32 s.length ^^^ lengthSum (pre++post) := by
  simp only [lengthSum,map_append,map_cons,total_middle]

theorem lengthSum_congr {l l' : List (List Byte)} (h : l.map List.length = l'.map List.length) :
    lengthSum l = lengthSum l' := by
  have hmap : ∀ k : List (List Byte), lengthSum k =
      total ((k.map List.length).map (BitVec.ofNat 32)) := by
    intro k
    rw [lengthSum,map_map]
    rfl
  rw [hmap,hmap,h]

section
variable {pre post qs : List (List Byte)} {s : List Byte}

theorem copy_length_le (hlen : qs.map List.length = (pre++post).map List.length) :
    ∀ q∈qs, q.length ≤ (parity [] (pre ++ s :: post)).length := by
  intro q hq
  have hmem : q.length ∈ (pre++post).map List.length := hlen ▸ mem_map_of_mem hq
  obtain ⟨a,ha,hal⟩ := mem_map.mp hmem
  rw [← hal]
  refine length_le_parity ?_
  rcases mem_append.mp ha with ha | ha
  · exact mem_append_left _ ha
  · exact mem_append_right _ (mem_cons_of_mem s ha)

theorem cutResult_eq (hlen : qs.map List.length = (pre++post).map List.length) :
    cutResult (parity [] (parityPayload (pre ++ s :: post) :: qs))
      (lengthSum (parityPayload (pre ++ s :: post) :: qs)) = if (BitVec.ofNat 32 s.length).toInt < 0 ∨
      (BitVec.ofNat 32 ((parity [] (pre ++ s :: post)).length + 4)).toInt <
        (BitVec.ofNat 32 s.length).toInt then []
    else (parity (parityPayload (pre ++ s :: post)) qs).take
      (BitVec.ofNat 32 s.length).toInt.toNat := by
  have hle := copy_length_le (s := s) hlen
  have hP := length_parityPayload (pre ++ s :: post)
  have hsum : parity [] (parityPayload (pre ++ s :: post) :: qs) =
      parity (parityPayload (pre ++ s :: post)) qs := rfl
  have hlength : (parity (parityPayload (pre ++ s :: post)) qs).length =
      (parity [] (pre ++ s :: post)).length + 4 := by
    rw [length_parity_of_le (fun q hq => (hle q hq).trans (by omega)),hP]
  have hdrop : (parity (parityPayload (pre ++ s :: post)) qs).drop
      ((parity [] (pre ++ s :: post)).length + 4 - 4) =
      beBytes 4 (lengthSum (pre ++ s :: post) ^^^
        BitVec.ofNat 32 ((parity [] (pre ++ s :: post)).length + 4)).toNat := by
    rw [Nat.add_sub_cancel,drop_parity hle,parityPayload,drop_left]
  have hheader : lengthSum (parityPayload (pre ++ s :: post) :: qs) =
      BitVec.ofNat 32 ((parity [] (pre ++ s :: post)).length + 4) ^^^ lengthSum (pre++post) := by
    rw [← hP,← lengthSum_congr hlen]
    rfl
  have hresult : lengthSum (pre ++ s :: post) ^^^
      BitVec.ofNat 32 ((parity [] (pre ++ s :: post)).length + 4) ^^^
      (BitVec.ofNat 32 ((parity [] (pre ++ s :: post)).length + 4) ^^^ lengthSum (pre++post)) =
      BitVec.ofNat 32 s.length := by
    rw [BitVec.xor_assoc,xor_self_left,lengthSum_middle,BitVec.xor_assoc,BitVec.xor_self,
      BitVec.xor_zero]
  rw [hsum,cutResult,hlength,if_neg (by omega),hdrop,hheader,
    beValue_beBytes (BitVec.isLt _),BitVec.ofNat_toNat,BitVec.setWidth_eq,hresult]

theorem getD_parity_of_agree {o : ℕ} (ho : o<s.length)
    (hagree : qs.map (fun q => q.getD o 0) = (pre++post).map (fun a => a.getD o 0)) :
    (parity (parityPayload (pre ++ s :: post)) qs).getD o 0 = s.getD o 0 := by
  have hle : s.length ≤ (parity [] (pre ++ s :: post)).length :=
    length_le_parity (mem_append_right _ mem_cons_self)
  have hP : (parityPayload (pre ++ s :: post)).getD o 0 =
      s.getD o 0 ^^^ total ((pre++post).map fun a => a.getD o 0) := by
    rw [parityPayload,getD_append _ _ _ _ (by omega),getD_parity]
    simp only [map_append,map_cons,total_middle,getD_nil]
    exact BitVec.zero_xor
  rw [getD_parity,hP,hagree,BitVec.xor_assoc,BitVec.xor_self,BitVec.xor_zero]

end
end PacketFec
namespace FecEncoder
open PacketFec

variable (block : ℕ → List Byte)

/-- The packets of substream `j` among the first `k` of a block. -/
def substreamBefore (j k : ℕ) : List (List Byte) :=
  (List.range ((k + 1 - j) / 2)).map fun i => block (j + 2 * i)

theorem length_substreamBefore (j k : ℕ) :
    (substreamBefore block j k).length = (k + 1 - j) / 2 := by
  simp [substreamBefore]

theorem substreamBefore_succ_self (k : ℕ) :
    substreamBefore block (k % 2) (k+1) = substreamBefore block (k % 2) k ++ [block k] := by
  have hcount : (k + 1 + 1 - k % 2) / 2 = (k + 1 - k % 2) / 2 + 1 := by omega
  have hlast : k % 2 + 2 * ((k + 1 - k % 2) / 2) = k := by omega
  rw [substreamBefore,hcount,range_succ,map_append,map_singleton,hlast]
  rfl

theorem substreamBefore_succ_other {j k : ℕ} (hj : j<2) (h : j ≠ k % 2) :
    substreamBefore block j (k+1) = substreamBefore block j k := by
  have hcount : (k + 1 + 1 - j) / 2 = (k + 1 - j) / 2 := by omega
  rw [substreamBefore,hcount]
  rfl

theorem substreamBefore_congr {block block' : ℕ → List Byte} {j k : ℕ}
    (h : ∀ i<k, block i = block' i) : substreamBefore block j k = substreamBefore block' j k := by
  refine map_congr_left fun i hi => h _ ?_
  rw [mem_range] at hi
  omega

structure Waiting (e : FecEncoder) : Prop where
  notFound : e.foundFirstFecSeqno=false
  empty : ∀ j, e.fec j = loaded fecM false []
  packets : e.fecPackets=[]

/-- An encoder that has taken the first `k` media packets of a block. A substream that is
complete has been reset. -/
structure InBlock (e : FecEncoder) (block : ℕ → List Byte) (k : ℕ) : Prop where
  bound : k<30
  found : 0<k → e.foundFirstFecSeqno=true
  shape : ∀ j, (e.fec j).m = fecM ∧ (e.fec j).decoder = false
  loaded : ∀ j : Fin 2, j.val<k → (k + 1 - j.val) / 2 < 15 →
    e.fec j = PacketFec.loaded fecM false (substreamBefore block j.val k)
  packets : e.fecPackets =
    if k=29 then [parityPacket (parityPayload (substreamBefore block 0 29))] else []

variable {k : ℕ} {pkt : MediaPacket}

theorem push_eq (e : FecEncoder) (hk : pkt.seqno.toNat % 32 = k) :
    e.push pkt = if (e.restart k).foundFirstFecSeqno = true then
      (e.restart k).encode (Fin.ofNat 2 k) pkt else (e.restart k, none) := by
  subst hk
  rw [push]
  cases h : (e.restart (pkt.seqno.toNat % 32)).foundFirstFecSeqno <;> simp [fecN,fecM,h]

variable {e : FecEncoder}

theorem Waiting.restart (h : e.Waiting) (hk : k≠0) : (e.restart k).Waiting := by
  unfold FecEncoder.restart
  split
  · refine ⟨?_,fun j => ?_,h.packets⟩
    · exact h.notFound
    · dsimp only
      by_cases hj : j = Fin.ofNat 2 k
      · rw [hj,update_self,h.empty]
        rfl
      · rw [update_of_ne hj,h.empty]
  · exact h

theorem Waiting.push_other (h : e.Waiting) (pkt : MediaPacket)
    (hpos : pkt.seqno.toNat % 32 ≠ 0) : (e.push pkt).1.Waiting ∧ (e.push pkt).2 = none := by
  have hrestart := h.restart hpos
  rw [e.push_eq rfl,if_neg (by rw [hrestart.notFound]; decide)]
  exact ⟨hrestart,rfl⟩

theorem Waiting.inBlock (h : e.Waiting) (block : ℕ → List Byte) : e.InBlock block 0 := by
  refine ⟨by decide,fun h0 => absurd h0 (by decide),fun j => ?_,fun j hj => absurd hj (by omega),?_⟩
  · rw [h.empty j]
    exact ⟨rfl,rfl⟩
  · rw [h.packets]
    rfl

theorem InBlock.congr {block block' : ℕ → List Byte}
    (h : e.InBlock block k) (heq : ∀ i<k, block i = block' i) : e.InBlock block' k := by
  refine ⟨h.bound,h.found,h.shape,fun j hj hc => ?_,?_⟩
  · rw [h.loaded j hj hc,substreamBefore_congr heq]
  · rw [h.packets]
    split
    · rename_i hk
      subst hk
      rw [substreamBefore_congr heq]
    · rfl

variable {block}

theorem InBlock.restarted (h : e.InBlock block k) :
    (e.restart k).foundFirstFecSeqno = true ∧ (e.restart k).fecPackets = e.fecPackets ∧
      (e.restart k).fec (Fin.ofNat 2 k) =
        PacketFec.loaded fecM false (substreamBefore block (k % 2) k) ∧
      ∀ j, j ≠ Fin.ofNat 2 k → (e.restart k).fec j = e.fec j := by
  have hk := h.bound
  unfold restart
  split
  · rename_i hlow
    have hlow' : k<2 := hlow
    refine ⟨?_,rfl,?_,fun j hj => update_of_ne hj _ _⟩
    · split
      · rfl
      · exact h.found (by omega)
    · have hnil : substreamBefore block (k % 2) k = [] := by
        rw [substreamBefore,show (k + 1 - k % 2) / 2 = 0 by omega]
        rfl
      dsimp only
      rw [update_self,hnil,reset_eq_loaded,(h.shape _).1,(h.shape _).2]
  · rename_i hhigh
    have hhigh' : ¬ k < 2 := hhigh
    have hval : (Fin.ofNat 2 k).val = k % 2 := rfl
    refine ⟨h.found (by omega),rfl,?_,fun _ _ => rfl⟩
    have := h.loaded (Fin.ofNat 2 k) (by omega) (by omega)
    rwa [hval] at this

variable {f : PacketFec}

theorem encode_incomplete {j : Fin 2}
    {result : Option (List Byte)} (h : (e.fec j).push pkt.buffer = (f, result))
    (hlen : e.fecPackets.length+result.toList.length≠2) :
    e.encode j pkt = ({ e with
      fec := update e.fec j f
      fecPackets := e.fecPackets ++ (result.map parityPacket).toList }, none) := by
  rw [encode,h]
  cases result <;> simpa [fecN] using hlen

theorem encode_full {j : Fin 2} {result : Option (List Byte)}
    (h : (e.fec j).push pkt.buffer = (f, result))
    (hlen : e.fecPackets.length+result.toList.length=2) :
    e.encode j pkt = ({ e with fec := update e.fec j f, fecPackets := [] },
      some (e.fecPackets ++ (result.map parityPacket).toList)) := by
  rw [encode,h]
  cases result <;> simpa [fecN] using hlen

theorem loaded_succ {e r : FecEncoder}
    (h : e.InBlock block k) (hother : ∀ j, j ≠ Fin.ofNat 2 k → r.fec j = e.fec j)
    (hf : (k + 2 - k % 2) / 2 < 15 →
      f = PacketFec.loaded fecM false (substreamBefore block (k % 2) (k+1)))
    (j : Fin 2) (hj : j.val<k+1) (hcount : (k + 1 + 1 - j.val) / 2 < 15) :
    update r.fec (Fin.ofNat 2 k) f j = PacketFec.loaded fecM false
    (substreamBefore block j.val (k+1)) := by
  have hval : (Fin.ofNat 2 k).val = k % 2 := rfl
  by_cases hjk : j = Fin.ofNat 2 k
  · subst hjk
    rw [update_self,hval,hf hcount]
  · have hne : j.val ≠ k % 2 := fun he => hjk (Fin.ext he)
    have hj2 := j.isLt
    rw [update_of_ne hjk,hother j hjk,substreamBefore_succ_other block hj2 hne]
    exact h.loaded j (by omega) (by omega)

theorem shape_update {e r : FecEncoder}
    (h : e.InBlock block k) (hother : ∀ j, j ≠ Fin.ofNat 2 k → r.fec j = e.fec j)
    (hf : f.m=fecM ∧ f.decoder=false) (j : Fin 2) : (update r.fec (Fin.ofNat 2 k) f j).m = fecM ∧
      (update r.fec (Fin.ofNat 2 k) f j).decoder = false := by
  by_cases hjk : j = Fin.ofNat 2 k
  · rw [hjk,update_self]
    exact hf
  · rw [update_of_ne hjk,hother j hjk]
    exact h.shape j

theorem InBlock.push_middle (h : e.InBlock block k)
    (pkt : MediaPacket) (hpos : pkt.seqno.toNat % 32 = k) (hbuf : pkt.buffer = block k)
    (hk : k<29) : (e.push pkt).1.InBlock block (k+1) ∧ (e.push pkt).2 = none := by
  obtain ⟨hfound,hpackets,hself,hother⟩ := h.restarted
  rw [e.push_eq hpos,if_pos hfound]
  generalize e.restart k = r at hfound hpackets hself hother
  have hlen : (substreamBefore block (k % 2) k).length = (k + 1 - k % 2) / 2 :=
    length_substreamBefore block _ k
  rw [h.packets,if_neg (by omega)] at hpackets
  by_cases hlast : k=28
  · -- the even substream is complete and leaves its parity packet
    subst hlast
    have hpush : (r.fec (Fin.ofNat 2 28)).push pkt.buffer =
        (PacketFec.loaded fecM false [], some (parityPayload (substreamBefore block 0 29))) := by
      rw [hself,hbuf,push_loaded_last false (block 28) (by rw [hlen]; rfl),
        ← substreamBefore_succ_self]
      rfl
    rw [encode_incomplete hpush (by rw [hpackets]; simp)]
    refine ⟨⟨by decide,fun _ => hfound,shape_update h hother ⟨rfl,rfl⟩,
      loaded_succ h hother (fun hc => absurd hc (by decide)),?_⟩,rfl⟩
    rw [hpackets]
    rfl
  · have hpush : (r.fec (Fin.ofNat 2 k)).push pkt.buffer =
        (PacketFec.loaded fecM false (substreamBefore block (k % 2) (k+1)), none) := by
      rw [hself,hbuf,push_loaded false (block k) (by rw [hlen,fecM]; omega),
        ← substreamBefore_succ_self]
    rw [encode_incomplete hpush (by rw [hpackets]; simp)]
    refine ⟨⟨by omega,fun _ => hfound,shape_update h hother ⟨rfl,rfl⟩,
      loaded_succ h hother (fun _ => rfl),?_⟩,rfl⟩
    rw [hpackets,if_neg (by omega)]
    rfl

theorem InBlock.push_last (h : e.InBlock block 29)
    (pkt : MediaPacket) (hpos : pkt.seqno.toNat % 32 = 29) (hbuf : pkt.buffer = block 29)
    (next : ℕ → List Byte) : (e.push pkt).1.InBlock next 0 ∧ (e.push pkt).1.foundFirstFecSeqno = true ∧
      (e.push pkt).2 = some [parityPacket (parityPayload (substreamBefore block 0 30)),
        parityPacket (parityPayload (substreamBefore block 1 30))] := by
  obtain ⟨hfound,hpackets,hself,hother⟩ := h.restarted
  rw [e.push_eq hpos,if_pos hfound]
  generalize e.restart 29 = r at hfound hpackets hself hother
  have hlen : (substreamBefore block (29 % 2) 29).length = 14 := length_substreamBefore block _ 29
  rw [h.packets,if_pos rfl] at hpackets
  have hpush : (r.fec (Fin.ofNat 2 29)).push pkt.buffer =
      (PacketFec.loaded fecM false [], some (parityPayload (substreamBefore block 1 30))) := by
    rw [hself,hbuf,push_loaded_last false (block 29) (by rw [hlen]; rfl),
      ← substreamBefore_succ_self]
    rfl
  rw [encode_full hpush (by rw [hpackets]; simp)]
  refine ⟨⟨by decide,fun _ => hfound,shape_update h hother ⟨rfl,rfl⟩,
    fun j hj => absurd hj (by omega),rfl⟩,hfound,?_⟩
  have heven := substreamBefore_succ_other block (j := 0) (k := 29) (by decide) (by decide)
  rw [hpackets,← heven]
  rfl

end FecEncoder
end P2Streaming
