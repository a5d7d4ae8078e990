import P2Streaming.UrdpSenderHistory
import Mathlib.Data.List.Chain

/-!
# Putting the peer's pieces together again

`m_rlist` holds what has not been read yet: first the bytes up to `m_rcv_nxt`, cut into
segments of which the first may be partly read, then pieces that have come early. The
set is ordered by `mod_less`. As long as the sequence numbers of the peer do not wrap and
no segment lies half the ring away from the first one of the set, that is the order of the
numbers themselves.
-/
namespace P2Streaming.Urdp
open BigEndianBytes SerialNumbers WrappableInteger ContiguousSegments RSegment List

def RSegment.size (seg : RSegment) : ℕ := seg.buf.length

/-- How many bytes the first `i` pieces hold. -/
def offset (pieces : List Piece) (i : ℕ) : ℕ := total Piece.size (pieces.take i)

section Places

variable {isn : BitVec 32} {pieces : List Piece} {i j : ℕ} {p : Piece}

theorem offset_succ (h : pieces[i]? = some p) : offset pieces (i+1) = offset pieces i + p.size := by
  rw [offset,take_add_one,h,total_append]
  simp [offset]

theorem offset_mono (h : i≤j) : offset pieces i ≤ offset pieces j :=
  total_le_of_prefix (take_prefix_take_left h)

theorem offset_add_le (h : pieces[i]? = some p) (hij : i<j) :
    offset pieces i + p.size ≤ offset pieces j := offset_succ h ▸ offset_mono hij

def Unwrapped (isn : BitVec 32) (pieces : List Piece) : Prop :=
  isn.toNat + total Piece.size pieces < 2^32

theorem Unwrapped.toNat_startOf (h : Unwrapped isn pieces) (i : ℕ) :
    (startOf isn pieces i).toNat = isn.toNat + offset pieces i :=
  toNat_place isn ((Nat.add_le_add_left (total_take_le pieces i) _).trans_lt h)

theorem startOf_succ (isn : BitVec 32) (h : pieces[i]? = some p) :
    startOf isn pieces (i+1) = startOf isn pieces i + BitVec.ofNat 32 p.size := by
  rw [startOf,startOf,← offset,← offset,offset_succ h,place_add]

end Places

section Order

variable {a b : BitVec 32}

theorem modLess_of_lt (h : a.toNat<b.toNat) (hn : b.toNat < a.toNat + 2^31) : modLess a b = true := by
  rw [modLess_iff,BitVec.toNat_sub]
  omega

theorem modLess_of_ge (h : b.toNat≤a.toNat) (hn : a.toNat ≤ b.toNat + 2^31) : modLess a b = false := by
  rw [← Bool.not_eq_true,modLess_iff,BitVec.toNat_sub]
  omega

theorem modLessEqual_of_le (h : a.toNat≤b.toNat) (hn : b.toNat ≤ a.toNat + 2^31) :
    modLessEqual a b = true := by
  have hless : wrappableLess b a = false := modLess_of_ge h hn
  rw [modLessEqual,wrappableLessEqual,hless]
  rfl

theorem modLessEqual_of_gt (h : b.toNat<a.toNat) (hn : a.toNat < b.toNat + 2^31) :
    modLessEqual a b = false := by
  have hless : wrappableLess b a = true := modLess_of_lt h hn
  rw [modLessEqual,wrappableLessEqual,hless]
  rfl

def Near (a b : BitVec 32) : Prop := a.toNat < b.toNat + 2^31 ∧ b.toNat < a.toNat + 2^31

instance (a b : BitVec 32) : Decidable (Near a b) := inferInstanceAs (Decidable (_ ∧ _))

/-- A segment ends before another begins, and the two are less than half the ring apart. -/
def RSegment.Before (s t : RSegment) : Prop :=
  s.seq.toNat + s.size ≤ t.seq.toNat ∧ t.seq.toNat < s.seq.toNat + 2^31

def Spaced (l : List RSegment) : Prop := l.IsChain RSegment.Before

def Filled (l : List RSegment) : Prop := ∀ s∈l, 0<s.size

variable {s t : RSegment} {l l' : List RSegment}

theorem Spaced.ends_le (h : Spaced (s::l)) (hf : Filled (s::l)) :
    ∀ t∈l, s.seq.toNat + s.size ≤ t.seq.toNat := by
  induction l generalizing s with
  | nil => exact fun t ht => absurd ht not_mem_nil
  | cons u l ih =>
    intro t ht
    have hsu := (isChain_cons_cons.mp h).1.1
    have hfu : Filled (u::l) := fun x hx => hf x (mem_cons_of_mem _ hx)
    rcases mem_cons.mp ht with rfl | ht
    · exact hsu
    · have hut := ih (isChain_cons_cons.mp h).2 hfu t ht
      omega

theorem Spaced.head_le (h : Spaced l) (hf : Filled l) (hs : s ∈ l.head?) :
    ∀ t∈l, s.seq.toNat≤t.seq.toNat := by
  cases l with
  | nil => exact fun t ht => absurd ht not_mem_nil
  | cons u l =>
    obtain rfl : u=s := Option.mem_some_iff.mp hs
    intro t ht
    rcases mem_cons.mp ht with rfl | ht
    · exact le_rfl
    · exact (Nat.le_add_right _ _).trans (h.ends_le hf t ht)

end Order

/-! ### `m_rlist.insert` -/

section Insert

variable {rseg s : RSegment} {l : List RSegment}

def Apart (rseg : RSegment) (l : List RSegment) : Prop := ∀ s∈l, s.seq=rseg.seq ∨
  s.seq.toNat + s.size ≤ rseg.seq.toNat ∨ rseg.seq.toNat+rseg.size ≤ s.seq.toNat

theorem head?_insertRSegment (rseg : RSegment) (l : List RSegment) {t : RSegment}
    (h : t ∈ (insertRSegment rseg l).1.head?) : t=rseg ∨ t ∈ l.head? := by
  cases l with
  | nil => exact .inl (Option.mem_some_iff.mp h).symm
  | cons s l =>
    rw [insertRSegment] at h
    split_ifs at h
    · exact .inr h
    · exact .inl (Option.mem_some_iff.mp h).symm
    · exact .inr h

/-- The segment comes behind those that end before it and before the others. -/
theorem insertRSegment_spec (hl : Spaced l) (hf : Filled l) (hpos : 0 < rseg.size) (hapart : Apart rseg l)
    (hnear : ∀ s ∈ l.head?, Near rseg.seq s.seq) :
    Spaced (insertRSegment rseg l).1 ∧ ∃ l₁ l₂, l = l₁ ++ l₂ ∧ (∀ s∈l₁, s.seq.toNat < rseg.seq.toNat) ∧
      ((insertRSegment rseg l).1 = l₁ ++ rseg :: l₂ ∧ (∀ s∈l₂, rseg.seq.toNat<s.seq.toNat) ∨
        (insertRSegment rseg l).1 = l ∧ ∃ s t, l₂ = s :: t ∧ s.seq=rseg.seq) := by
  induction l with
  | nil =>
    refine ⟨isChain_singleton _,[],[],rfl,?_,.inl ⟨rfl,?_⟩⟩
    all_goals exact fun s hs => absurd hs not_mem_nil
  | cons s l ih =>
    have hnear_s := hnear s rfl
    have hs := hf s mem_cons_self
    rw [insertRSegment]
    rcases hapart s mem_cons_self with heq | hlt | hgt
    · have hless : modLess s.seq rseg.seq = false := by
        rw [heq]
        exact modLess_of_ge le_rfl (Nat.le_add_right _ _)
      have hless' : modLess rseg.seq s.seq = false := by
        rw [heq]
        exact modLess_of_ge le_rfl (Nat.le_add_right _ _)
      rw [hless,hless']
      exact ⟨hl,[],s::l,rfl,fun t ht => absurd ht not_mem_nil,.inr ⟨rfl,s,l,rfl,heq⟩⟩
    · have hless : modLess s.seq rseg.seq = true := modLess_of_lt (by omega) hnear_s.1
      have hnear_l : ∀ t ∈ l.head?, Near rseg.seq t.seq := by
        intro t ht
        obtain ⟨hst,htn⟩ := (isChain_cons.mp hl).1 t ht
        have hnear_s := hnear_s.1
        constructor <;> omega
      obtain ⟨hspaced,l₁,l₂,hsplit,hbefore,hcases⟩ := ih hl.tail
        (fun t ht => hf t (mem_cons_of_mem _ ht)) (fun t ht => hapart t (mem_cons_of_mem _ ht)) hnear_l
      rw [hless,if_pos rfl]
      refine ⟨isChain_cons.mpr ⟨fun t ht => ?_,hspaced⟩,s::l₁,l₂,by rw [hsplit]; rfl,?_,?_⟩
      · rcases head?_insertRSegment rseg l ht with rfl | ht
        · exact ⟨hlt,hnear_s.1⟩
        · exact (isChain_cons.mp hl).1 t ht
      · intro t ht
        rcases mem_cons.mp ht with rfl | ht
        · omega
        · exact hbefore t ht
      · rcases hcases with ⟨hins,hafter⟩ | ⟨hins,hdup⟩
        · exact .inl ⟨congrArg (s :: ·) hins,hafter⟩
        · exact .inr ⟨congrArg (s :: ·) hins,hdup⟩
    · have hless : modLess s.seq rseg.seq = false := modLess_of_ge (by omega) hnear_s.2.le
      have hless' : modLess rseg.seq s.seq = true := modLess_of_lt (by omega) hnear_s.2
      rw [hless,hless',if_neg Bool.false_ne_true,if_pos rfl]
      refine ⟨isChain_cons_cons.mpr ⟨⟨hgt,hnear_s.2⟩,hl⟩,[],s::l,rfl,
        fun t ht => absurd ht not_mem_nil,.inl ⟨rfl,fun t ht => ?_⟩⟩
      rcases mem_cons.mp ht with rfl | ht
      · omega
      · have := hl.ends_le hf t ht
        omega

end Insert

/-! ### Moving `m_rcv_nxt` -/

section Advance

variable {isn : BitVec 32} {pieces : List Piece} {k : ℕ} {l l' : List RSegment}

/-- Pieces with data from the one numbered `k` on. -/
def Parked (isn : BitVec 32) (pieces : List Piece) (k : ℕ) (l : List RSegment) : Prop :=
  ∀ s∈l, ∃ i, k ≤ i ∧ pieces[i]? = some ⟨.data,s.buf⟩ ∧ s.seq = startOf isn pieces i

theorem Parked.append_pieces (h : Parked isn pieces k l) (more : List Piece) :
    Parked isn (pieces++more) k l := by
  intro s hs
  obtain ⟨i,hki,hp,hseq⟩ := h s hs
  have hi : i<pieces.length := (List.getElem?_eq_some_iff.mp hp).1
  exact ⟨i,hki,by rw [List.getElem?_append_left hi,hp],hseq.trans (startOf_append isn hi.le more).symm⟩

theorem advanceRcvNxt_unread {rcvNxt : BitVec 32}
    (h : ∀ s∈l, s.seq.toNat + s.size ≤ rcvNxt.toNat ∧ rcvNxt.toNat ≤ s.seq.toNat + 2^31)
    (rlen : BitVec 32) (newData : Bool) :
    advanceRcvNxt (l++l') rcvNxt rlen newData = advanceRcvNxt l' rcvNxt rlen newData := by
  induction l with
  | nil => rfl
  | cons s l ih =>
    obtain ⟨hend,hnear⟩ := h s mem_cons_self
    have hlt := rcvNxt.isLt
    have hto : (s.seq + BitVec.ofNat 32 s.buf.length).toNat = s.seq.toNat+s.size :=
      toNat_place s.seq (hend.trans_lt hlt)
    have hle : modLessEqual s.seq rcvNxt = true := modLessEqual_of_le (by omega) hnear
    have hless : modLess rcvNxt (s.seq + BitVec.ofNat 32 s.buf.length) = false :=
      modLess_of_ge (by omega) (by omega)
    rw [cons_append,advanceRcvNxt,hle,if_pos rfl]
    dsimp only
    rw [hless,if_neg Bool.false_ne_true]
    exact ih fun t ht => h t (mem_cons_of_mem _ ht)

theorem streamOf_take_succ {i : ℕ} {p : Piece} (h : pieces[i]? = some p) : streamOf (pieces.take (i+1)) =
      streamOf (pieces.take i) ++ if p.ctrlType = .data then p.buf else [] := by
  rw [take_add_one,h,streamOf_append]
  simp [streamOf]

/-- Early pieces that follow one after the other become readable. -/
theorem advanceRcvNxt_parked (hsizes : ∀ p∈pieces, p.buf≠[] ∧ p.buf.length ≤ mss)
    (hwrap : Unwrapped isn pieces) (hk : k≤pieces.length) (hparked : Parked isn pieces k l)
    (hspaced : Spaced l) (hnear : ∀ s ∈ l.head?, s.seq.toNat < (startOf isn pieces k).toNat + 2^31)
    (rlen : BitVec 32) (newData : Bool) : ∃ k' absorbed rest, l = absorbed ++ rest ∧ k≤k' ∧
      k' ≤ pieces.length ∧ Parked isn pieces k' rest ∧
      (∀ s∈absorbed, s.seq.toNat + s.size ≤ (startOf isn pieces k').toNat) ∧
      streamOf (pieces.take k') = streamOf (pieces.take k) ++ absorbed.flatMap buf ∧
      (advanceRcvNxt l (startOf isn pieces k) rlen newData).1 = startOf isn pieces k' ∧
      (advanceRcvNxt l (startOf isn pieces k) rlen newData).2.1 =
        rlen + BitVec.ofNat 32 (absorbed.flatMap buf).length := by
  induction l generalizing k rlen newData with
  | nil =>
    refine ⟨k,[],[],rfl,le_rfl,hk,hparked,?_,?_,rfl,?_⟩ <;> simp [advanceRcvNxt]
  | cons s l ih =>
    obtain ⟨i,hki,hp,hseq⟩ := hparked s mem_cons_self
    have hstart := hwrap.toNat_startOf
    have hpos : 0<s.buf.length := length_pos_iff.mpr (hsizes _ (mem_of_getElem? hp)).1
    have hmss : s.buf.length≤1450 := (hsizes _ (mem_of_getElem? hp)).2
    rcases Nat.eq_or_lt_of_le hki with rfl | hlt
    · -- the piece that was waited for
      have hnext : s.seq + BitVec.ofNat 32 s.buf.length = startOf isn pieces (k+1) := by
        rw [hseq,startOf_succ isn hp]
        rfl
      have hoff := offset_succ hp
      have hsize : Piece.size ⟨.data,s.buf⟩ = s.buf.length := rfl
      have hle : modLessEqual s.seq (startOf isn pieces k) = true := by
        rw [hseq]
        exact modLessEqual_of_le le_rfl (Nat.le_add_right _ _)
      have hless : modLess (startOf isn pieces k) (startOf isn pieces (k+1)) = true := by
        apply modLess_of_lt <;> rw [hstart,hstart] <;> omega
      have hadjust : startOf isn pieces (k+1) - startOf isn pieces k = BitVec.ofNat 32 s.buf.length := by
        rw [startOf_succ isn hp]
        simp [Piece.size]
      have hafter : ∀ t∈l, s.seq.toNat + s.size ≤ t.seq.toNat := by
        refine hspaced.ends_le fun t ht => ?_
        obtain ⟨j,-,hj,-⟩ := hparked t ht
        exact length_pos_iff.mpr (hsizes _ (mem_of_getElem? hj)).1
      have hlater : Parked isn pieces (k+1) l := by
        intro t ht
        obtain ⟨j,hkj,hj,htseq⟩ := hparked t (mem_cons_of_mem _ ht)
        refine ⟨j,Nat.lt_of_le_of_ne hkj ?_,hj,htseq⟩
        rintro rfl
        have hend := hafter t ht
        rw [hseq,htseq,size] at hend
        omega
      have hnear' : ∀ t ∈ l.head?, t.seq.toNat < (startOf isn pieces (k+1)).toNat + 2^31 := by
        intro t ht
        have hst := ((isChain_cons.mp hspaced).1 t ht).2
        rw [hseq,hstart] at hst
        rw [hstart]
        omega
      have hk' : k+1≤pieces.length := (List.getElem?_eq_some_iff.mp hp).1
      obtain ⟨k',absorbed,rest,hsplit,hkk',hle',hrest,hends,hstream,hnxt,hlen⟩ :=
        ih hk' hlater hspaced.tail hnear' (rlen + BitVec.ofNat 32 s.buf.length) true
      have hstep : advanceRcvNxt (s::l) (startOf isn pieces k) rlen newData =
          advanceRcvNxt l (startOf isn pieces (k+1)) (rlen + BitVec.ofNat 32 s.buf.length) true := by
        rw [advanceRcvNxt,hle,if_pos rfl]
        dsimp only
        rw [hnext,hless,if_pos rfl,hadjust,← hnext,hseq]
      refine ⟨k',s::absorbed,rest,by rw [hsplit]; rfl,by omega,hle',hrest,fun t ht => ?_,?_,?_,?_⟩
      · rcases mem_cons.mp ht with rfl | ht
        · rw [hseq,hstart,hstart,size]
          have hmono : offset pieces (k+1) ≤ offset pieces k' := offset_mono hkk'
          omega
        · exact hends t ht
      · rw [hstream,streamOf_take_succ hp,if_pos rfl,flatMap_cons,append_assoc]
      · rw [hstep,hnxt]
      · rw [hstep,hlen,flatMap_cons,length_append,BitVec.ofNat_add,add_assoc]
    · -- a gap stays before it
      have hgap : (startOf isn pieces k).toNat < s.seq.toNat := by
        obtain ⟨q,hq⟩ : ∃ q, pieces[k]? = some q :=
          ⟨_,List.getElem?_eq_getElem (hlt.trans (List.getElem?_eq_some_iff.mp hp).1)⟩
        have hqpos : 0<q.size := length_pos_iff.mpr (hsizes _ (mem_of_getElem? hq)).1
        have hoff := offset_add_le hq hlt
        rw [hseq,hstart,hstart]
        omega
      have hle : modLessEqual s.seq (startOf isn pieces k) = false :=
        modLessEqual_of_gt hgap (hnear s rfl)
      refine ⟨k,[],s::l,rfl,le_rfl,hk,hparked,?_,?_,?_,?_⟩
      · exact fun t ht => absurd ht not_mem_nil
      · simp
      · rw [advanceRcvNxt,hle]
        rfl
      · rw [advanceRcvNxt,hle]
        simp

end Advance

/-! ### Reading -/

section Read

variable {unread : List RSegment} (rest : List RSegment)

theorem lengthBytes_append (hf : Filled unread) (hlen : 2 ≤ (unread.flatMap buf).length) :
    lengthBytes (unread++rest) = some ((unread.flatMap buf).take 2) := by
  rcases unread with _ | ⟨⟨buf,seq⟩,unread⟩
  · simp at hlen
  rcases buf with _ | ⟨b₀,_ | ⟨b₁,buf⟩⟩
  · exact absurd (hf ⟨[],seq⟩ mem_cons_self) (lt_irrefl 0)
  · -- the second byte is in the next segment
    rcases unread with _ | ⟨⟨buf',seq'⟩,unread⟩
    · simp at hlen
    rcases buf' with _ | ⟨b₁,buf'⟩
    · exact absurd (hf ⟨[],seq'⟩ (by simp)) (lt_irrefl 0)
    · rfl
  · rfl

/-- The bytes read are the first ones, and what stays of the segments is in order as before. -/
theorem takeBytes_append {n stop : ℕ} (hn : n ≤ (unread.flatMap buf).length) (hf : Filled unread)
    (hspaced : Spaced (unread++rest)) (hends : ∀ s∈unread, s.seq.toNat + s.size ≤ stop)
    (hstop : stop<2^32) : ∃ unread', takeBytes (unread++rest) n =
        some ((unread.flatMap buf).take n, unread'++rest) ∧
      unread'.flatMap buf = (unread.flatMap buf).drop n ∧ Filled unread' ∧
      Spaced (unread'++rest) ∧ (∀ s∈unread', s.seq.toNat + s.size ≤ stop) ∧
      ∀ t∈unread', ∃ s∈unread, s.seq.toNat≤t.seq.toNat := by
  induction unread generalizing n with
  | nil =>
    obtain rfl : n=0 := by simpa using hn
    exact ⟨[],by simp [takeBytes],by simp,hf,hspaced,hends,fun t ht => ⟨t,ht,le_rfl⟩⟩
  | cons s unread ih =>
    have hend := hends s mem_cons_self
    have hf_tail : Filled unread := fun t ht => hf t (mem_cons_of_mem _ ht)
    have hends_tail : ∀ t∈unread, t.seq.toNat + t.size ≤ stop :=
      fun t ht => hends t (mem_cons_of_mem _ ht)
    cases n with
    | zero => exact ⟨s::unread,by simp [takeBytes],by simp,hf,hspaced,hends,fun t ht => ⟨t,ht,le_rfl⟩⟩
    | succ n =>
      rw [flatMap_cons,length_append] at hn
      rw [cons_append,takeBytes,flatMap_cons]
      by_cases hall : s.buf.length≤n+1
      · -- the segment is read to its end
        obtain ⟨unread',htake,hbytes,hf',hspaced',hends',hfrom⟩ :=
          ih (n := n + 1 - s.buf.length) (by omega) hf_tail hspaced.tail hends_tail
        refine ⟨unread',?_,?_,hf',hspaced',hends',fun t ht => ?_⟩
        · rw [if_pos hall,Nat.min_eq_right hall,htake,Option.map_some,take_length,
            take_append,take_of_length_le hall]
        · rw [hbytes,drop_append,drop_of_length_le hall,nil_append]
        · obtain ⟨u,hu,hle⟩ := hfrom t ht
          exact ⟨u,mem_cons_of_mem _ hu,hle⟩
      · have hmin : min (n+1) s.buf.length = n+1 := Nat.min_eq_left (by omega)
        have hto : (s.seq + BitVec.ofNat 32 (n+1)).toNat = s.seq.toNat + (n+1) :=
          toNat_place s.seq (by rw [size] at hend; omega)
        have hsize : size ⟨s.buf.drop (n+1),s.seq + BitVec.ofNat 32 (n+1)⟩ = s.size - (n+1) :=
          length_drop
        rw [if_neg hall,hmin]
        refine ⟨⟨s.buf.drop (n+1),s.seq + BitVec.ofNat 32 (n+1)⟩ :: unread,?_,?_,?_,?_,?_,?_⟩
        · rw [take_append_of_le_length (by omega),cons_append]
        · rw [flatMap_cons,drop_append_of_le_length (by omega)]
        · intro t ht
          rcases mem_cons.mp ht with rfl | ht
          · rw [hsize,size]
            omega
          · exact hf_tail t ht
        · refine isChain_cons.mpr ⟨fun t ht => ?_,hspaced.tail⟩
          obtain ⟨hst,hnear⟩ := (isChain_cons.mp hspaced).1 t ht
          rw [RSegment.Before,hsize,hto]
          rw [size] at hst ⊢
          omega
        · intro t ht
          rcases mem_cons.mp ht with rfl | ht
          · rw [hsize,hto]
            rw [size] at hend ⊢
            omega
          · exact hends_tail t ht
        · intro t ht
          rcases mem_cons.mp ht with rfl | ht
          · exact ⟨s,mem_cons_self,by rw [hto]; omega⟩
          · exact ⟨t,mem_cons_of_mem _ ht,le_rfl⟩

end Read

end P2Streaming.Urdp
