import P2Streaming.AbsentTracking

/-!
# The other ways to learn of packets

A buffermap message, the numbers a vod client enters on its own and the start at a new position
keep track of what is lacking too.
-/
namespace P2Streaming
open WrappableInteger SerialMaps BoundedLoops

namespace BufferManager

variable {n : ℕ} {o : BitVec 32}

theorem processRecvdSeqnos_config (m : BufferManager n) (seqnomap : List (BitVec 32))
    (bigest o now : BitVec 32) (add : Bool) :
    (m.processRecvdSeqnos seqnomap bigest o now add).memoryPacketCache = m.memoryPacketCache ∧
      (m.processRecvdSeqnos seqnomap bigest o now add).isVod = m.isVod ∧
      (m.processRecvdSeqnos seqnomap bigest o now add).seqnoRange = m.seqnoRange := by
  unfold processRecvdSeqnos
  split
  · exact ⟨rfl,rfl,rfl⟩
  · dsimp only
    split_ifs <;> exact ⟨rfl,rfl,rfl⟩

variable {m : BufferManager n}

theorem of_mem_recentSeqnos {bufmap : BuffermapInfo} {lo hi x : BitVec 32}
    (h : x ∈ m.recentSeqnos bufmap lo hi) :
    m.isVod=false ∧ wrappableLessEqual lo x = true ∧ wrappableLessEqual x hi = true := by
  unfold recentSeqnos at h
  split_ifs at h with hvod
  · cases h
  · rw [List.mem_mergeSort,List.mem_filter,Bool.and_eq_true] at h
    exact ⟨Bool.eq_false_iff.mpr hvod,h.2⟩

variable {Have : BitVec 32 → Prop}

theorem placed_seqMin (h : m.Tracks o Have)
    {known : BitVec 32} (hknown : m.bigestSqnoIKnow = some known) : Placed o (m.seqMin known) := by
  unfold seqMin
  cases hmin : m.absentPacketList.minSeqno with
  | none => exact h.placed known hknown
  | some seqno => exact .inl (h.sound.listed_lt (AbsentPacketList.minSeqno_listed hmin))

theorem fits_recent {lo known back : BitVec 32}
    (hlo : Placed o lo) (hfilm : m.seqnoRange=none) (hknown : ahead o known < 2^15)
    {seqnomap : List (BitVec 32)}
    (hall : ∀ x∈seqnomap, wrappableLessEqual lo x = true ∧ wrappableLessEqual x (top n lo) = true)
    (hback : back∈seqnomap) : m.Fits o Have known seqnomap back := by
  have htop := (ahead_top n o).2
  have htop' := ahead_top n lo
  have hup : ∀ x∈seqnomap, ahead lo x < 2^15 := by
    intro x hx
    obtain ⟨h1,h2⟩ := hall x hx
    rw [wrappableLessEqual_iff] at h1 h2
    unfold ahead at *
    bv_omega
  have horderly : m.Orderly o known back := by
    refine ⟨fun h1 h2 => ?_,fun range hr => by rw [hfilm] at hr; cases hr⟩
    have hb := hup back hback
    rw [wrappableLessEqual_iff] at h1 h2
    unfold Placed ahead at *
    rcases hlo with hlo | hlo <;> constructor <;> bv_omega
  refine ⟨horderly,fun x hx => ?_,fun hless => ?_⟩
  · have hb := hup x hx
    unfold Placed ahead at *
    rcases hlo with hlo | hlo <;> bv_omega
  · exfalso
    unfold raised at hless
    split_ifs at hless with hraise
    · obtain ⟨hcl,hkt⟩ := clip_between (.inl hknown) horderly (lessEqual_of_less hraise)
      rw [wrappableLess_origin] at hless
      unfold ahead at *
      bv_omega
    · rw [wrappableLess_origin] at hless
      omega

/-- The first list of numbers that a message makes the client process. -/
def firstCall (m : BufferManager n) (bufmap : BuffermapInfo) (known : BitVec 32) :
    Option (List (BitVec 32) × BitVec 32) :=
  let lo := m.seqMin known
  let inBitset := bitsetSeqnos bufmap lo (top n lo)
  match inBitset.getLast? with
  | some back => some (inBitset, bigestOf bufmap back)
  | none =>
      let recent := m.recentSeqnos bufmap lo (top n lo)
      recent.getLast?.map fun back => (recent, back)

theorem firstCall_ne_nil {bufmap : BuffermapInfo} {known : BitVec 32}
    {call : List (BitVec 32) × BitVec 32} (h : call ∈ m.firstCall bufmap known) : call.1≠[] := by
  have hlast : ∀ {lst : List (BitVec 32)} {x : BitVec 32}, lst.getLast? = some x → lst≠[] := by
    rintro lst x hx rfl
    cases hx
  unfold firstCall at h
  dsimp only at h
  split at h
  · rename_i back hback
    obtain rfl := Option.some.inj h
    exact hlast hback
  · obtain ⟨back,hback,rfl⟩ := Option.map_eq_some_iff.mp h
    exact hlast hback

theorem Tracks.processRecvdBuffermap (h : m.Tracks o Have) (hcached : ∀ s, m.Cached s → Have s)
    (hlive : m.isVod=false → m.seqnoRange=none) (bufmap : BuffermapInfo) (now : BitVec 32) (add : Bool)
    (hfits : ∀ known∈m.bigestSqnoIKnow, ∀ call ∈ m.firstCall bufmap known,
      m.Fits o Have known call.1 call.2) : (m.processRecvdBuffermap bufmap o now add).Tracks o Have := by
  unfold BufferManager.processRecvdBuffermap
  cases hknown : m.bigestSqnoIKnow with
  | none => exact h
  | some known =>
    have hcall := hfits known hknown
    have hlo := placed_seqMin h hknown
    have hnonempty : ∀ {lst : List (BitVec 32)} {x : BitVec 32}, lst.getLast? = some x →
        lst.isEmpty = false := by
      intro lst x hx
      cases lst with
      | nil => cases hx
      | cons => rfl
    unfold firstCall at hcall
    dsimp only at hcall ⊢
    rw [← top]
    generalize hlow : m.seqMin known = lo at *
    cases hbits : (bitsetSeqnos bufmap lo (top n lo)).getLast? with
    | none =>
      rw [hbits] at hcall
      dsimp only
      cases hrecent : (m.recentSeqnos bufmap lo (top n lo)).getLast? with
      | none => exact h
      | some back =>
        rw [hrecent] at hcall
        exact (h.processRecvdSeqnos hcached hknown (hnonempty hrecent) (hcall _ rfl) now add).1
    | some back =>
      rw [hbits] at hcall
      dsimp only
      obtain ⟨hfirst,known',hknown',hin⟩ :=
        h.processRecvdSeqnos hcached hknown (hnonempty hbits) (hcall _ rfl) now add
      obtain ⟨hcache,-,hfilm⟩ := m.processRecvdSeqnos_config
        (bitsetSeqnos bufmap lo (top n lo)) (bigestOf bufmap back) o now add
      cases hrecent : (m.recentSeqnos bufmap lo (top n lo)).getLast? with
      | none => exact hfirst
      | some back' =>
        have hmem := List.mem_of_getLast? hrecent
        have hnone := hlive (of_mem_recentSeqnos hmem).1
        refine (hfirst.processRecvdSeqnos (fun s hs => hcached s ?_) hknown' (hnonempty hrecent)
          (fits_recent hlo (hfilm.trans hnone) hin (fun x hx => (of_mem_recentSeqnos hx).2) hmem)
          now add).1
        obtain ⟨t,ht⟩ := hs
        exact ⟨t,by unfold lacks at *; rwa [hcache] at ht⟩

theorem maxInjectCount_lt (m : BufferManager n) : m.maxInjectCount<2^15 := by
  unfold maxInjectCount
  dsimp only
  split_ifs <;> omega

/-- What the loop of `inject_absent_seqno` keeps: all numbers up to the one it is at are had or
listed. -/
structure Injected (m : BufferManager n) (o : BitVec 32) (Have : BitVec 32 → Prop)
    (known last seqno : BitVec 32) (l : AbsentPacketList) : Prop where
  sound : l.Sound o
  mono : ∀ y, m.absentPacketList.Listed y → l.Listed y
  reached : wrappableLessEqual (known+1) last = true → ahead known seqno ≤ ahead known last + 1
  stays : ¬ wrappableLessEqual (known+1) last = true → seqno=known+1
  moved : 0 < ahead known seqno
  done : ∀ x, 0 < ahead known x → ahead known x < ahead known seqno → Have x ∨ l.Listed x

theorem Injected.next {known last seqno : BitVec 32}
    {l l' : AbsentPacketList} (h : m.Injected o Have known last seqno l)
    (hspan : wrappableLessEqual (known+1) last = true → ahead known last < 2^31)
    (hle : wrappableLessEqual seqno last = true) (hsound : l'.Sound o)
    (hmono : ∀ y, l.Listed y → l'.Listed y) (hseqno : Have seqno ∨ l'.Listed seqno) :
    m.Injected o Have known last (seqno+1) l' := by
  have hfirst : wrappableLessEqual (known+1) last = true := by
    by_contra hno
    exact hno (h.stays hno ▸ hle)
  have hlast := hspan hfirst
  have hreached := h.reached hfirst
  have hstep : ahead known seqno ≤ ahead known last ∧
      ahead known (seqno+1) = ahead known seqno + 1 := by
    rw [wrappableLessEqual_iff] at hle
    have := h.moved
    unfold ahead at *
    constructor <;> bv_omega
  refine ⟨hsound,fun y hy => hmono y (h.mono y hy),fun _ => by omega,
    fun hno => absurd hfirst hno,by omega,fun x hx hlt => ?_⟩
  rcases Nat.lt_or_ge (ahead known x) (ahead known seqno) with hlt' | hge
  · exact (h.done x hx hlt').imp id (hmono x)
  · obtain rfl : x=seqno := ahead_inj (o := known) (by omega)
    exact hseqno

theorem injectBody_keeps {known last now : BitVec 32} (hcached : ∀ s, m.Cached s → Have s)
    (hspan : wrappableLessEqual (known+1) last = true → ahead known last < 2^31)
    (hplace : wrappableLessEqual (known+1) last = true → ∀ x, ahead known x ≤ ahead known last →
      ahead o x < 2^15 ∨ 2^31 < ahead o x)
    {s t : BitVec 32 × AbsentPacketList × ℕ} (h : m.Injected o Have known last s.1 s.2.1)
    (hst : m.injectBody last o now s = .again t ∨ m.injectBody last o now s = .leave t) :
    m.Injected o Have known last t.1 t.2.1 := by
  obtain ⟨seqno,l,cnt⟩ := s
  simp only [injectBody] at hst
  split_ifs at hst with hgo hlacks hknew
  · -- the number was entered
    have hle := (Bool.and_eq_true _ _ |>.mp hgo).1
    obtain rfl := Turn.again.inj (hst.resolve_right nofun)
    have hin : ahead o seqno < 2^15 := by
      have hfirst : wrappableLessEqual (known+1) last = true := by
        by_contra hno
        exact hno (h.stays hno ▸ hle)
      have hseq : ahead known seqno ≤ ahead known last := by
        have hr := h.reached hfirst
        have hs := hspan hfirst
        have hm := h.moved
        rw [wrappableLessEqual_iff] at hle
        unfold ahead at *
        bv_omega
      refine (hplace hfirst seqno hseq).resolve_right fun hbehind => ?_
      rw [l.justKnown_behind now hbehind] at hknew
      cases hknew
    obtain ⟨hs,hx,hmono⟩ := h.sound.justKnown hin now
    exact h.next hspan hle hs hmono (.inr hx)
  · obtain rfl := Turn.leave.inj (hst.resolve_left nofun)
    dsimp only
    rw [AbsentPacketList.justKnown_refused hknew]
    exact h
  · have hle := (Bool.and_eq_true _ _ |>.mp hgo).1
    obtain rfl := Turn.again.inj (hst.resolve_right nofun)
    exact h.next hspan hle h.sound (fun _ hy => hy)
      (.inl (hcached _ ⟨now,Bool.eq_false_iff.mpr hlacks⟩))
  · obtain rfl := Turn.leave.inj (hst.resolve_left nofun)
    exact h

theorem inject_between {known last t : BitVec 32} (hknown : Placed o known) (ht : ahead o t < 2^15)
    (hlast : last=t ∨ FilmEndNear o last ∧ wrappableLess last t = true)
    (hle : wrappableLessEqual (known+1) last = true) :
    ahead known last ≤ ahead known t ∧ ahead known t < 2^31 := by
  rw [wrappableLessEqual_iff] at hle
  rw [wrappableLess_iff] at hlast
  unfold Placed FilmEndNear ahead at *
  rcases hlast with rfl | hlast
  · rcases hknown with hknown | hknown <;> constructor <;> bv_omega
  · rcases hknown with hknown | hknown <;> constructor <;> bv_omega

theorem Tracks.of_injected (h : m.Tracks o Have)
    {known last t seqno : BitVec 32} (hknown : m.bigestSqnoIKnow = some known) (ht : ahead o t < 2^15)
    (hlast : wrappableLessEqual (known+1) last = true →
      ahead known last ≤ ahead known t ∧ ahead known t < 2^31)
    {l : AbsentPacketList} (hl : m.Injected o Have known last seqno l) :
    { m with absentPacketList := l, bigestSqnoIKnow := some (seqno - 1) }.Tracks o Have := by
  have hplaced := h.placed known hknown
  have hup : ahead known (seqno - 1) + 1 = ahead known seqno := by
    have := hl.moved
    unfold ahead at *
    bv_omega
  have hplaced' : Placed o (seqno - 1) := by
    by_cases hfirst : wrappableLessEqual (known+1) last = true
    · obtain ⟨hle,hlt⟩ := hlast hfirst
      have hreached := hl.reached hfirst
      have hin := inside_or_behind (x := seqno - 1) hplaced ht hlt (by omega)
      unfold Placed ahead at *
      rcases hin with hin | hbehind
      · exact .inl hin
      · right
        rcases hplaced with hplaced | hplaced <;> bv_omega
    · rw [hl.stays hfirst,add_sub_cancel_right]
      exact hplaced
  refine ⟨hl.sound,fun b hb => ?_,fun b s hb hlt hs => ?_⟩
  · cases hb
    exact hplaced'
  · cases hb
    by_cases hnew : 0 < ahead known s ∧ ahead known s < ahead known seqno
    · exact hl.done s hnew.1 hnew.2
    · have hold : ahead o known < 2^31 ∧ ahead o s ≤ ahead o known := by
        unfold Placed ahead at *
        rcases hplaced with hplaced | hplaced <;> constructor <;> bv_omega
      exact (h.tracked known s hknown hold.1 hold.2).imp id (hl.mono s)

theorem Tracks.injectAbsentSeqno (h : m.Tracks o Have) (hcached : ∀ s, m.Cached s → Have s)
    (hfilm : ∀ range∈m.seqnoRange, FilmEndNear o range.2) (bufferSize : ℤ) (now : BitVec 32) :
    (m.injectAbsentSeqno o bufferSize now).Tracks o Have := by
  unfold BufferManager.injectAbsentSeqno
  split
  swap
  · exact h
  rename_i known hvod hknown
  split_ifs with hcnt
  swap
  · exact h
  have hcnt' := m.maxInjectCount_lt
  have ht : ahead o (o + BitVec.ofInt 32 m.maxInjectCount) < 2^15 := by
    unfold ahead
    rw [add_sub_cancel_left,BitVec.toNat_ofInt]
    omega
  dsimp only
  generalize o + BitVec.ofInt 32 m.maxInjectCount = t at *
  generalize (bound 300 (5 * bufferSize + 10) 600).toNat = cnt
  have hlast : m.withinFilm t = t ∨
      FilmEndNear o (m.withinFilm t) ∧ wrappableLess (m.withinFilm t) t = true := by
    rcases m.withinFilm_cases t with he | ⟨range,hr,he,hless⟩
    · exact .inl he
    · exact .inr (he ▸ ⟨hfilm range hr,hless⟩)
  generalize m.withinFilm t = last at *
  have hbetween := inject_between (h.placed known hknown) ht hlast
  refine h.of_injected hknown ht hbetween ?_
  have hleaves : Leaves (m.injectBody last o now) (known+1, m.absentPacketList, cnt)
      (loop (m.injectBody last o now) (cnt+1) (known+1, m.absentPacketList, cnt)) := by
    refine leaves_loop (fun s => s.2.2) (fun s t hst => ?_) _ _ (Nat.lt_succ_self cnt)
    obtain ⟨seqno,l,c⟩ := s
    simp only [injectBody] at hst
    split_ifs at hst with hgo
    · obtain rfl := Turn.again.inj hst
      have hc := of_decide_eq_true (Bool.and_eq_true _ _ |>.mp hgo).2
      dsimp only
      omega
    · obtain rfl := Turn.again.inj hst
      have hc := of_decide_eq_true (Bool.and_eq_true _ _ |>.mp hgo).2
      dsimp only
      omega
  have hspan := fun hle => lt_of_le_of_lt (hbetween hle).1 (hbetween hle).2
  have hplace := fun hle x hx =>
    inside_or_behind (x := x) (h.placed known hknown) ht (hbetween hle).2 (le_trans hx (hbetween hle).1)
  refine hleaves.rule (fun s => m.Injected o Have known last s.1 s.2.1)
    (fun s => m.Injected o Have known last s.1 s.2.1)
    (fun s t hs hst => injectBody_keeps hcached hspan hplace hs (.inl hst))
    (fun s t hs hst => injectBody_keeps hcached hspan hplace hs (.inr hst)) ?_
  have hone : ahead known (known+1) = 1 := by
    unfold ahead
    rw [add_sub_cancel_left]
    rfl
  refine ⟨h.sound,fun _ hy => hy,fun hle => ?_,fun _ => rfl,?_,fun x hx hlt => ?_⟩
  · dsimp only
    omega
  · dsimp only
    omega
  · dsimp only at hlt
    omega

theorem setBigestSeqno_place (p : BitVec 32) (cnt : ℤ) (h : 1 - cnt ≤ 2^31 - 2^16) (hle : cnt≤1000) :
    ahead p (p - 1 + BitVec.ofInt 32 cnt) < 2^15 ∨
      2^31 < ahead p (p - 1 + BitVec.ofInt 32 cnt) ∧
        ahead (p - 1 + BitVec.ofInt 32 cnt) p ≤ 2^31 - 2^16 := by
  have hval : (BitVec.ofInt 32 cnt).toNat = (cnt % 2^32).toNat := by
    rw [BitVec.toNat_ofInt]
    rfl
  generalize BitVec.ofInt 32 cnt = d at *
  unfold ahead
  by_cases hpos : 1 ≤ cnt
  · left
    have hd : d.toNat=cnt.toNat := by omega
    bv_omega
  · right
    have hd : d.toNat = (cnt + 2^32).toNat ∨ d.toNat=0 ∧ cnt=0 := by omega
    constructor <;> bv_omega

theorem tracks_setBigestSeqno
    (hcached : ∀ s, m.Cached s → Have s) {current p : BitVec 32} {backfetchCnt : ℤ}
    (hp : p = current - BitVec.ofInt 32 backfetchCnt)
    (htrim : (m.absentPacketList.trim p backfetchCnt).Sound p)
    (hcnt : 1 - backfetchCnt ≤ 2^31 - 2^16) (now : BitVec 32) :
    (m.setBigestSeqno current backfetchCnt now).Tracks p Have := by
  have hplace := setBigestSeqno_place p (min backfetchCnt 1000) (by omega) (by omega)
  unfold setBigestSeqno
  dsimp only
  rw [← hp]
  generalize p - 1 + BitVec.ofInt 32 (min backfetchCnt 1000) = bigest at *
  obtain ⟨hsound,-,hlearnt⟩ := learnUpTo_spec
    (learns_of m now (fun l x hl hx => hl.justKnown (o := p) hx now)
      (fun l x hx => congrArg Prod.fst (l.justKnown_behind now hx)))
    p bigest htrim (fun hle x hx => by
      rcases hplace with h | h
      · exact .inl (hx.trans_lt h)
      · omega)
  refine ⟨hsound,fun b hb => ?_,fun b s hb hlt hs => ?_⟩
  · cases hb
    exact hplace.imp id And.right
  · cases hb
    have hin : ahead p bigest < 2^15 := hplace.resolve_right fun h => by omega
    exact (hlearnt (by omega) s hs (by omega)).imp (hcached s) id

theorem injectAbsentSeqno_config (m : BufferManager n) (o : BitVec 32) (bufferSize : ℤ)
    (now : BitVec 32) :
    (m.injectAbsentSeqno o bufferSize now).memoryPacketCache = m.memoryPacketCache ∧
      (m.injectAbsentSeqno o bufferSize now).isVod = m.isVod ∧
      (m.injectAbsentSeqno o bufferSize now).seqnoRange = m.seqnoRange := by
  unfold injectAbsentSeqno
  split
  · split_ifs <;> exact ⟨rfl,rfl,rfl⟩
  · exact ⟨rfl,rfl,rfl⟩

theorem processRecvdBuffermap_config (m : BufferManager n) (bufmap : BuffermapInfo)
    (o now : BitVec 32) (add : Bool) :
    (m.processRecvdBuffermap bufmap o now add).memoryPacketCache = m.memoryPacketCache ∧
      (m.processRecvdBuffermap bufmap o now add).isVod = m.isVod ∧
      (m.processRecvdBuffermap bufmap o now add).seqnoRange = m.seqnoRange := by
  unfold processRecvdBuffermap
  split
  · exact ⟨rfl,rfl,rfl⟩
  · dsimp only
    have hcall := fun (m : BufferManager n) seqnomap bigest =>
      m.processRecvdSeqnos_config seqnomap bigest o now add
    split <;> split
    · obtain ⟨h1,h2,h3⟩ := hcall (m.processRecvdSeqnos _ _ o now add) _ _
      obtain ⟨h1',h2',h3'⟩ := hcall m _ _
      exact ⟨h1.trans h1',h2.trans h2',h3.trans h3'⟩
    · exact hcall m _ _
    · exact hcall m _ _
    · exact ⟨rfl,rfl,rfl⟩

end BufferManager
end P2Streaming
