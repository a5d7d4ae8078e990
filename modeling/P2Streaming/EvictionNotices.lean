import P2Streaming.BoundedLoops
import P2Streaming.DiskCacheResizing
import P2Streaming.WrappableInteger

/-!
# Notices of evicted chunks

The disk cache keeps at most one notice for a channel, of the chunk that was evicted first
since the channel was last asked for. `buffer_manager` passes it on as a pair of piece numbers,
and it and its peers read the pair as a closed interval, while the disk cache means by the
second number the first piece of the next chunk.
-/
namespace P2Streaming.DiskCache
open BigEndianBytes BoundedLoops SerialNumbers TransitionRuns WrappableInteger TimedKeepers
  OpenedCache Function
open List

/-- A turn of the loops over the numbers of a notice, with the numbers visited. -/
def erasedBody (last : BitVec 32) : BitVec 32 × List (BitVec 32) → Turn (BitVec 32 × List (BitVec 32))
  | (seqno, visited) =>
    if wrappableLessEqual seqno last then .again (seqno+1, visited ++ [seqno]) else .leave
      (seqno, visited)

/-- The numbers the loop of `get_disk_packet_cache_buffermap` visits. -/
def erasedSeqnos (first last : BitVec 32) : List (BitVec 32) :=
  (loop (erasedBody last) ((last - first).toNat + 2) (first, [])).2

/-- The numbers that `process_erased_buffermap` takes from their owner. -/
def processErasedBuffermap (bigestSqnoIKnow : Option (BitVec 32))
    (seqBegin seqEnd smallestSeqnoICare : BitVec 32) : List (BitVec 32) :=
  match bigestSqnoIKnow with
  | none => []
  | some bigest =>
    if wrappableGreaterEqual seqEnd smallestSeqnoICare && wrappableLessEqual seqBegin bigest then
      let seqBegin := if wrappableLessEqual seqBegin smallestSeqnoICare then smallestSeqnoICare else
        seqBegin
      let seqEnd := if wrappableGreaterEqual seqEnd bigest then bigest else seqEnd
      erasedSeqnos seqBegin seqEnd
    else []

/-- `get_disk_packet_cache_buffermap`: the begin and the end of the notice, if there is one. -/
def OpenedCache.getDiskPacketCacheBuffermap (s : OpenedCache) (now : ℕ) (channelUuid : List Byte) :
    OpenedCache × Option (BitVec 32 × BitVec 32) :=
  if channelUuid=[] then (s, none)
  else
    let (s, popped) := s.popPieceErased now channelUuid
    let (minSeq, maxSeq) := popped.getD (0, 0)
    (s, if minSeq≠maxSeq then some (minSeq, maxSeq) else none)

private theorem loop_erased (first : BitVec 32) {n : ℕ} (hn : n<2^31) (rest : ℕ) :
    ∀ (m fuel : ℕ) (visited : List (BitVec 32)), m + rest = n+1 → rest<fuel →
      (loop (erasedBody (place first n)) fuel (place first m, visited)).2 =
        visited ++ (List.range' m rest).map (place first) := by
  induction rest with
  | zero =>
    intro m fuel visited hm hfuel
    obtain ⟨fuel,rfl⟩ := Nat.exists_eq_succ_of_ne_zero hfuel.ne'
    obtain rfl : m=n+1 := hm
    have hstop : wrappableLessEqual (place first (n+1)) (place first n) = false := by
      rw [wrappableLessEqual,wrappableLess_place first (by omega) (by omega)]
      rfl
    simp [loop,erasedBody,hstop]
  | succ rest ih =>
    intro m fuel visited hm hfuel
    obtain ⟨fuel,rfl⟩ := Nat.exists_eq_succ_of_ne_zero (Nat.ne_zero_of_lt hfuel)
    have hgo : wrappableLessEqual (place first m) (place first n) = true := by
      rw [wrappableLessEqual,wrappableLess_place_of_ge first (by omega) (by omega)]
      rfl
    have hnext : place first m + 1 = place first (m+1) := (place_add first m 1).symm
    simp only [loop,erasedBody,hgo,if_true,hnext]
    rw [ih (m+1) fuel _ (by omega) (by omega),List.range'_succ,map_cons,append_assoc]
    rfl

theorem erasedSeqnos_place (first : BitVec 32) {n : ℕ} (hn : n<2^31) :
    erasedSeqnos first (place first n) = (List.range (n+1)).map (place first) := by
  have hlen : (place first n - first).toNat = n := by
    have hsub := toNat_place_sub_place first (Nat.zero_le n)
    rw [place_zero,Nat.sub_zero,Nat.mod_eq_of_lt (by omega)] at hsub
    exact hsub
  have hloop := loop_erased first hn (n+1) 0 (n+2) [] (by omega) (by omega)
  rw [place_zero,nil_append] at hloop
  rw [erasedSeqnos,hlen,hloop,range_eq_range']

theorem mem_erasedSeqnos_iff {first last : ℕ} (hle : first≤last) (hlast : last<2^31) (q : BitVec 32) :
    q ∈ erasedSeqnos (BitVec.ofNat 32 first) (BitVec.ofNat 32 last) ↔ first≤q.toNat ∧ q.toNat≤last := by
  have hplace (m : ℕ) : place (BitVec.ofNat 32 first) m = BitVec.ofNat 32 (first+m) :=
    (BitVec.ofNat_add first m).symm
  have hend : BitVec.ofNat 32 last = place (BitVec.ofNat 32 first) (last - first) := by
    rw [hplace,Nat.add_sub_cancel' hle]
  rw [hend,erasedSeqnos_place _ (by omega),mem_map]
  constructor
  · rintro ⟨m,hm,rfl⟩
    rw [mem_range] at hm
    rw [hplace,BitVec.toNat_ofNat,Nat.mod_eq_of_lt (by omega)]
    omega
  · rintro ⟨hge,hle'⟩
    refine ⟨q.toNat - first,mem_range.mpr (by omega),?_⟩
    rw [hplace,Nat.add_sub_cancel' hge,BitVec.ofNat_toNat,BitVec.setWidth_eq]

theorem wrappableLessEqual_ofNat {a b : ℕ} (ha : a<2^31) (hb : b<2^31) :
    wrappableLessEqual (BitVec.ofNat 32 a) (BitVec.ofNat 32 b) = decide (a≤b) := by
  rw [Bool.eq_iff_iff,wrappableLessEqual_iff,decide_eq_true_eq,BitVec.toNat_sub,BitVec.toNat_ofNat,
    BitVec.toNat_ofNat]
  omega

/-- A neighbour reads a notice as the closed interval, within the numbers it cares for. -/
theorem mem_processErasedBuffermap_iff {first last care bigest : ℕ} (hle : first≤last)
    (hlast : last<2^31) (hcare : care≤bigest) (hbigest : bigest<2^31) (q : BitVec 32) :
    q ∈ processErasedBuffermap (some (BitVec.ofNat 32 bigest)) (BitVec.ofNat 32 first)
        (BitVec.ofNat 32 last) (BitVec.ofNat 32 care) ↔
      (first≤q.toNat ∧ q.toNat≤last) ∧ care≤q.toNat ∧ q.toNat≤bigest := by
  have hge (a b : BitVec 32) : wrappableGreaterEqual a b = wrappableLessEqual b a := rfl
  have hfirst : (if first≤care then BitVec.ofNat 32 care else BitVec.ofNat 32 first) =
      BitVec.ofNat 32 (max first care) := by
    rw [max_def,apply_ite (BitVec.ofNat 32)]
  have hend : (if bigest≤last then BitVec.ofNat 32 bigest else BitVec.ofNat 32 last) =
      BitVec.ofNat 32 (min bigest last) := by
    rw [min_def,apply_ite (BitVec.ofNat 32)]
  dsimp only [processErasedBuffermap]
  rw [hge,hge,wrappableLessEqual_ofNat (by omega) hlast,wrappableLessEqual_ofNat (by omega) hbigest,
    wrappableLessEqual_ofNat (by omega) (by omega),wrappableLessEqual_ofNat hbigest hlast]
  simp only [Bool.and_eq_true,decide_eq_true_eq,hfirst,hend]
  split_ifs with hmeets
  · rw [mem_erasedSeqnos_iff (by omega) (by omega)]
    omega
  · refine iff_of_false List.not_mem_nil ?_
    omega

/-- Every chunk in memory can be found from the channel that its header line names. Unlike
`Reflects` this outlives the evictions that leave the channel as it was. -/
structure OpenedCache.Traced (s : OpenedCache) : Prop where
  chunk : ∀ k ck, s.chunks k = some ck → k<s.geometry.chunkCnt ∧ ∃ c,
    s.channels (s.file.lines k).id = some c ∧
    ck.orig∈c.cachedChunks ∧ c.cacheToOrigChunk k = ck.orig ∧ (ck.orig : ℤ) < c.origChunkCount
  unique : ∀ k j ck ck', s.chunks k = some ck → s.chunks j = some ck' →
    (s.file.lines k).id = (s.file.lines j).id → ck.orig=ck'.orig → k=j
  used : ∃ keys : Finset ℕ, (∀ k, k∈keys ↔ (s.chunks k).isSome) ∧ s.usedChunksCnt=keys.card

theorem OpenedCache.Reflected.traced {s : OpenedCache} (h : s.Reflected) : s.Traced where
  chunk k ck hk := by
    obtain ⟨hlt,he⟩ := h.chunk k ck hk
    obtain ⟨c,hc,-,hmem,-,hto⟩ := he.channel
    exact ⟨hlt,c,hc,hmem,hto,(h.channel _ c hc).lt _ hmem⟩
  unique k j ck ck' hk hj := h.chunk_unique hk hj
  used := h.used

theorem geometry_forgetChunk (s : OpenedCache) (now k : ℕ) :
    (s.forgetChunk now k).geometry = s.geometry := by
  obtain ⟨_,_,hforget⟩ := s.forgetChunk_frame now k
  rw [hforget]

namespace OpenedCache.Traced

variable {s : OpenedCache} {now k : ℕ} {ck : Chunk} {c : Channel}

theorem eraseChunk_eq (h : s.Traced) (hk : s.chunks k = some ck) :
    s.eraseChunk now k = some ((s.forgetChunk now k).releaseChunk k) := by
  obtain ⟨hlt,-⟩ := h.chunk k ck hk
  obtain ⟨keys,hkeys,hused⟩ := h.used
  have hmem : k∈keys := (hkeys k).mpr (by rw [hk]; rfl)
  have hpos := Finset.card_pos.mpr ⟨k,hmem⟩
  rw [eraseChunk,if_neg (by omega),if_neg (by omega)]

theorem forgetChunk_eq (h : s.Traced) (hk : s.chunks k = some ck)
    (hc : s.channels (s.file.lines k).id = some c) :
    s.forgetChunk now k = if (k : ℤ) < c.origChunkCount then
      { s with
        erasedChunks :=
          (tryKeep timedKeeperMap now 5000 ((s.file.lines k).id, ck.orig) s.erasedChunks).1
        channels := update s.channels (s.file.lines k).id
          (if (c.drop k).cachedChunks = ∅ then none else some (c.drop k)) }
    else s := by
  obtain ⟨-,c',hc',-,hto,hlt⟩ := h.chunk k ck hk
  obtain rfl : c=c' := Option.some.inj (hc.symm.trans hc')
  unfold forgetChunk
  dsimp only
  rw [hc]
  dsimp only
  rw [hto]
  exact if_congr (and_iff_left hlt) rfl rfl

theorem channels_forgetChunk (now : ℕ) (h : s.Traced) (hk : s.chunks k = some ck)
    (hc : s.channels (s.file.lines k).id = some c) : (s.forgetChunk now k).channels = s.channels ∨
      (s.forgetChunk now k).channels = update s.channels (s.file.lines k).id
        (if (c.drop k).cachedChunks = ∅ then none else some (c.drop k)) := by
  rw [forgetChunk_eq h hk hc]
  by_cases hlt : (k : ℤ) < c.origChunkCount
  · rw [if_pos hlt]
    exact .inr rfl
  · rw [if_neg hlt]
    exact .inl rfl

theorem channel_forgetChunk (now : ℕ) (h : s.Traced) (hk : s.chunks k = some ck) {j : ℕ} {ck' : Chunk}
    (hj : s.chunks j = some ck') (hjk : j≠k) :
    ∃ c, (s.forgetChunk now k).channels (s.file.lines j).id = some c ∧
      ck'.orig ∈ c.cachedChunks ∧ c.cacheToOrigChunk j = ck'.orig ∧
      (ck'.orig : ℤ) < c.origChunkCount := by
  obtain ⟨-,c,hc,hmem,hto,-⟩ := h.chunk k ck hk
  obtain ⟨-,c',hc',hmem',hto',hlt'⟩ := h.chunk j ck' hj
  rcases channels_forgetChunk now h hk hc with heq | heq
  · rw [heq]
    exact ⟨c',hc',hmem',hto',hlt'⟩
  rw [heq]
  by_cases hid : (s.file.lines j).id = (s.file.lines k).id
  · obtain rfl : c=c' := Option.some.inj (hc.symm.trans (hid ▸ hc'))
    have hne : ck'.orig≠ck.orig := fun ho => hjk (h.unique j k ck' ck hj hk hid ho)
    have hmem'' : ck'.orig ∈ (c.drop k).cachedChunks := Finset.mem_erase.mpr ⟨hto ▸ hne,hmem'⟩
    refine ⟨c.drop k,?_,hmem'',(update_of_ne hjk _ _).trans hto',hlt'⟩
    rw [hid,update_self,if_neg (Finset.ne_empty_of_mem hmem'')]
  · rw [update_of_ne hid]
    exact ⟨c',hc',hmem',hto',hlt'⟩

theorem evicted (h : s.Traced) (hk : s.chunks k = some ck) :
    ((s.forgetChunk now k).releaseChunk k).Traced := by
  have hchannel := fun j ck' (hj : s.chunks j = some ck') hjk => channel_forgetChunk now h hk hj hjk
  obtain ⟨channels,erasedChunks,hforget⟩ := s.forgetChunk_frame now k
  rw [hforget] at hchannel ⊢
  -- only the cache chunk and its line are touched
  have hother {j : ℕ} {ck' : Chunk} (hj : update s.chunks k none j = some ck') :
      j≠k ∧ s.chunks j = some ck' ∧ (s.file.resetChunk k).lines j = s.file.lines j := by
    have hjk : j≠k := by
      rintro rfl
      simp at hj
    exact ⟨hjk,(update_of_ne hjk _ _).symm.trans hj,update_of_ne hjk _ _⟩
  refine ⟨fun j ck' hj => ?_,fun i j cki ckj hi hj hid => ?_,?_⟩
  · obtain ⟨hjk,hj,hline⟩ := hother hj
    refine ⟨(h.chunk j ck' hj).1,?_⟩
    rw [releaseChunk,hline]
    exact hchannel j ck' hj hjk
  · obtain ⟨-,hi,hline⟩ := hother hi
    obtain ⟨-,hj,hline'⟩ := hother hj
    exact h.unique i j cki ckj hi hj (hline ▸ hline' ▸ hid)
  · obtain ⟨keys,hkeys,hused⟩ := h.used
    have hmem : k∈keys := (hkeys k).mpr (by rw [hk]; rfl)
    refine ⟨keys.erase k,fun j => ?_,?_⟩
    · by_cases hjk : j=k
      · simp [hjk,releaseChunk]
      · simp [hjk,releaseChunk,hkeys]
    · rw [Finset.card_erase_of_mem hmem,releaseChunk,hused]

end OpenedCache.Traced

theorem Channel.Counted.piece_lt {p : ℕ} {c : Channel} (h : c.Counted p) (hp : 0<p)
    (hp' : p≤5*1024) {o : ℕ}
    (ho : (o : ℤ) < c.origChunkCount) : ((o*p : ℕ) : ℤ) < c.origPieceCount.read ∧ (o+1) * p < 2^31 := by
  obtain ⟨c₀,hd,hcount⟩ := Option.map_eq_some_iff.mp h
  unfold ofDisk at hd
  dsimp only at hd
  split_ifs at hd with hbad
  obtain rfl := Option.some.inj hd
  dsimp only at hcount
  constructor
  · have hnonneg : 0 ≤ c.origPieceCount.read + p - 1 := by
      by_contra hneg
      have hopposite := Int.tdiv_nonneg (show 0 ≤ -(c.origPieceCount.read + p - 1) by omega)
        (Int.natCast_nonneg p)
      rw [Int.neg_tdiv] at hopposite
      omega
    rw [Int.tdiv_eq_ediv_of_nonneg hnonneg] at hcount
    have hmul := Int.mul_le_of_le_ediv (by omega) (show (o : ℤ) + 1 ≤ _ / (p : ℤ) by rw [hcount]; omega)
    rw [Int.add_mul] at hmul
    push_cast
    omega
  · have ho' : o+1≤0xfffe := by omega
    have hmul := Nat.mul_le_mul ho' hp'
    omega

/-- The disk cache and the history of one channel in it: the chunks that were evicted, the one
of which a notice waits, those of which a notice was given, and the numbers announced. Of an
eviction a notice is kept if no other one waits and the number of the cache chunk is below
the chunk count of the channel. `since` has the times of the evictions behind the last call. -/
structure Watch where
  cache : OpenedCache
  clock : ℕ
  since : List ℕ
  evicted : List ℕ
  waiting : Option ℕ
  noticed : List ℕ
  announced : List (BitVec 32)

inductive NoticeEvent where
  | evict (now cacheChunkID : ℕ)
  | call (now : ℕ) (channelUuid : List Byte)

namespace Watch

def start (s : OpenedCache) : Watch := ⟨s,0,[],[],none,[],[]⟩

def evict (x : Watch) (now cacheChunkID : ℕ) (ck : Chunk) (c : Channel) : Watch :=
  { x with
    since := now :: x.since
    evicted := ck.orig :: x.evicted
    waiting := x.waiting.or (if (cacheChunkID : ℤ) < c.origChunkCount then some ck.orig else none) }

def call (x : Watch) (notice : Option (BitVec 32 × BitVec 32)) : Watch :=
  { x with
    since := []
    waiting := none
    noticed := x.waiting.toList ++ x.noticed
    announced := (notice.elim [] fun n => erasedSeqnos n.1 n.2) ++ x.announced }

variable (id : ChannelUuid)

def step (x : Watch) : NoticeEvent → Watch
  | .evict now k =>
    let cache := (x.cache.eraseChunk now k).getD x.cache
    let y := match x.cache.chunks k, x.cache.channels id with
      | some ck, some c => if (x.cache.file.lines k).id = id then x.evict now k ck c else x
      | _, _ => x
    { y with cache := cache, clock := now }
  | .call now channelUuid =>
    let (cache, notice) := x.cache.getDiskPacketCacheBuffermap now channelUuid
    let y := if channelUuid≠[] ∧ .ofString channelUuid = id then x.call notice else x
    { y with cache := cache, clock := now }

/-- Chunks are evicted, and a call comes within the keep time of the evictions before it. -/
def Timely (x : Watch) : NoticeEvent → Prop
  | .evict now k => x.clock ≤ now ∧ (x.cache.chunks k).isSome
  | .call now channelUuid => x.clock ≤ now ∧ (.ofString channelUuid = id → ∀ t∈x.since, now≤t+5000)

def Late (x : Watch) : Prop := ∃ t∈x.since, t + 5000 < x.clock

def Kept (x : Watch) : Prop :=
  match x.waiting with
  | none => keyed timedKeeperMap id x.cache.erasedChunks = []
  | some o => o ∈ x.evicted ∧ ∃ t∈x.since, keyed timedKeeperMap id x.cache.erasedChunks =
    [⟨(id, o),t+5000⟩]

structure Recorded (g : Geometry) (id : ChannelUuid) (total : ℕ) (x : Watch) : Prop where
  geometry : x.cache.geometry=g
  traced : x.cache.Traced
  counted : ∀ c, x.cache.channels id = some c → c.origPieceCount.read=total ∧ c.Counted g.pieceCntPerChunk
  evicted : ∀ o∈x.evicted, o * g.pieceCntPerChunk < total ∧ (o+1) * g.pieceCntPerChunk < 2^31
  noticed : ∀ o∈x.noticed, o∈x.evicted
  announced : ∀ q, q∈x.announced ↔
    ∃ o∈x.noticed, o * g.pieceCntPerChunk ≤ q.toNat ∧ q.toNat ≤ (o+1) * g.pieceCntPerChunk
  kept : x.Kept id

variable {g : Geometry} {id} {total : ℕ} {x : Watch} {now k : ℕ}

theorem Kept.clearTimeout (h : x.Kept id) (hnow : ∀ t∈x.since, now≤t+5000) :
    clearTimeout timedKeeperMap now (keyed timedKeeperMap id x.cache.erasedChunks) =
    keyed timedKeeperMap id x.cache.erasedChunks := by
  unfold Kept at h
  cases hw : x.waiting with
  | none =>
    rw [hw] at h
    rw [show keyed timedKeeperMap id x.cache.erasedChunks = [] from h]
    rfl
  | some o =>
    rw [hw] at h
    obtain ⟨-,t,ht,hkeyed⟩ := h
    rw [hkeyed]
    exact filter_cons_of_pos (by simpa using hnow t ht)

theorem Kept.congr (h : x.Kept id) {y : Watch} (hwaiting : y.waiting=x.waiting)
    (hevicted : ∀ o∈x.evicted, o∈y.evicted) (hsince : ∀ t∈x.since, t∈y.since)
    (hkeyed : keyed timedKeeperMap id y.cache.erasedChunks =
      keyed timedKeeperMap id x.cache.erasedChunks) : y.Kept id := by
  unfold Kept at h ⊢
  rw [hwaiting]
  cases hw : x.waiting with
  | none =>
    rw [hw] at h
    exact hkeyed.trans h
  | some o =>
    rw [hw] at h
    obtain ⟨ho,t,ht,hk⟩ := h
    exact ⟨hevicted o ho,t,hsince t ht,hkeyed.trans hk⟩

variable {channelUuid : List Byte}

theorem keyed_popPieceErased_of_ne {s : OpenedCache} (hne : .ofString channelUuid ≠ id) :
    keyed timedKeeperMap id (s.popPieceErased now channelUuid).1.erasedChunks =
      clearTimeout timedKeeperMap now (keyed timedKeeperMap id s.erasedChunks) := by
  unfold popPieceErased
  dsimp only
  split
  · exact keyed_clearTimeout id
  · rw [← keyed_clearTimeout]
    dsimp only [keyed]
    rw [filter_filter]
    refine filter_congr fun e _ => ?_
    by_cases he : e.data.1=id
    · simp [he,hne.symm]
    · simp [he]

theorem keyed_popPieceErased (s : OpenedCache) (now : ℕ) (channelUuid : List Byte) :
    keyed timedKeeperMap (.ofString channelUuid) (s.popPieceErased now channelUuid).1.erasedChunks =
    [] := by
  unfold popPieceErased
  dsimp only
  split
  · rename_i hnone
    rw [keyed_eq_nil]
    intro e he
    rw [mem_clearTimeout] at he
    exact find_eq_none.mp hnone e he.1 he.2
  · rw [keyed_eq_nil]
    intro e he
    exact of_decide_eq_true (mem_filter.mp he).2

theorem popPieceErased_fst (s : OpenedCache) (now : ℕ) (channelUuid : List Byte) :
    ∃ notices, (s.popPieceErased now channelUuid).1 = { s with erasedChunks := notices } := by
  unfold popPieceErased
  dsimp only
  split <;> exact ⟨_,rfl⟩

theorem Recorded.notice (h : x.Recorded g id total) (hname : channelUuid≠[])
    (hid : .ofString channelUuid = id) (hnow : ∀ t∈x.since, now≤t+5000) :
    (x.cache.getDiskPacketCacheBuffermap now channelUuid).2 = x.waiting.map fun o =>
      (BitVec.ofNat 32 (o*g.pieceCntPerChunk), BitVec.ofNat 32 ((o+1) * g.pieceCntPerChunk)) := by
  have hfind : find timedKeeperMap now id x.cache.erasedChunks = x.waiting.map (id, ·) := by
    rw [find_eq_head,h.kept.clearTimeout hnow]
    have hkept := h.kept
    unfold Kept at hkept
    cases hw : x.waiting with
    | none =>
      rw [hw] at hkept
      rw [show keyed timedKeeperMap id x.cache.erasedChunks = [] from hkept]
      rfl
    | some o =>
      rw [hw] at hkept
      obtain ⟨-,t,-,hkeyed⟩ := hkept
      rw [hkeyed]
      rfl
  rw [getDiskPacketCacheBuffermap,if_neg hname,popPieceErased,hid,hfind]
  cases hw : x.waiting with
  | none => rfl
  | some o =>
    have hp : 0<g.pieceCntPerChunk := g.pieceCnt_pos
    have hfirst : o * g.chunkLen / g.pieceLen = o*g.pieceCntPerChunk := Nat.mul_div_assoc o g.pieceLen_dvd
    have hlast : BitVec.ofNat 32 (o*g.pieceCntPerChunk) + BitVec.ofNat 32 (g.chunkLen / g.pieceLen) =
        BitVec.ofNat 32 ((o+1) * g.pieceCntPerChunk) := by
      rw [← BitVec.ofNat_add,Nat.succ_mul]
      rfl
    have hne : BitVec.ofNat 32 (o*g.pieceCntPerChunk) ≠ BitVec.ofNat 32 ((o+1) * g.pieceCntPerChunk) := by
      intro heq
      have hlt := (h.evicted o (by have hk := h.kept; rw [Kept,hw] at hk; exact hk.1)).2
      have htoNat := congrArg BitVec.toNat heq
      rw [Nat.succ_mul] at hlt htoNat
      rw [BitVec.toNat_ofNat,BitVec.toNat_ofNat,Nat.mod_eq_of_lt (by omega),
        Nat.mod_eq_of_lt (by omega)] at htoNat
      omega
    simp only [Option.map_some,Option.getD_some,h.geometry,hfirst,hlast]
    exact if_pos hne

theorem Recorded.withNotices (h : x.Recorded g id total) {y : Watch}
    {notices : List (Element (ChannelUuid × ℕ))}
    (hcache : y.cache = { x.cache with erasedChunks := notices }) (hevicted : y.evicted=x.evicted)
    (hnoticed : ∀ o∈y.noticed, o∈x.evicted) (hannounced : ∀ q, q∈y.announced ↔
      ∃ o∈y.noticed, o * g.pieceCntPerChunk ≤ q.toNat ∧ q.toNat ≤ (o+1) * g.pieceCntPerChunk)
    (hkept : y.Kept id) : y.Recorded g id total := by
  refine ⟨by rw [hcache]; exact h.geometry,?_,by rw [hcache]; exact h.counted,
    by rw [hevicted]; exact h.evicted,by rw [hevicted]; exact hnoticed,hannounced,hkept⟩
  rw [hcache]
  exact ⟨h.traced.chunk,h.traced.unique,h.traced.used⟩

theorem step_call_own (hname : channelUuid≠[]) (hid : .ofString channelUuid = id) :
    x.step id (.call now channelUuid) =
      { x.call (x.cache.getDiskPacketCacheBuffermap now channelUuid).2 with
        cache := (x.cache.popPieceErased now channelUuid).1
        clock := now } := by
  have hcache : (x.cache.getDiskPacketCacheBuffermap now channelUuid).1 =
    (x.cache.popPieceErased now channelUuid).1 := by
    rw [getDiskPacketCacheBuffermap,if_neg hname]
  dsimp only [step]
  rw [hcache,if_pos ⟨hname,hid⟩]

theorem step_call_other (hname : channelUuid≠[]) (hid : .ofString channelUuid ≠ id) :
    x.step id (.call now channelUuid) =
      { x with cache := (x.cache.popPieceErased now channelUuid).1, clock := now } := by
  have hcache : (x.cache.getDiskPacketCacheBuffermap now channelUuid).1 =
    (x.cache.popPieceErased now channelUuid).1 := by
    rw [getDiskPacketCacheBuffermap,if_neg hname]
  dsimp only [step]
  rw [hcache,if_neg fun h => hid h.2]

theorem step_call_nil : x.step id (.call now []) = { x with clock := now } := rfl

theorem Recorded.call_own (h : x.Recorded g id total) (hname : channelUuid≠[])
    (hid : .ofString channelUuid = id) (hnow : ∀ t∈x.since, now≤t+5000) :
    (x.step id (.call now channelUuid)).Recorded g id total := by
  obtain ⟨notices,hnotices⟩ := popPieceErased_fst x.cache now channelUuid
  have hkeyed := keyed_popPieceErased x.cache now channelUuid
  have hwaiting : ∀ o∈x.waiting, o∈x.evicted := by
    intro o ho
    have hk := h.kept
    rw [Kept,ho] at hk
    exact hk.1
  rw [step_call_own hname hid,h.notice hname hid hnow]
  refine h.withNotices hnotices rfl (fun o ho => ?_) (fun q => ?_) (by rw [hid] at hkeyed; exact hkeyed)
  · rcases mem_append.mp ho with ho | ho
    · exact hwaiting o (Option.mem_toList.mp ho)
    · exact h.noticed o ho
  · simp only [call,mem_append,Option.mem_toList,h.announced q]
    cases hw : x.waiting with
    | none => simp
    | some o =>
      have hlt := (h.evicted o (hwaiting o hw)).2
      have hle : o*g.pieceCntPerChunk ≤ (o+1) * g.pieceCntPerChunk :=
        Nat.mul_le_mul_right _ (Nat.le_succ o)
      simp [mem_erasedSeqnos_iff hle hlt]

theorem Recorded.call_other (h : x.Recorded g id total)
    (hother : ¬ (channelUuid≠[] ∧ .ofString channelUuid = id)) (hnow : ∀ t∈x.since, now≤t+5000) :
    (x.step id (.call now channelUuid)).Recorded g id total := by
  by_cases hname : channelUuid=[]
  · rw [hname,step_call_nil]
    exact h.withNotices rfl rfl h.noticed h.announced
      (h.kept.congr rfl (fun _ ho => ho) (fun _ ht => ht) rfl)
  · have hid : .ofString channelUuid ≠ id := fun heq => hother ⟨hname,heq⟩
    obtain ⟨notices,hnotices⟩ := popPieceErased_fst x.cache now channelUuid
    rw [step_call_other hname hid]
    refine h.withNotices hnotices rfl h.noticed h.announced
      (h.kept.congr rfl (fun _ ho => ho) (fun _ ht => ht) ?_)
    exact (keyed_popPieceErased_of_ne hid).trans (h.kept.clearTimeout hnow)

variable {ck : Chunk} {c : Channel}

theorem step_evict_own (h : x.cache.Traced) (hk : x.cache.chunks k = some ck)
    (hc : x.cache.channels id = some c)
    (hid : (x.cache.file.lines k).id = id) : x.step id (.evict now k) =
      { x.evict now k ck c with cache := (x.cache.forgetChunk now k).releaseChunk k, clock := now } := by
  dsimp only [step]
  rw [h.eraseChunk_eq hk,hk,hc]
  dsimp only
  rw [if_pos hid]
  rfl

theorem step_evict_other (h : x.cache.Traced) (hk : x.cache.chunks k = some ck)
    (hid : (x.cache.file.lines k).id ≠ id) : x.step id (.evict now k) =
      { x with cache := (x.cache.forgetChunk now k).releaseChunk k, clock := now } := by
  dsimp only [step]
  rw [h.eraseChunk_eq hk,hk]
  cases x.cache.channels id with
  | none => rfl
  | some c =>
    dsimp only
    rw [if_neg hid]
    rfl

theorem frame_evict_other (now : ℕ) {s : OpenedCache} (h : s.Traced) (hk : s.chunks k = some ck)
    (hid : (s.file.lines k).id ≠ id) : (s.forgetChunk now k).channels id = s.channels id ∧
      (keyed timedKeeperMap id (s.forgetChunk now k).erasedChunks =
          keyed timedKeeperMap id s.erasedChunks ∨
        keyed timedKeeperMap id (s.forgetChunk now k).erasedChunks =
          clearTimeout timedKeeperMap now (keyed timedKeeperMap id s.erasedChunks)) := by
  obtain ⟨-,c,hc,-⟩ := h.chunk k ck hk
  rw [h.forgetChunk_eq hk hc]
  by_cases hlt : (k : ℤ) < c.origChunkCount
  · rw [if_pos hlt]
    exact ⟨update_of_ne hid.symm _ _,.inr (keyed_tryKeep_of_ne hid)⟩
  · rw [if_neg hlt]
    exact ⟨rfl,.inl rfl⟩

theorem Recorded.evict_other (h : x.Recorded g id total) (hk : x.cache.chunks k = some ck)
    (hid : (x.cache.file.lines k).id ≠ id) (hnow : ∀ t∈x.since, now≤t+5000) :
    (x.step id (.evict now k)).Recorded g id total := by
  obtain ⟨hchannel,hkeyed⟩ := frame_evict_other now h.traced hk hid
  rw [step_evict_other h.traced hk hid]
  refine ⟨(geometry_forgetChunk x.cache now k).trans h.geometry,h.traced.evicted hk,
    fun c hc => h.counted c (hchannel ▸ hc),h.evicted,h.noticed,h.announced,
    h.kept.congr rfl (fun _ ho => ho) (fun _ ht => ht) ?_⟩
  rcases hkeyed with heq | heq
  · exact heq
  · exact heq.trans (h.kept.clearTimeout hnow)

theorem Kept.of_evict (h : x.Kept id) (htraced : x.cache.Traced) (hk : x.cache.chunks k = some ck)
    (hc : x.cache.channels id = some c) (hid : (x.cache.file.lines k).id = id)
    (hnow : ∀ t∈x.since, now≤t+5000) {y : Watch} (hwaiting : y.waiting = (x.evict now k ck c).waiting)
    (hevicted : y.evicted = ck.orig :: x.evicted) (hsince : y.since = now :: x.since)
    (hnotices : y.cache.erasedChunks = (x.cache.forgetChunk now k).erasedChunks) : y.Kept id := by
  have hclear := h.clearTimeout hnow
  have hmore : (∀ o∈x.evicted, o∈y.evicted) ∧ ∀ t∈x.since, t∈y.since := by
    rw [hevicted,hsince]
    exact ⟨fun _ => mem_cons_of_mem _,fun _ => mem_cons_of_mem _⟩
  rw [htraced.forgetChunk_eq hk (hid.symm ▸ hc),hid] at hnotices
  rw [evict] at hwaiting
  by_cases hlt : (k : ℤ) < c.origChunkCount
  · rw [if_pos hlt] at hnotices hwaiting
    have hkeyed : keyed timedKeeperMap id y.cache.erasedChunks =
        if keyed timedKeeperMap id x.cache.erasedChunks = [] then [⟨(id, ck.orig),now+5000⟩]
        else keyed timedKeeperMap id x.cache.erasedChunks := by
      rw [hnotices]
      exact (keyed_tryKeep 5000 (id, ck.orig)).trans (by rw [hclear])
    cases hw : x.waiting with
    | none =>
      have hnil : keyed timedKeeperMap id x.cache.erasedChunks = [] := by rw [Kept,hw] at h; exact h
      rw [hw,Option.none_or] at hwaiting
      rw [if_pos hnil] at hkeyed
      rw [Kept,hwaiting]
      exact ⟨by rw [hevicted]; exact mem_cons_self,now,by rw [hsince]; exact mem_cons_self,hkeyed⟩
    | some o =>
      refine h.congr (by rw [hwaiting,hw,Option.some_or]) hmore.1 hmore.2 (hkeyed.trans (if_neg ?_))
      rw [Kept,hw] at h
      obtain ⟨-,t,-,hone⟩ := h
      rw [hone]
      exact cons_ne_nil _ _
  · rw [if_neg hlt] at hnotices hwaiting
    exact h.congr (by rw [hwaiting,Option.or_none]) hmore.1 hmore.2 (by rw [hnotices])

theorem Recorded.evict_own (h : x.Recorded g id total) (hk : x.cache.chunks k = some ck)
    (hid : (x.cache.file.lines k).id = id) (hnow : ∀ t∈x.since, now≤t+5000) :
    (x.step id (.evict now k)).Recorded g id total := by
  obtain ⟨-,c,hc,-,-,hlt⟩ := h.traced.chunk k ck hk
  rw [hid] at hc
  obtain ⟨htotal,hcounted⟩ := h.counted c hc
  have hpiece := hcounted.piece_lt g.pieceCnt_pos g.pieces_le hlt
  rw [htotal,Nat.cast_lt] at hpiece
  rw [step_evict_own h.traced hk hc hid]
  refine ⟨(geometry_forgetChunk x.cache now k).trans h.geometry,h.traced.evicted hk,
    fun c' hc' => ?_,fun o ho => ?_,fun o ho => mem_cons_of_mem _ (h.noticed o ho),h.announced,
    h.kept.of_evict h.traced hk hc hid hnow rfl rfl rfl rfl⟩
  · have hchannels := OpenedCache.Traced.channels_forgetChunk now h.traced hk (hid.symm ▸ hc)
    change (x.cache.forgetChunk now k).channels id = some c' at hc'
    rcases hchannels with heq | heq
    · exact h.counted c' (heq ▸ hc')
    · rw [heq,hid,update_self] at hc'
      split_ifs at hc'
      obtain rfl := Option.some.inj hc'
      exact ⟨htotal,hcounted⟩
  · rcases mem_cons.mp ho with rfl | ho
    · exact hpiece
    · exact h.evicted o ho

theorem Timely.clock_le {e : NoticeEvent} (he : x.Timely id e) : x.clock ≤ (x.step id e).clock := by
  cases e with
  | evict now k => exact he.1
  | call now channelUuid => exact he.1

theorem since_evict : ∀ t∈x.since, t ∈ (x.step id (.evict now k)).since := by
  intro t ht
  dsimp only [step]
  split
  · split_ifs
    · exact mem_cons_of_mem _ ht
    · exact ht
  · exact ht

theorem late_or_recorded_step {e : NoticeEvent} (he : x.Timely id e)
    (h : x.Late ∨ x.Recorded g id total) :
    (x.step id e).Late ∨ (x.step id e).Recorded g id total := by
  by_cases hlate : (x.step id e).Late
  · exact .inl hlate
  -- the step comes in time for what was evicted before, so that nothing was late then
  have hclock := he.clock_le
  have hearly (hnow : ∀ t∈x.since, (x.step id e).clock ≤ t+5000) : x.Recorded g id total := by
    refine h.resolve_left ?_
    rintro ⟨t,ht,hlate⟩
    have := hnow t ht
    omega
  have hnow (hsince : ∀ t∈x.since, t ∈ (x.step id e).since) : ∀ t∈x.since, (x.step id e).clock ≤ t+5000 :=
    fun t ht => not_lt.mp fun hlt => hlate ⟨t,hsince t ht,hlt⟩
  refine .inr ?_
  cases e with
  | evict now k =>
    obtain ⟨ck,hk⟩ := Option.isSome_iff_exists.mp he.2
    have hrecorded := hearly (hnow since_evict)
    by_cases hid : (x.cache.file.lines k).id = id
    · exact hrecorded.evict_own hk hid (hnow since_evict)
    · exact hrecorded.evict_other hk hid (hnow since_evict)
  | call now channelUuid =>
    by_cases hown : channelUuid≠[] ∧ .ofString channelUuid = id
    · exact (hearly (he.2 hown.2)).call_own hown.1 hown.2 (he.2 hown.2)
    · have hsince : (x.step id (.call now channelUuid)).since = x.since := by
        dsimp only [step]
        rw [if_neg hown]
      have htime := hnow fun t ht => hsince ▸ ht
      exact (hearly htime).call_other hown htime

end Watch

/-- The piece numbers of a chunk of a channel with `total` pieces. -/
def chunkPieces (pieceCntPerChunk total origChunkID : ℕ) : Set ℕ :=
  { q | q / pieceCntPerChunk = origChunkID ∧ q < total }

/-- Closed intervals from the start of a chunk to the start of the next one cover the evicted
chunks exactly when they chain: each of them ends in the next evicted chunk, and what has no
interval of its own is a single piece behind one. -/
theorem intervals_exact_iff {p total : ℕ} (hp : 0<p) {noticed evicted : List ℕ}
    (hsub : ∀ o∈noticed, o∈evicted) (hlt : ∀ o∈evicted, o * p < total) :
    (∀ q, (∃ o∈noticed, o * p ≤ q ∧ q ≤ (o+1) * p) ↔ ∃ o∈evicted, q ∈ chunkPieces p total o) ↔
      (∀ o∈noticed, (o+1) * p < total ∧ o + 1 ∈ evicted) ∧
      ∀ o∈evicted, o ∉ noticed → (p=1 ∨ total ≤ o * p + 1) ∧ ∃ o'∈noticed, o=o'+1 := by
  have hsucc (o : ℕ) : (o+1) * p = o * p + p := Nat.succ_mul o p
  have hdiv {q o : ℕ} : q / p = o ↔ o*p≤q ∧ q < (o+1) * p := by
    rw [Nat.div_eq_iff hp,hsucc]
    omega
  have hmono {a b : ℕ} (h : a*p≤b*p) : a≤b := Nat.le_of_mul_le_mul_right h hp
  constructor
  · intro hexact
    refine ⟨fun o ho => ?_,fun o ho hnot => ?_⟩
    · obtain ⟨o',ho',hq,hlt'⟩ := (hexact ((o+1) * p)).mp ⟨o,ho,by have := hsucc o; omega,le_rfl⟩
      rw [Nat.mul_div_cancel _ hp] at hq
      exact ⟨hlt',hq ▸ ho'⟩
    · obtain ⟨a,ha,hle,hge⟩ := (hexact (o*p)).mpr ⟨o,ho,Nat.mul_div_cancel _ hp,hlt o ho⟩
      have hne : a≠o := fun heq => hnot (heq ▸ ha)
      have hao := hmono hle
      have hoa := hmono hge
      refine ⟨?_,a,ha,by omega⟩
      by_contra hmany
      push Not at hmany
      -- the second piece of the chunk is announced by none of the other chunks
      have hsecond : (o * p + 1) / p = o := hdiv.mpr ⟨by omega,by have := hsucc o; omega⟩
      obtain ⟨b,hb,hle',hge'⟩ := (hexact (o * p + 1)).mpr ⟨o,ho,hsecond,hmany.2⟩
      have hbo : b≤o := by
        by_contra hgt
        have hmul : (o+1) * p ≤ b*p := Nat.mul_le_mul_right p (by omega)
        have := hsucc o
        omega
      have hob : o≤b := by
        by_contra hgt
        have hmul : (b+1) * p ≤ o*p := Nat.mul_le_mul_right p (by omega)
        omega
      exact hnot (Nat.le_antisymm hob hbo ▸ hb)
  · rintro ⟨hnext,hsingle⟩ q
    constructor
    · rintro ⟨o,ho,hle,hge⟩
      obtain ⟨hlt',hmem⟩ := hnext o ho
      rcases hge.lt_or_eq with hlt | rfl
      · exact ⟨o,hsub o ho,hdiv.mpr ⟨hle,hlt⟩,hlt.trans hlt'⟩
      · exact ⟨o+1,hmem,Nat.mul_div_cancel _ hp,hlt'⟩
    · rintro ⟨o,ho,hq,hlt'⟩
      obtain ⟨hle,hge⟩ := hdiv.mp hq
      by_cases hmem : o∈noticed
      · exact ⟨o,hmem,hle,hge.le⟩
      · obtain ⟨hone,a,ha,rfl⟩ := hsingle o ho hmem
        have hfirst : q = (a+1) * p := by
          have := hsucc (a+1)
          omega
        exact ⟨a,ha,by have := hsucc a; omega,hfirst.le⟩

/-- A channel of an open cache, of which no notice waits: behind a call for it, when no more
can be popped, what the calls have announced is what was evicted exactly when the evicted
chunks chain. -/
theorem notices_exact_iff {s : OpenedCache} (h : s.Reflected) {channelUuid : List Byte}
    (hname : channelUuid≠[])
    (hnotices : ∀ e∈s.erasedChunks, e.data.1 ≠ .ofString channelUuid) {total : ℕ}
    (htotal : ∀ c, s.channels (.ofString channelUuid) = some c → c.origPieceCount.read=total)
    (es : List NoticeEvent) (now : ℕ)
    (hrun : AlongRun (Watch.step (.ofString channelUuid)) (Watch.Timely (.ofString channelUuid))
      (.start s)
      (es ++ [.call now channelUuid])) :
    let p := s.geometry.pieceCntPerChunk
    let x := (es ++ [NoticeEvent.call now channelUuid]).foldl (Watch.step (.ofString channelUuid))
      (.start s)
    (x.cache.getDiskPacketCacheBuffermap now channelUuid).2 = none ∧
    ((∀ q : BitVec 32, q∈x.announced ↔ ∃ o∈x.evicted, q.toNat ∈ chunkPieces p total o) ↔
      (∀ o∈x.noticed, (o+1) * p < total ∧ o + 1 ∈ x.evicted) ∧
      ∀ o∈x.evicted, o ∉ x.noticed → (p=1 ∨ total ≤ o * p + 1) ∧ ∃ o'∈x.noticed, o=o'+1) := by
  intro p x
  have hp : 0<p := s.geometry.pieceCnt_pos
  have hstart : (Watch.start s).Recorded s.geometry (.ofString channelUuid) total :=
    ⟨rfl,h.traced,fun c hc => ⟨htotal c hc,(h.channel _ c hc).counted⟩,nofun,nofun,by simp [Watch.start],
      keyed_eq_nil.mpr hnotices⟩
  have hor : x.Late ∨ x.Recorded s.geometry (.ofString channelUuid) total :=
    invariant_of_run (fun x => Watch.Late x ∨ x.Recorded s.geometry (.ofString channelUuid) total)
      (fun _ _ he hx => Watch.late_or_recorded_step he hx) hrun (.inr hstart)
  -- nothing waits behind the call
  obtain ⟨y,hy⟩ : ∃ y, es.foldl (Watch.step (.ofString channelUuid)) (.start s) = y := ⟨_,rfl⟩
  have hlast : x = y.step (.ofString channelUuid) (.call now channelUuid) := by
    rw [← hy]
    exact foldl_append.trans rfl
  have hsince : x.since=[] ∧ x.waiting=none := by
    rw [hlast,Watch.step_call_own hname rfl]
    exact ⟨rfl,rfl⟩
  have hx := hor.resolve_left fun ⟨t,ht,_⟩ => by
    rw [hsince.1] at ht
    exact not_mem_nil ht
  constructor
  · rw [hx.notice hname rfl (by rw [hsince.1]; exact nofun),hsince.2]
    rfl
  rw [← intervals_exact_iff hp hx.noticed fun o ho => (hx.evicted o ho).1]
  constructor
  · intro hexact q
    by_cases hq : q<2^32
    · have htoNat : (BitVec.ofNat 32 q).toNat = q := Nat.mod_eq_of_lt hq
      have hmem := hexact (BitVec.ofNat 32 q)
      rwa [hx.announced,htoNat] at hmem
    · refine iff_of_false ?_ ?_
      · rintro ⟨o,ho,-,hle⟩
        have hlt : (o+1) * p < 2^31 := (hx.evicted o (hx.noticed o ho)).2
        omega
      · rintro ⟨o,ho,rfl,-⟩
        have hlt : (q / p + 1) * p < 2^31 := (hx.evicted _ ho).2
        have hdiv := Nat.lt_div_mul_add hp (a := q)
        rw [Nat.succ_mul] at hlt
        omega
  · intro hexact q
    rw [hx.announced q]
    exact hexact q.toNat

section Example

/-- The cache with the two chunks of channel 1, which has `total` pieces. -/
def twoCached (total : ℕ) : OpenedCache := loaded twoChunksGeometry [] (twoChunks total)

/-- The second chunk is evicted while the notice of the first one waits; its only piece is the
one behind the first chunk. -/
theorem notice_exact_single_piece :
    let x := [NoticeEvent.evict 0 0,.evict 1 1,.call 2 [1]].foldl (Watch.step (.ofString [1]))
      (.start (twoCached 3))
    x.evicted = [1,0] ∧ ∀ q : BitVec 32, q∈x.announced ↔ ∃ o∈x.evicted, q.toNat ∈ chunkPieces 2 3 o := by
  intro x
  have hvalid := (twoChunks_valid (.inl rfl)).resized rfl []
  have hrun : AlongRun (Watch.step (.ofString [1])) (Watch.Timely (.ofString [1])) (.start (twoCached 3))
      ([.evict 0 0,.evict 1 1] ++ [.call 2 [1]]) := by
    refine ⟨⟨le_rfl,by decide +kernel⟩,⟨by decide +kernel,by decide +kernel⟩,
      ⟨by decide +kernel,fun _ => ?_⟩,trivial⟩
    decide +kernel
  have htotal : ∀ c, (twoCached 3).channels (.ofString [1]) = some c →
    c.origPieceCount.read = (3 : ℕ) := by
    intro c hc
    have hread : ((twoCached 3).channels (.ofString [1])).map (·.origPieceCount.read) = some 3 := by
      decide +kernel
    rw [hc] at hread
    exact Option.some.inj hread
  have hexact := notices_exact_iff (reflected_loaded hvalid.lines) (by decide) nofun htotal _ _ hrun
  exact ⟨by decide +kernel,hexact.2.mpr (by decide +kernel)⟩

/-- A notice announces the first piece of the next chunk, which is still cached, and no notice
is kept of a chunk that is evicted while another one waits. -/
theorem notice_not_exact :
    let step := Watch.step (.ofString [1])
    let x := [NoticeEvent.evict 0 0,.call 1 [1]].foldl step (.start (twoCached 4))
    let y := [NoticeEvent.evict 0 0,.evict 1 1,.call 2 [1],.call 3 [1]].foldl step (.start (twoCached 4))
    (x.evicted = [0] ∧ x.announced = [0,1,2] ∧ x.cache.hasPiece [1] 2 = some true) ∧
      y.evicted = [1,0] ∧ y.announced = [0,1,2] := by
  decide +kernel

end Example

end P2Streaming.DiskCache
