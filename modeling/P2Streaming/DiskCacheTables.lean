import P2Streaming.DiskCache

/-!
# The tables and the header lines

The tables reflect the header lines when every chunk in memory is the one that the line of
its cache chunk describes, and the arrays of its channel lead to it and back. Taking a hole,
releasing a chunk and loading the file keep this.
-/
namespace P2Streaming.DiskCache
open Function Finset Channel

def Chunk.orig (ck : Chunk) : ℕ := ck.origChunkId.data.toNat

theorem Chunk.orig_lt (ck : Chunk) : ck.orig<2^16 := ck.origChunkId.data.isLt

theorem Chunk.read_of_nonneg {ck : Chunk} (h : 0 ≤ ck.origChunkId.read) :
    ck.origChunkId.read=ck.orig := by
  have hlt := ck.orig_lt
  simp only [Verifiable.read,Chunk.orig,BitVec.toInt_eq_toNat_cond] at h hlt ⊢
  split_ifs at h ⊢ <;> omega

def HeaderLine.Dead (line : HeaderLine) : Prop := line.uuid = .invalid ∨ line.chunk.origChunkId.read<0

theorem HeaderLine.dead_zero : HeaderLine.zero.Dead := .inl (by decide)

/-- The chunk count is the one that a load gets from the piece count. -/
def Channel.Counted (p : ℕ) (c : Channel) : Prop :=
  (ofDisk c.origPieceCount p).map origChunkCount = some c.origChunkCount

def Channel.Fresh (c : Channel) : Prop := c.cachedChunks = ∅ ∧ ∀ o, c.orgiToCacheChunk o = invalidChunkId

namespace Tables

variable {p n k : ℕ} {lines lines' : ℕ → HeaderLine} {t : Tables}

/-- The header line of a cache chunk describes the chunk, and its channel leads to it. -/
structure ChunkEntry (lines : ℕ → HeaderLine) (t : Tables) (k : ℕ) (ck : Chunk) : Prop where
  origChunkId : (lines k).chunk.origChunkId = ck.origChunkId
  good : ck.IsGood
  lineGood : (lines k).chunk.IsGood
  uuid : (lines k).uuid = (lines k).id
  channel : ∃ c, t.channels (lines k).id = some c ∧ c.origPieceCount = (lines k).origPieceCount ∧
    ck.orig∈c.cachedChunks ∧ c.orgiToCacheChunk ck.orig = k ∧ c.cacheToOrigChunk k = ck.orig

structure ChannelEntry (p : ℕ) (lines : ℕ → HeaderLine) (t : Tables) (id : ChannelUuid) (c : Channel) :
    Prop where
  nonempty : c.cachedChunks.Nonempty
  counted : c.Counted p
  lt : ∀ o∈c.cachedChunks, (o : ℤ) < c.origChunkCount
  cached : ∀ o∈c.cachedChunks, ∃ ck, t.chunks (c.orgiToCacheChunk o) = some ck ∧
    (lines (c.orgiToCacheChunk o)).id = id ∧ ck.orig=o
  free : ∀ o : ℕ, (o : ℤ) < c.origChunkCount → o ∉ c.cachedChunks → c.orgiToCacheChunk o = invalidChunkId

structure Reflects (p n : ℕ) (lines : ℕ → HeaderLine) (t : Tables) : Prop where
  chunk : ∀ k ck, t.chunks k = some ck → k<n ∧ ChunkEntry lines t k ck
  channel : ∀ id c, t.channels id = some c → ChannelEntry p lines t id c
  dead : ∀ k<n, t.chunks k = none → (lines k).Dead
  holes : ∀ k∈t.holeChunks, k<n ∧ t.chunks k = none
  used : ∃ keys : Finset ℕ, (∀ k, k∈keys ↔ (t.chunks k).isSome) ∧ t.usedChunksCnt=keys.card

theorem reflects_empty : empty.Reflects p 0 lines :=
  ⟨nofun,nofun,nofun,by simp [empty],∅,by simp [empty],rfl⟩

theorem ChunkEntry.congr {t' : Tables} {ck : Chunk} (h : ChunkEntry lines t k ck)
    (hline : lines' k = lines k)
    (hc : ∃ c, t'.channels (lines k).id = some c ∧ c.origPieceCount = (lines k).origPieceCount ∧
      ck.orig ∈ c.cachedChunks ∧ c.orgiToCacheChunk ck.orig = k ∧ c.cacheToOrigChunk k = ck.orig) :
    ChunkEntry lines' t' k ck where
  origChunkId := by rw [hline]; exact h.origChunkId
  good := h.good
  lineGood := by rw [hline]; exact h.lineGood
  uuid := by rw [hline]; exact h.uuid
  channel := by rw [hline]; exact hc

theorem cached_enter (c : Channel) (k : ℕ) (ck : Chunk) :
    (c.enter k ck.orig).cachedChunks = insert ck.orig c.cachedChunks := by
  change insert (ck.orig % 2^16) c.cachedChunks = _
  rw [Nat.mod_eq_of_lt ck.orig_lt]

theorem cacheToOrig_enter (c : Channel) (k : ℕ) (ck : Chunk) :
    (c.enter k ck.orig).cacheToOrigChunk k = ck.orig := by
  change update _ k (ck.orig % 2^16) k = _
  rw [update_self,Nat.mod_eq_of_lt ck.orig_lt]

namespace Reflects

section
variable (h : t.Reflects p n lines)
include h

theorem chunks_eq_none (hk : n≤k) : t.chunks k = none := by
  cases hc : t.chunks k with
  | none => rfl
  | some ck => exact absurd (h.chunk k ck hc).1 (by omega)

theorem chunk_unique {j : ℕ} {ck ck' : Chunk} (hk : t.chunks k = some ck)
    (hj : t.chunks j = some ck') (hid : (lines k).id = (lines j).id) (ho : ck.orig=ck'.orig) : k=j := by
  obtain ⟨c,hc,-,-,hck,-⟩ := (h.chunk k ck hk).2.channel
  obtain ⟨c',hc',-,-,hcj,-⟩ := (h.chunk j ck' hj).2.channel
  have hsame : c=c' := Option.some.inj (hc.symm.trans (hid ▸ hc'))
  rw [← hck,← hcj,ho,hsame]

theorem enter {n' o : ℕ} {id : ChannelUuid} {c : Channel} {ck : Chunk}
    {holes : Finset ℕ} (horig' : ck.orig=o) (hn : ∀ j, j<n' ↔ j<n ∨ j=k) (hfree : t.chunks k = none)
    (hc : t.channels id = some c ∨ (t.channels id = none ∧ c.Fresh)) (hcounted : c.Counted p)
    (ho : (o : ℤ) < c.origChunkCount) (hnew : o ∉ c.cachedChunks) (hgood : ck.IsGood)
    (hid : (lines' k).id = id) (huuid : (lines' k).uuid = (lines' k).id)
    (hcount : (lines' k).origPieceCount = c.origPieceCount)
    (horig : (lines' k).chunk.origChunkId = ck.origChunkId) (hlgood : (lines' k).chunk.IsGood)
    (hlines : ∀ j≠k, lines' j = lines j) (hholes : ∀ j∈holes, j≠k ∧ j∈t.holeChunks) :
    ({ channels := update t.channels id (some (c.enter k o))
       chunks := update t.chunks k (some ck)
       holeChunks := holes
       usedChunksCnt := t.usedChunksCnt + 1 } : Tables).Reflects p n' lines' where
  chunk j ckj hj := by
    subst horig'
    by_cases hjk : j=k
    · subst hjk
      obtain rfl : ck=ckj := by simpa using hj
      refine ⟨(hn j).mpr (.inr rfl),horig,hgood,hlgood,huuid,c.enter j ck.orig,?_,hcount.symm,?_,?_,?_⟩
      · simp [hid]
      · rw [cached_enter]
        exact mem_insert_self _ _
      · simp [Channel.enter,Channel.keep]
      · exact cacheToOrig_enter c j ck
    · have hj' : t.chunks j = some ckj := (update_of_ne hjk _ _).symm.trans hj
      obtain ⟨hjn,hentry⟩ := h.chunk j ckj hj'
      obtain ⟨c',hc',hpc,hmem,hto,hback⟩ := hentry.channel
      refine ⟨(hn j).mpr (.inl hjn),?_⟩
      by_cases hsame : (lines j).id = id
      · obtain rfl : c=c' := by
          rcases hc with hc | ⟨hc,-⟩
          · exact Option.some.inj (hc.symm.trans (hsame ▸ hc'))
          · rw [← hsame,hc'] at hc
            exact nomatch hc
        have hne : ckj.orig≠ck.orig := fun heq => hnew (heq ▸ hmem)
        refine hentry.congr (hlines j hjk) ⟨c.enter k ck.orig,?_,hpc,?_,?_,?_⟩
        · simp [hsame]
        · exact mem_insert_of_mem hmem
        · exact (update_of_ne hne _ _).trans hto
        · exact (update_of_ne hjk _ _).trans hback
      · exact hentry.congr (hlines j hjk)
          ⟨c',(update_of_ne hsame _ _).trans hc',hpc,hmem,hto,hback⟩
  channel id' c' hc' := by
    subst horig'
    have hother : ∀ {id'' : ChannelUuid} {c'' : Channel} {o : ℕ}, ChannelEntry p lines t id'' c'' →
        o ∈ c''.cachedChunks → ∃ ck', update t.chunks k (some ck) (c''.orgiToCacheChunk o) = some ck' ∧
          (lines' (c''.orgiToCacheChunk o)).id = id'' ∧ ck'.orig=o := by
      intro id'' c'' o hentry hmem
      obtain ⟨ck',hck',hline,horig'⟩ := hentry.cached o hmem
      have hne : c''.orgiToCacheChunk o ≠ k := fun heq => by rw [heq,hfree] at hck'; exact nomatch hck'
      exact ⟨ck',(update_of_ne hne _ _).trans hck',by rw [hlines _ hne]; exact hline,horig'⟩
    by_cases hsame : id'=id
    · subst hsame
      obtain rfl : c.enter k ck.orig = c' := by simpa using hc'
      refine ⟨cached_enter c k ck ▸ insert_nonempty _ _,hcounted,fun o hmem => ?_,fun o hmem => ?_,
        fun o hlt hnot => ?_⟩
      all_goals rw [cached_enter] at *
      · rcases mem_insert.mp hmem with rfl | hmem
        · exact ho
        · rcases hc with hc | ⟨-,hfresh⟩
          · exact (h.channel _ c hc).lt o hmem
          · simp [hfresh.1] at hmem
      · by_cases heq : o=ck.orig
        · subst heq
          exact ⟨ck,by simp [Channel.enter,Channel.keep],
            by simpa [Channel.enter,Channel.keep] using hid,rfl⟩
        · have hmem' := (mem_insert.mp hmem).resolve_left heq
          have hto : (c.enter k ck.orig).orgiToCacheChunk o = c.orgiToCacheChunk o :=
            update_of_ne heq _ _
          rcases hc with hc | ⟨-,hfresh⟩
          · obtain ⟨ck',hck',hrest⟩ := hother (h.channel _ c hc) hmem'
            exact ⟨ck',by rw [hto]; exact hck',by rw [hto]; exact hrest⟩
          · simp [hfresh.1] at hmem'
      · rw [mem_insert,not_or] at hnot
        refine (update_of_ne hnot.1 _ _).trans ?_
        rcases hc with hc | ⟨-,hfresh⟩
        · exact (h.channel _ c hc).free o hlt hnot.2
        · exact hfresh.2 o
    · have hold : t.channels id' = some c' := (update_of_ne hsame _ _).symm.trans hc'
      have hentry := h.channel id' c' hold
      exact ⟨hentry.nonempty,hentry.counted,hentry.lt,fun o hmem => hother hentry hmem,hentry.free⟩
  dead j hj hnone := by
    have hjk : j≠k := fun heq => by simp [heq] at hnone
    rw [hlines j hjk]
    exact h.dead j (((hn j).mp hj).resolve_right hjk) ((update_of_ne hjk _ _).symm.trans hnone)
  holes j hj := by
    obtain ⟨hjk,hmem⟩ := hholes j hj
    obtain ⟨hlt,hnone⟩ := h.holes j hmem
    exact ⟨(hn j).mpr (.inl hlt),(update_of_ne hjk _ _).trans hnone⟩
  used := by
    obtain ⟨keys,hkeys,hcard⟩ := h.used
    refine ⟨insert k keys,fun j => ?_,?_⟩
    · by_cases hjk : j = k <;> simp [hjk,hkeys]
    · rw [card_insert_of_notMem (by simp [hkeys,hfree]),hcard]

theorem release {ck : Chunk} {c : Channel} (hk : t.chunks k = some ck)
    (hc : t.channels (lines k).id = some c) (hdead : (lines' k).Dead)
    (hlines : ∀ j≠k, lines' j = lines j) :
    ({ channels := update t.channels (lines k).id
         (if (c.drop k).cachedChunks = ∅ then none else some (c.drop k))
       chunks := update t.chunks k none
       holeChunks := insert k t.holeChunks
       usedChunksCnt := t.usedChunksCnt - 1 } : Tables).Reflects p n lines' := by
  obtain ⟨hkn,hentry⟩ := h.chunk k ck hk
  obtain ⟨c',hc',-,hmem,hto,hback⟩ := hentry.channel
  obtain rfl : c=c' := Option.some.inj (hc.symm.trans hc')
  have hdrop : (c.drop k).cachedChunks = c.cachedChunks.erase ck.orig := by
    simp [drop,hback]
  have hdropTo {o : ℕ} (ho : o≠ck.orig) : (c.drop k).orgiToCacheChunk o = c.orgiToCacheChunk o := by
    simp [drop,hback,ho]
  have hsome {c' : Channel} (heq : (if (c.drop k).cachedChunks = ∅ then none else some (c.drop k)) =
    some c') :
      c' = c.drop k ∧ (c.drop k).cachedChunks.Nonempty := by
    split_ifs at heq with hempty
    exact ⟨(Option.some.inj heq).symm,nonempty_iff_ne_empty.mpr hempty⟩
  refine ⟨fun j ckj hj => ?_,fun id' c' hc' => ?_,fun j hj hnone => ?_,fun j hj => ?_,?_⟩
  · have hjk : j≠k := fun heq => by simp [heq] at hj
    have hj' : t.chunks j = some ckj := (update_of_ne hjk _ _).symm.trans hj
    obtain ⟨hjn,hje⟩ := h.chunk j ckj hj'
    obtain ⟨cj,hcj,hpc,hmj,htj,hbj⟩ := hje.channel
    refine ⟨hjn,hje.congr (hlines j hjk) ?_⟩
    by_cases hsame : (lines j).id = (lines k).id
    · obtain rfl : c=cj := Option.some.inj (hc.symm.trans (hsame ▸ hcj))
      have hne : ckj.orig≠ck.orig := fun heq => hjk (h.chunk_unique hj' hk hsame heq)
      have hmem' : ckj.orig ∈ (c.drop k).cachedChunks := by
        rw [hdrop]
        exact mem_erase.mpr ⟨hne,hmj⟩
      have hne' : (c.drop k).cachedChunks ≠ ∅ := nonempty_iff_ne_empty.mp ⟨_,hmem'⟩
      refine ⟨c.drop k,?_,hpc,hmem',(hdropTo hne).trans htj,?_⟩
      · change update _ _ _ _ = _
        rw [hsame,update_self,if_neg hne']
      · exact (update_of_ne hjk _ _).trans hbj
    · exact ⟨cj,(update_of_ne hsame _ _).trans hcj,hpc,hmj,htj,hbj⟩
  · have hother : ∀ {id'' : ChannelUuid} {c'' : Channel} {o : ℕ}, ChannelEntry p lines t id'' c'' →
        o ∈ c''.cachedChunks → (id'' ≠ (lines k).id ∨ o≠ck.orig) →
        ∃ ck', update t.chunks k none (c''.orgiToCacheChunk o) = some ck' ∧
          (lines' (c''.orgiToCacheChunk o)).id = id'' ∧ ck'.orig=o := by
      intro id'' c'' o hentry hmem hne
      obtain ⟨ck',hck',hline,horig'⟩ := hentry.cached o hmem
      have hnek : c''.orgiToCacheChunk o ≠ k := by
        intro heq
        rw [heq] at hck' hline
        obtain rfl : ck=ck' := Option.some.inj (hk.symm.trans hck')
        rcases hne with hne | hne
        · exact hne hline.symm
        · exact hne horig'.symm
      exact ⟨ck',(update_of_ne hnek _ _).trans hck',by rw [hlines _ hnek]; exact hline,horig'⟩
    by_cases hsame : id' = (lines k).id
    · subst hsame
      obtain ⟨rfl,hne⟩ := hsome (by simpa only [update_self] using hc')
      have he := h.channel _ c hc
      refine ⟨hne,he.counted,fun o ho => ?_,fun o ho => ?_,fun o hlt hnot => ?_⟩
      all_goals rw [hdrop,mem_erase] at *
      · exact he.lt o ho.2
      · rw [hdropTo ho.1]
        exact hother he ho.2 (.inr ho.1)
      · by_cases heq : o=ck.orig
        · rw [heq]
          simp [drop,hback]
        · rw [hdropTo heq]
          exact he.free o hlt fun hmo => hnot ⟨heq,hmo⟩
    · have hold : t.channels id' = some c' := (update_of_ne hsame _ _).symm.trans hc'
      have he := h.channel id' c' hold
      exact ⟨he.nonempty,he.counted,he.lt,fun o ho => hother he ho (.inl hsame),he.free⟩
  · by_cases hjk : j=k
    · exact hjk ▸ hdead
    · rw [hlines j hjk]
      exact h.dead j hj ((update_of_ne hjk _ _).symm.trans hnone)
  · rcases mem_insert.mp hj with rfl | hmj
    · exact ⟨hkn,update_self ..⟩
    · obtain ⟨hlt,hnone⟩ := h.holes j hmj
      have hjk : j≠k := fun heq => by rw [heq,hk] at hnone; exact nomatch hnone
      exact ⟨hlt,(update_of_ne hjk _ _).trans hnone⟩
  · obtain ⟨keys,hkeys,hcard⟩ := h.used
    refine ⟨keys.erase k,fun j => ?_,?_⟩
    · by_cases hjk : j = k <;> simp [hjk,hkeys]
    · rw [card_erase_of_mem ((hkeys k).mpr (by simp [hk])),hcard]

theorem replace {ck ck' : Chunk} (hk : t.chunks k = some ck)
    (hgood : ck'.IsGood) (ho : ck'.origChunkId=ck.origChunkId) (hid : (lines' k).id = (lines k).id)
    (hcount : (lines' k).origPieceCount = (lines k).origPieceCount)
    (horig : (lines' k).chunk.origChunkId = (lines k).chunk.origChunkId)
    (hlgood : (lines' k).chunk.IsGood) (hlines : ∀ j≠k, lines' j = lines j) :
    ({ t with chunks := update t.chunks k (some ck') } : Tables).Reflects p n lines' := by
  have horig' : ck'.orig=ck.orig := by rw [Chunk.orig,ho,Chunk.orig]
  have hids (j : ℕ) : (lines' j).id = (lines j).id := by
    by_cases hjk : j=k
    · exact hjk ▸ hid
    · rw [hlines j hjk]
  refine ⟨fun j ckj hj => ?_,fun id c hc => ?_,fun j hj hnone => ?_,fun j hj => ?_,?_⟩
  · by_cases hjk : j=k
    · subst hjk
      obtain rfl : ck'=ckj := by simpa using hj
      obtain ⟨hjn,he⟩ := h.chunk j ck hk
      refine ⟨hjn,by rw [horig,ho]; exact he.origChunkId,hgood,hlgood,?_,?_⟩
      · have huuid := he.uuid
        rw [HeaderLine.uuid] at huuid ⊢
        rw [hid,huuid]
      · rw [hid,hcount,horig']
        exact he.channel
    · obtain ⟨hjn,he⟩ := h.chunk j ckj ((update_of_ne hjk _ _).symm.trans hj)
      exact ⟨hjn,he.congr (hlines j hjk) he.channel⟩
  · have he := h.channel id c hc
    refine ⟨he.nonempty,he.counted,he.lt,fun o hmem => ?_,he.free⟩
    obtain ⟨cko,hcko,hline,hoo⟩ := he.cached o hmem
    by_cases hjk : c.orgiToCacheChunk o = k
    · rw [hjk] at hcko hline ⊢
      obtain rfl : ck=cko := Option.some.inj (hk.symm.trans hcko)
      exact ⟨ck',update_self ..,by rw [hid]; exact hline,horig'.trans hoo⟩
    · exact ⟨cko,(update_of_ne hjk _ _).trans hcko,by rw [hids]; exact hline,hoo⟩
  · have hjk : j≠k := fun heq => by simp [heq] at hnone
    rw [hlines j hjk]
    exact h.dead j hj ((update_of_ne hjk _ _).symm.trans hnone)
  · obtain ⟨hlt,hnone⟩ := h.holes j hj
    have hjk : j≠k := fun heq => by rw [heq,hk] at hnone; exact nomatch hnone
    exact ⟨hlt,(update_of_ne hjk _ _).trans hnone⟩
  · obtain ⟨keys,hkeys,hcard⟩ := h.used
    refine ⟨keys,fun j => ?_,hcard⟩
    by_cases hjk : j=k
    · simp [hjk,hkeys,hk]
    · simp [hjk,hkeys]

theorem pass (hdead : (lines n).Dead) {holes : Finset ℕ}
    (hholes : holes ⊆ insert n t.holeChunks) :
    ({ t with holeChunks := holes } : Tables).Reflects p (n+1) lines where
  chunk k ck hk := by
    obtain ⟨hkn,he⟩ := h.chunk k ck hk
    exact ⟨by omega,he.congr rfl he.channel⟩
  channel id c hc := by
    have he := h.channel id c hc
    exact ⟨he.nonempty,he.counted,he.lt,he.cached,he.free⟩
  dead k hk hnone := by
    rcases Nat.lt_succ_iff_lt_or_eq.mp hk with hlt | rfl
    · exact h.dead k hlt hnone
    · exact hdead
  holes k hk := by
    rcases mem_insert.mp (hholes hk) with rfl | hmem
    · exact ⟨by omega,h.chunks_eq_none le_rfl⟩
    · obtain ⟨hlt,hnone⟩ := h.holes k hmem
      exact ⟨by omega,hnone⟩
  used := h.used

end

end Reflects

/-- The header lines from which a load gets back what they were written for. -/
structure Loadable (p n : ℕ) (lines : ℕ → HeaderLine) : Prop where
  line : ∀ k<n, ¬ (lines k).Dead → (lines k).uuid = (lines k).id ∧ (lines k).chunk.IsGood ∧
    ∃ c, ofDisk (lines k).origPieceCount p = some c ∧
      (lines k).chunk.origChunkId.read < c.origChunkCount
  count : ∀ k<n, ∀ j<n, ¬ (lines k).Dead → ¬ (lines j).Dead → (lines k).id = (lines j).id →
    (lines k).origPieceCount = (lines j).origPieceCount
  unique : ∀ k<n, ∀ j<n, ¬ (lines k).Dead → ¬ (lines j).Dead → (lines k).id = (lines j).id →
    (lines k).chunk.orig = (lines j).chunk.orig → k=j

theorem ofDisk_spec {v : Verifiable 4} {c : Channel} (h : ofDisk v p = some c) :
    c.origPieceCount=v ∧ c.Fresh ∧ v.IsValid := by
  unfold ofDisk at h
  dsimp only at h
  split_ifs at h with hbad
  obtain rfl := Option.some.inj h
  rw [not_or,not_not] at hbad
  exact ⟨rfl,⟨rfl,fun _ => rfl⟩,hbad.1⟩

theorem Reflects.loadable (h : t.Reflects p n lines) : Loadable p n lines := by
  have entry : ∀ k<n, ¬ (lines k).Dead → ∃ ck, t.chunks k = some ck ∧ ChunkEntry lines t k ck := by
    intro k hk hlive
    cases hc : t.chunks k with
    | none => exact absurd (h.dead k hk hc) hlive
    | some ck => exact ⟨ck,rfl,(h.chunk k ck hc).2⟩
  have horig {k : ℕ} {ck : Chunk} (he : ChunkEntry lines t k ck) : (lines k).chunk.orig = ck.orig := by
    rw [Chunk.orig,he.origChunkId,Chunk.orig]
  refine ⟨fun k hk hlive => ?_,fun k hk j hj hlk hlj hid => ?_,fun k hk j hj hlk hlj hid ho => ?_⟩
  · obtain ⟨ck,-,he⟩ := entry k hk hlive
    obtain ⟨c,hc,hpc,hmem,-⟩ := he.channel
    have hchannel := h.channel _ c hc
    obtain ⟨c₀,hd,hcount⟩ := Option.map_eq_some_iff.mp hchannel.counted
    rw [hpc] at hd
    refine ⟨he.uuid,he.lineGood,c₀,hd,?_⟩
    rw [HeaderLine.Dead,not_or,not_lt] at hlive
    rw [Chunk.read_of_nonneg hlive.2,horig he,hcount]
    exact hchannel.lt _ hmem
  · obtain ⟨ck,-,he⟩ := entry k hk hlk
    obtain ⟨ck',-,he'⟩ := entry j hj hlj
    obtain ⟨c,hc,hpc,-⟩ := he.channel
    obtain ⟨c',hc',hpc',-⟩ := he'.channel
    obtain rfl : c=c' := Option.some.inj (hc.symm.trans (hid ▸ hc'))
    rw [← hpc,← hpc']
  · obtain ⟨ck,hck,he⟩ := entry k hk hlk
    obtain ⟨ck',hck',he'⟩ := entry j hj hlj
    refine h.chunk_unique hck hck' hid ?_
    rw [← horig he,← horig he',ho]

theorem loadLine_of_dead (h : t.Reflects p n lines) (hdead : (lines n).Dead) :
    (loadLine p lines t n).Reflects p (n+1) lines ∧ (loadLine p lines t n).chunks = t.chunks := by
  have hole : (t.addHole n).Reflects p (n+1) lines := h.pass hdead subset_rfl
  unfold loadLine
  by_cases hid : (lines n).uuid = .invalid
  · rw [if_pos hid]
    exact ⟨hole,rfl⟩
  rw [if_neg hid]
  have hmisfit (count : ℤ) : ¬ (lines n).Fits count := by
    have hneg := hdead.resolve_left hid
    exact fun hf => absurd hf.2.1 (by omega)
  cases hc : t.channels (lines n).uuid with
  | some c =>
    rw [Option.some_or]
    dsimp only
    rw [if_neg (hmisfit _),if_neg (nonempty_iff_ne_empty.mp (h.channel _ c hc).nonempty)]
    exact ⟨h.pass hdead (subset_insert _ _),rfl⟩
  | none =>
    rw [Option.none_or]
    cases hd : ofDisk (lines n).origPieceCount p with
    | none => exact ⟨hole,rfl⟩
    | some c =>
      have hsame : update t.channels (lines n).uuid none = t.channels := by
        rw [← hc,update_eq_self]
      dsimp only
      rw [if_neg (hmisfit _),if_pos (ofDisk_spec hd).2.1.1,setChannel,hsame]
      exact ⟨hole,rfl⟩

/-- A load gets back the chunks of the lines that are not dead. -/
theorem reflects_load (h : Loadable p n lines) : (load p lines n).Reflects p n lines ∧
      ∀ k ck, (load p lines n).chunks k = some ck → ck = (lines k).chunk ∧ ¬ (lines k).Dead := by
  have hloaded : ∀ i≤n, (load p lines i).Reflects p i lines ∧
      ∀ k ck, (load p lines i).chunks k = some ck → ck = (lines k).chunk ∧ ¬ (lines k).Dead := by
    intro i
    induction i with
    | zero => exact fun _ => ⟨reflects_empty,nofun⟩
    | succ i ih =>
      intro hi
      obtain ⟨hr,hsame⟩ := ih (by omega)
      have hstep : load p lines (i+1) = loadLine p lines (load p lines i) i := by
        simp [load,List.range_succ]
      rw [hstep]
      generalize load p lines i = t at hr hsame
      by_cases hdead : (lines i).Dead
      · obtain ⟨hr',hchunks⟩ := loadLine_of_dead hr hdead
        exact ⟨hr',by rw [hchunks]; exact hsame⟩
      obtain ⟨huuid,hgood,c₀,hd,hlt⟩ := h.line i (by omega) hdead
      obtain ⟨hpc₀,hfresh,-⟩ := ofDisk_spec hd
      have hlive := hdead
      rw [HeaderLine.Dead,not_or,not_lt] at hlive
      have hread := Chunk.read_of_nonneg hlive.2
      have htoNat : (lines i).chunk.origChunkId.read.toNat = (lines i).chunk.orig := by rw [hread]; rfl
      -- the channel, found or made, has the count of the line and not yet its chunk
      have hchannel : ∃ c, (t.channels (lines i).uuid).or (ofDisk (lines i).origPieceCount p) = some c ∧
          (t.channels (lines i).uuid = some c ∨ (t.channels (lines i).uuid = none ∧ c.Fresh)) ∧
          c.origPieceCount = (lines i).origPieceCount ∧ c.origChunkCount=c₀.origChunkCount ∧
          c.Counted p ∧ (lines i).chunk.orig ∉ c.cachedChunks := by
        cases hc : t.channels (lines i).uuid with
        | none =>
          refine ⟨c₀,by rw [Option.none_or,hd],.inr ⟨rfl,hfresh⟩,hpc₀,rfl,?_,by simp [hfresh.1]⟩
          rw [Channel.Counted,hpc₀,hd,Option.map_some]
        | some c =>
          have he := hr.channel _ c hc
          obtain ⟨o,ho⟩ := he.nonempty
          obtain ⟨ck,hck,hid,-⟩ := he.cached o ho
          obtain ⟨hji,hce⟩ := hr.chunk _ ck hck
          obtain ⟨c',hc',hpc,-⟩ := hce.channel
          obtain rfl : c=c' := Option.some.inj (hc.symm.trans (hid ▸ hc'))
          have hpc' : c.origPieceCount = (lines i).origPieceCount := by
            rw [hpc]
            exact h.count _ (by omega) i (by omega) (hsame _ ck hck).2 hdead (hid.trans huuid)
          have hcount : c.origChunkCount=c₀.origChunkCount := by
            have hcounted := he.counted
            rw [Channel.Counted,hpc',hd,Option.map_some] at hcounted
            exact (Option.some.inj hcounted).symm
          refine ⟨c,Option.some_or,.inl rfl,hpc',hcount,he.counted,fun hmem => ?_⟩
          obtain ⟨ckj,hckj,hidj,hoj⟩ := he.cached _ hmem
          obtain ⟨hlt,-⟩ := hr.chunk _ ckj hckj
          obtain ⟨hckeq,hlivej⟩ := hsame _ ckj hckj
          have := h.unique _ (by omega) i (by omega) hlivej hdead (hidj.trans huuid) (by rw [← hckeq,hoj])
          omega
      obtain ⟨c,hor,hc,hpc,hcount,hcounted,hnew⟩ := hchannel
      have hfit : (lines i).Fits c.origChunkCount := ⟨hgood,hlive.2,by rw [hcount]; exact hlt⟩
      have hload : loadLine p lines t i = t.addChunk i (lines i) c := by
        unfold loadLine
        rw [if_neg hlive.1,hor]
        exact if_pos hfit
      rw [hload,addChunk,htoNat]
      refine ⟨hr.enter rfl (fun j => Nat.lt_succ_iff_lt_or_eq)
        (hr.chunks_eq_none le_rfl) hc hcounted ?_ hnew hgood
        huuid.symm huuid hpc.symm rfl hgood (fun _ _ => rfl) (fun j hj => ?_),fun k ck hk => ?_⟩
      · rw [hcount,← hread]
        exact hlt
      · have := (hr.holes j hj).1
        exact ⟨by omega,hj⟩
      · by_cases hki : k=i
        · subst hki
          obtain rfl : (lines k).chunk = ck := by simpa using hk
          exact ⟨rfl,hdead⟩
        · exact hsame k ck ((update_of_ne hki _ _).symm.trans hk)
  exact hloaded n le_rfl

end Tables

end P2Streaming.DiskCache
