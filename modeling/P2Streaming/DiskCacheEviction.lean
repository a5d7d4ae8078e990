import P2Streaming.DiskCacheTables

/-!
# The chunk that is evicted

When the tables reflect the header lines, the search for a chunk to erase ends at a chunk
that is in use: at one of the smallest channel, at the farthest one of the channel that is
written, or, in a full cache, at any.
-/
namespace P2Streaming.DiskCache.OpenedCache
open Finset

variable {s : OpenedCache} {visited : List (ChannelUuid × Bool)} {k : ℕ}

def Reflected (s : OpenedCache) : Prop :=
  s.toTables.Reflects s.geometry.pieceCntPerChunk s.geometry.chunkCnt s.file.lines

/-- A turn of the loop of `smallestChannel`. -/
private def visit (s : OpenedCache) (best : ℕ × Option Channel) (v : ChannelUuid × Bool) :
    ℕ × Option Channel :=
  match s.channels v.1 with
  | none => best
  | some c =>
    if c.cachedChunks.card < best.1 ∨ (best.1 = c.cachedChunks.card ∧ v.2) then
      (c.cachedChunks.card, some c)
    else best

private theorem mem_of_fold {best : ℕ × Option Channel} {c : Channel}
    (h : (visited.foldl s.visit best).2 = some c) : best.2 = some c ∨ ∃ id, s.channels id = some c := by
  induction visited generalizing best with
  | nil => exact .inl h
  | cons v visited ih =>
    rcases ih h with hbest | hmem
    · rw [visit] at hbest
      cases hv : s.channels v.1 with
      | none => exact .inl (by rwa [hv] at hbest)
      | some c' =>
        rw [hv] at hbest
        dsimp only at hbest
        split_ifs at hbest
        · exact .inr ⟨v.1,hv.trans hbest⟩
        · exact .inl hbest
    · exact .inr hmem

theorem channel_of_smallest {c : Channel} (h : (s.smallestChannel visited).2 = some c) :
    ∃ id, s.channels id = some c :=
  (mem_of_fold h).resolve_left nofun

theorem smallestChannel_isSome {v : ChannelUuid × Bool} {c : Channel} (hv : v∈visited)
    (hc : s.channels v.1 = some c) (hcard : c.cachedChunks.card<0xffffff) :
    (s.smallestChannel visited).2.isSome := by
  -- a search that has no channel yet has the initial bound
  suffices hgen : ∀ best : ℕ × Option Channel, (best.2=none → best.1=0xffffff) →
      best.2.isSome ∨ v∈visited → (visited.foldl s.visit best).2.isSome from hgen _ (fun _ => rfl)
        (.inr hv)
  clear hv
  induction visited with
  | nil => exact fun best _ h => h.resolve_right (by simp)
  | cons u visited ih =>
    intro best hbest h
    rw [List.foldl_cons,visit]
    cases hu : s.channels u.1 with
    | none =>
      refine ih best hbest ?_
      rcases h with h | h
      · exact .inl h
      · rcases List.mem_cons.mp h with rfl | h
        · rw [hc] at hu
          exact nomatch hu
        · exact .inr h
    | some c' =>
      dsimp only
      split_ifs with htake
      · exact ih _ nofun (.inl rfl)
      · refine ih best hbest ?_
        rcases h with h | h
        · exact .inl h
        · rcases List.mem_cons.mp h with rfl | h
          · obtain rfl : c=c' := Option.some.inj (hc.symm.trans hu)
            refine .inl (Option.isSome_iff_ne_none.mpr fun hnone => ?_)
            rw [hbest hnone] at htake
            omega
          · exact .inr h

namespace Reflected

variable (h : s.Reflected)
include h

theorem cached_inUse {id : ChannelUuid} {c : Channel} (hc : s.channels id = some c) {o : ℕ}
    (ho : o∈c.cachedChunks) : ∃ ck, s.chunks (c.orgiToCacheChunk o) = some ck := by
  obtain ⟨ck,hck,-⟩ := (h.channel id c hc).cached o ho
  exact ⟨ck,hck⟩

theorem smallestChunk_inUse (hk : s.smallestChunk visited = some k) : ∃ ck, s.chunks k = some ck := by
  unfold smallestChunk at hk
  split at hk
  · exact nomatch hk
  · rename_i c hc
    obtain ⟨id,hid⟩ := channel_of_smallest hc
    split at hk
    · exact nomatch hk
    · rename_i o ho
      split_ifs at hk
      obtain rfl := Option.some.inj hk
      exact h.cached_inUse hid (mem_of_head_ascending ho)

theorem card_cached_lt {id : ChannelUuid} {c : Channel} (hc : s.channels id = some c) :
    c.cachedChunks.card<0xffffff := by
  have hsub : c.cachedChunks ⊆ range (2^16) := by
    intro o ho
    obtain ⟨ck,-,-,hco⟩ := (h.channel id c hc).cached o ho
    exact mem_range.mpr (hco ▸ ck.orig_lt)
  have hle := card_le_card hsub
  rw [card_range] at hle
  omega

theorem smallestChunk_isSome {v : ChannelUuid × Bool} {c : Channel} (hv : v∈visited)
    (hc : s.channels v.1 = some c) : (s.smallestChunk visited).isSome := by
  obtain ⟨c',hc'⟩ := Option.isSome_iff_exists.mp (smallestChannel_isSome hv hc (h.card_cached_lt hc))
  obtain ⟨id,hid⟩ := channel_of_smallest hc'
  have he := h.channel id c' hid
  obtain ⟨o,ho⟩ : ∃ o, (ascending c'.cachedChunks).head? = some o := by
    obtain ⟨a,ha⟩ := he.nonempty
    exact ⟨_,List.head?_eq_some_head (List.ne_nil_of_mem (mem_ascending.mpr ha))⟩
  unfold smallestChunk
  rw [hc']
  dsimp only
  rw [ho]
  dsimp only
  rw [if_pos (he.lt o (mem_of_head_ascending ho))]
  rfl

theorem inUse_of_full (hfull : s.usedChunksCnt=s.geometry.chunkCnt) (hk : k<s.geometry.chunkCnt) :
    ∃ ck, s.chunks k = some ck := by
  obtain ⟨keys,hkeys,hcard⟩ := h.used
  have hsub : keys ⊆ range s.geometry.chunkCnt := by
    intro j hj
    obtain ⟨ck,hck⟩ := Option.isSome_iff_exists.mp ((hkeys j).mp hj)
    exact mem_range.mpr (h.chunk j ck hck).1
  have hall : keys = range s.geometry.chunkCnt :=
    eq_of_subset_of_card_le hsub (by rw [card_range]; omega)
  exact Option.isSome_iff_exists.mp ((hkeys k).mp (hall ▸ mem_range.mpr hk))

theorem findEraseble_inUse_of_full (hfull : s.usedChunksCnt=s.geometry.chunkCnt) (c : Choices) :
    ∃ ck, s.chunks (s.findErasebleChunk c) = some ck := by
  unfold findErasebleChunk
  split
  · rename_i hk
    exact h.smallestChunk_inUse hk
  · have hpos := s.geometry.chunkCnt_pos
    have hnone : s.holeChunks = ∅ := by
      refine eq_empty_of_forall_notMem fun k hk => ?_
      obtain ⟨hlt,hfree⟩ := h.holes k hk
      obtain ⟨ck,hck⟩ := h.inUse_of_full hfull hlt
      rw [hfree] at hck
      exact nomatch hck
    rw [hnone,card_empty,Nat.sub_zero,if_neg (by omega)]
    exact h.inUse_of_full hfull (Nat.mod_lt _ hpos)

end Reflected

theorem farthest_mem (origChunkID first : ℕ) (ids : List ℕ) :
    farthest origChunkID ids first = first ∨ farthest origChunkID ids first ∈ ids := by
  unfold farthest
  induction ids generalizing first with
  | nil => exact .inl rfl
  | cons id ids ih =>
    rw [List.foldl_cons]
    split_ifs
    · rcases ih id with h | h
      · rw [h]
        exact .inr List.mem_cons_self
      · exact .inr (List.mem_cons_of_mem _ h)
    · rcases ih first with h | h
      · exact .inl h
      · exact .inr (List.mem_cons_of_mem _ h)

def Complete (s : OpenedCache) (c : Choices) : Prop :=
  ∀ id, (s.channels id).isSome → id ∈ c.order.map Prod.fst

namespace Reflected

theorem findErasebleFor_inUse (h : s.Reflected) {c : Choices} (hcomplete : s.Complete c)
    (hused : s.usedChunksCnt≠0) (id : ChannelUuid) (o : ℕ) :
    ∃ k ck, s.findErasebleChunkFor c id o = some (some k) ∧ s.chunks k = some ck := by
  have hvisit : ∀ id', (s.channels id').isSome → id'≠id →
      (s.smallestChunk (c.order.filter fun v => v.1 ≠ id)).isSome := by
    intro id' hsome hne
    obtain ⟨v,hv,rfl⟩ := List.mem_map.mp (hcomplete id' hsome)
    obtain ⟨ch,hch⟩ := Option.isSome_iff_exists.mp hsome
    exact h.smallestChunk_isSome (List.mem_filter.mpr ⟨hv,by simpa using hne⟩) hch
  unfold findErasebleChunkFor
  cases hs : s.smallestChunk (c.order.filter fun v => v.1 ≠ id) with
  | some k =>
    obtain ⟨ck,hck⟩ := h.smallestChunk_inUse hs
    exact ⟨k,ck,rfl,hck⟩
  | none =>
    have hown : (s.channels id).isSome := by
      obtain ⟨keys,hkeys,hcard⟩ := h.used
      obtain ⟨k,hk⟩ := card_pos.mp (by omega : 0<keys.card)
      obtain ⟨ck,hck⟩ := Option.isSome_iff_exists.mp ((hkeys k).mp hk)
      obtain ⟨ch,hch,-⟩ := (h.chunk k ck hck).2.channel
      by_cases hsame : (s.file.lines k).id = id
      · rw [← hsame,hch]
        rfl
      · have hfound := hvisit _ (by rw [hch]; rfl) hsame
        rw [hs] at hfound
        exact nomatch hfound
    obtain ⟨ch,hch⟩ := Option.isSome_iff_exists.mp hown
    have he := h.channel id ch hch
    obtain ⟨a,ha⟩ := he.nonempty
    obtain ⟨first,hfirst⟩ : ∃ first, (ascending ch.cachedChunks).head? = some first :=
      ⟨_,List.head?_eq_some_head (List.ne_nil_of_mem (mem_ascending.mpr ha))⟩
    have hsel : farthest o (ascending ch.cachedChunks) first ∈ ch.cachedChunks := by
      rcases farthest_mem o first (ascending ch.cachedChunks) with heq | hmem
      · rw [heq]
        exact mem_of_head_ascending hfirst
      · exact mem_ascending.mp hmem
    obtain ⟨ck,hck⟩ := h.cached_inUse hch hsel
    refine ⟨_,ck,?_,hck⟩
    rw [hch]
    dsimp only
    rw [hfirst]
    exact if_neg (not_le.mpr (he.lt _ hsel))

theorem allocation_spec (h : s.Reflected) (w : Write) {c : Choices}
    (hcomplete : c.canWriteNewChunk=false → s.Complete c) :
    (∃ k ck, s.allocation w c = .evicts k ∧ s.chunks k = some ck) ∨
      (∃ k size, s.allocation w c = .hole k size ∧ k∈s.holeChunks) ∨
      ∃ size, s.allocation w c = .refused size := by
  unfold allocation
  dsimp only
  by_cases hfull : s.usedChunksCnt=s.geometry.chunkCnt
  · rw [if_pos hfull]
    obtain ⟨ck,hck⟩ := h.findEraseble_inUse_of_full hfull c
    exact .inl ⟨_,ck,rfl,hck⟩
  rw [if_neg hfull]
  split
  · rename_i k hf
    exact .inr (.inl ⟨k,_,rfl,mem_of_filter_head hf⟩)
  by_cases hnew : c.canWriteNewChunk=true
  · rw [if_pos hnew]
    split
    · rename_i k hf
      exact .inr (.inl ⟨k,_,rfl,mem_of_filter_head hf⟩)
    · exact .inr (.inr ⟨_,rfl⟩)
  rw [if_neg hnew]
  by_cases hzero : s.usedChunksCnt=0
  · rw [if_pos hzero]
    exact .inr (.inr ⟨_,rfl⟩)
  · rw [if_neg hzero]
    obtain ⟨k,ck,hfind,hck⟩ := h.findErasebleFor_inUse (hcomplete (Bool.not_eq_true _ ▸ hnew)) hzero
      (.ofString w.channelID)
      (s.geometry.origChunkId w.seqno)
    rw [hfind]
    exact .inl ⟨k,ck,rfl,hck⟩

end Reflected

end P2Streaming.DiskCache.OpenedCache
