import P2Streaming.DiskCache
import P2Streaming.TransitionRuns

/-!
# The accounting of cache chunks

Every cache chunk is either a hole or in use, and `used_chunks_cnt_` counts the latter.
Loading keeps the account unless a header line is rejected behind a good line of the same
channel, and a later call keeps it unless it erases a chunk that is not in use.
-/
namespace P2Streaming.DiskCache
open TransitionRuns Function Finset

section Slots

variable {α : Type*} (slots : ℕ → Option α) (n : ℕ)

/-- The empty slots below `n`. -/
def vacant : Finset ℕ := (range n).filter fun i => (slots i).isNone

/-- The filled slots below `n`. -/
def occupied : Finset ℕ := (range n).filter fun i => (slots i).isSome

variable {slots n}

theorem card_occupied_add_card_vacant : (occupied slots n).card + (vacant slots n).card = n := by
  have h := card_filter_add_card_filter_not (s := range n) (fun i => (slots i).isSome = true)
  simpa [occupied,vacant] using h

theorem vacant_update_some (k : ℕ) (x : α) :
    vacant (update slots k (some x)) n = (vacant slots n).erase k := by
  ext i
  by_cases h : i = k <;> simp [vacant,h]

theorem vacant_update_none {k : ℕ} (hk : k<n) :
    vacant (update slots k none) n = insert k (vacant slots n) := by
  ext i
  by_cases h : i = k <;> simp [vacant,h,hk]

theorem occupied_update_some {k : ℕ} (hk : k<n) (x : α) :
    occupied (update slots k (some x)) n = insert k (occupied slots n) := by
  ext i
  by_cases h : i = k <;> simp [occupied,h,hk]

theorem occupied_update_none (k : ℕ) : occupied (update slots k none) n = (occupied slots n).erase k := by
  ext i
  by_cases h : i = k <;> simp [occupied,h]

theorem vacant_succ_of_none (h : slots n = none) : vacant slots (n+1) = insert n (vacant slots n) := by
  simp [vacant,range_add_one,filter_insert,h]

theorem occupied_succ_of_none (h : slots n = none) : occupied slots (n+1) = occupied slots n := by
  simp [occupied,range_add_one,filter_insert,h]

end Slots

namespace Tables

/-- The account of the first `n` cache chunks is right, and there are no others. -/
structure Accounted (t : Tables) (n : ℕ) : Prop where
  holes : t.holeChunks = vacant t.chunks n
  used : t.usedChunksCnt = (occupied t.chunks n).card
  beyond : ∀ k, n≤k → t.chunks k = none

namespace Accounted

variable {t : Tables} {n : ℕ}

theorem total (h : t.Accounted n) : t.usedChunksCnt+t.holeChunks.card=n := by
  rw [h.used,h.holes,card_occupied_add_card_vacant]

theorem empty_zero : empty.Accounted 0 := ⟨rfl,rfl,fun _ _ => rfl⟩

theorem lt_of_some (h : t.Accounted n) {k : ℕ} (hk : (t.chunks k).isSome) : k<n := by
  by_contra hlt
  simp [h.beyond k (by omega)] at hk

theorem congr {t' : Tables} (h : t.Accounted n) (hc : t'.chunks=t.chunks)
    (hh : t'.holeChunks=t.holeChunks) (hu : t'.usedChunksCnt=t.usedChunksCnt) : t'.Accounted n :=
  ⟨by rw [hh,hc,h.holes],by rw [hu,hc,h.used],by rw [hc]; exact h.beyond⟩

variable {channels : ChannelUuid → Option Channel}

section
variable (h : t.Accounted n)
include h

theorem succ_hole :
    ({ t with channels := channels, holeChunks := insert n t.holeChunks } : Tables).Accounted (n+1) where
  holes := by rw [vacant_succ_of_none (h.beyond n le_rfl),h.holes]
  used := by rw [occupied_succ_of_none (h.beyond n le_rfl),h.used]
  beyond k hk := h.beyond k (by omega)

theorem succ_used (ck : Chunk) :
    ({ t with
      channels := channels
      chunks := update t.chunks n (some ck)
      usedChunksCnt := t.usedChunksCnt + 1 } : Tables).Accounted (n+1) where
  holes := by
    rw [vacant_update_some,vacant_succ_of_none (h.beyond n le_rfl),erase_insert (by simp [vacant]),
      h.holes]
  used := by
    rw [occupied_update_some (by omega),occupied_succ_of_none (h.beyond n le_rfl),
      card_insert_of_notMem (by simp [occupied]),h.used]
  beyond k hk := (update_of_ne (by omega) _ _).trans (h.beyond k (by omega))

theorem take {k : ℕ}
    (hk : k∈t.holeChunks) (ck : Chunk) :
    ({ channels := channels
       chunks := update t.chunks k (some ck)
       holeChunks := t.holeChunks.erase k
       usedChunksCnt := t.usedChunksCnt + 1 } : Tables).Accounted n := by
  rw [h.holes,vacant,mem_filter,mem_range] at hk
  refine ⟨by rw [vacant_update_some,h.holes],?_,fun j hj => ?_⟩
  · have hnot : k ∉ occupied t.chunks n := by
      rw [occupied,mem_filter,Option.isNone_iff_eq_none.mp hk.2]
      simp
    rw [occupied_update_some hk.1,card_insert_of_notMem hnot,h.used]
  · exact (update_of_ne (by omega) _ _).trans (h.beyond j hj)

theorem release {k : ℕ}
    (hk : (t.chunks k).isSome) :
    ({ channels := channels
       chunks := update t.chunks k none
       holeChunks := insert k t.holeChunks
       usedChunksCnt := t.usedChunksCnt - 1 } : Tables).Accounted n := by
  have hlt := h.lt_of_some hk
  refine ⟨by rw [vacant_update_none hlt,h.holes],?_,fun j hj => ?_⟩
  · have hmem : k ∈ occupied t.chunks n := mem_filter.mpr ⟨mem_range.mpr hlt,hk⟩
    rw [occupied_update_none,card_erase_of_mem hmem,h.used]
  · exact (update_of_ne (by omega) _ _).trans (h.beyond j hj)

theorem replace {k : ℕ} (hk : (t.chunks k).isSome) (ck : Chunk) :
    ({ t with channels := channels, chunks := update t.chunks k (some ck) } : Tables).Accounted n := by
  have hlt := h.lt_of_some hk
  have hmem : k ∈ occupied t.chunks n := mem_filter.mpr ⟨mem_range.mpr hlt,hk⟩
  have hnot : k ∉ vacant t.chunks n := by
    rw [vacant,mem_filter,Option.isNone_iff_eq_none]
    exact fun hn => by simp [hn.2] at hk
  refine ⟨by rw [vacant_update_some,erase_eq_of_notMem hnot,h.holes],
    by rw [occupied_update_some hlt,insert_eq_of_mem hmem,h.used],fun j hj => ?_⟩
  exact (update_of_ne (by omega) _ _).trans (h.beyond j hj)

end

end Accounted

end Tables

namespace HeaderLine

def chunkCount (pieceCntPerChunk : ℕ) (l : HeaderLine) : Option ℤ :=
  (Channel.ofDisk l.origPieceCount pieceCntPerChunk).map Channel.origChunkCount

/-- The line names a channel, and its chunk is one of the channel as the line describes it. -/
def IsGood (pieceCntPerChunk : ℕ) (l : HeaderLine) : Prop :=
  l.uuid ≠ .invalid ∧ ∃ count ∈ l.chunkCount pieceCntPerChunk, l.Fits count

instance (p : ℕ) (l : HeaderLine) : Decidable (l.IsGood p) := inferInstanceAs (Decidable (_ ∧ _))

end HeaderLine

variable {p : ℕ} {lines : ℕ → HeaderLine}

def FirstGood (p : ℕ) (lines : ℕ → HeaderLine) (j : ℕ) : Prop :=
  (lines j).IsGood p ∧ ∀ i<j, (lines i).uuid = (lines j).uuid → ¬ (lines i).IsGood p

instance (j : ℕ) : Decidable (FirstGood p lines j) := inferInstanceAs (Decidable (_ ∧ _))

/-- Behind the first good line of a channel, the lines of the channel hold chunks of it. -/
def CleanLines (p : ℕ) (lines : ℕ → HeaderLine) (n : ℕ) : Prop :=
  ∀ i<n, ∀ j < i, (lines j).uuid = (lines i).uuid → FirstGood p lines j →
    ∀ count ∈ (lines j).chunkCount p, (lines i).Fits count

instance (n : ℕ) : Decidable (CleanLines p lines n) :=
  inferInstanceAs (Decidable (∀ _<n, _))

theorem Channel.cachedChunks_ofDisk {v : Verifiable 4} {c : Channel} (h : Channel.ofDisk v p = some c) :
    c.cachedChunks = ∅ := by
  unfold Channel.ofDisk at h
  dsimp only at h
  split_ifs at h
  obtain rfl := Option.some.inj h
  rfl

namespace Tables

variable {t : Tables} {i : ℕ}

structure Traced (p : ℕ) (lines : ℕ → HeaderLine) (i : ℕ) (t : Tables) : Prop where
  absent : ∀ id, t.channels id = none → ∀ j < i, (lines j).uuid = id → ¬ (lines j).IsGood p
  present : ∀ id c, t.channels id = some c → id ≠ .invalid ∧
    ∃ j < i, (lines j).uuid = id ∧ FirstGood p lines j ∧ (lines j).chunkCount p = some c.origChunkCount

theorem loadLine_eq (hfit : ∀ c, t.channels (lines i).uuid = some c → (lines i).Fits c.origChunkCount) :
    (((lines i).uuid = .invalid ∨ (t.channels (lines i).uuid = none ∧ ¬ (lines i).IsGood p)) ∧
      loadLine p lines t i = t.addHole i) ∨
    ∃ c, (lines i).uuid ≠ .invalid ∧ (lines i).Fits c.origChunkCount ∧
      (t.channels (lines i).uuid = some c ∨ (t.channels (lines i).uuid = none ∧
        Channel.ofDisk (lines i).origPieceCount p = some c)) ∧
      loadLine p lines t i = t.addChunk i (lines i) c := by
  unfold Tables.loadLine
  by_cases hid : (lines i).uuid = .invalid
  · exact .inl ⟨.inl hid,if_pos hid⟩
  rw [if_neg hid]
  cases hc : t.channels (lines i).uuid with
  | some c =>
    rw [Option.some_or]
    dsimp only
    rw [if_pos (hfit c hc)]
    exact .inr ⟨c,hid,hfit c hc,.inl rfl,rfl⟩
  | none =>
    rw [Option.none_or]
    cases hd : Channel.ofDisk (lines i).origPieceCount p with
    | none => exact .inl ⟨.inr ⟨rfl,fun hg => by
      simp [HeaderLine.IsGood,HeaderLine.chunkCount,hd] at hg⟩,rfl⟩
    | some c =>
      dsimp only
      by_cases hf : (lines i).Fits c.origChunkCount
      · rw [if_pos hf]
        exact .inr ⟨c,hid,hf,.inr ⟨rfl,rfl⟩,rfl⟩
      · rw [if_neg hf,if_pos (Channel.cachedChunks_ofDisk hd)]
        refine .inl ⟨.inr ⟨rfl,fun hg => hf ?_⟩,?_⟩
        · simpa [HeaderLine.IsGood,HeaderLine.chunkCount,hd,hid] using hg
        · have hsame : update t.channels (lines i).uuid none = t.channels := by
            rw [← hc,update_eq_self]
          rw [setChannel,hsame]

theorem Accounted.loadLine (h : t.Accounted i)
    (hfit : ∀ c, t.channels (lines i).uuid = some c → (lines i).Fits c.origChunkCount) :
    (loadLine p lines t i).Accounted (i+1) := by
  rcases loadLine_eq (p := p) hfit with ⟨-,heq⟩ | ⟨c,-,-,-,heq⟩
  · rw [heq]
    exact h.succ_hole
  · rw [heq]
    exact h.succ_used _

theorem Traced.loadLine (h : t.Traced p lines i)
    (hfit : ∀ c, t.channels (lines i).uuid = some c → (lines i).Fits c.origChunkCount) :
    (loadLine p lines t i).Traced p lines (i+1) := by
  rcases loadLine_eq (p := p) hfit with ⟨hbad,heq⟩ | ⟨c,hid,hf,hc,heq⟩
  · rw [heq]
    refine ⟨fun id hn j hj hju => ?_,fun id c hs => ?_⟩
    · rcases Nat.lt_succ_iff_lt_or_eq.mp hj with hlt | rfl
      · exact h.absent id hn j hlt hju
      · rcases hbad with hinv | hbad
        · exact fun hg => hg.1 hinv
        · exact hbad.2
    · obtain ⟨hne,j,hj,hrest⟩ := h.present id c hs
      exact ⟨hne,j,by omega,hrest⟩
  · rw [heq]
    refine ⟨fun id hn j hj hju => ?_,fun id c' hs => ?_⟩
    · by_cases hsame : id = (lines i).uuid
      · simp [hsame,addChunk] at hn
      · have hn' : t.channels id = none := (update_of_ne hsame _ _).symm.trans hn
        rcases Nat.lt_succ_iff_lt_or_eq.mp hj with hlt | rfl
        · exact h.absent id hn' j hlt hju
        · exact absurd hju.symm hsame
    · by_cases hsame : id = (lines i).uuid
      · subst hsame
        have hcount : c'.origChunkCount=c.origChunkCount := by
          simp only [addChunk,update_self,Option.some.injEq] at hs
          exact hs ▸ rfl
        refine ⟨hid,?_⟩
        rcases hc with hc | ⟨hn,hd⟩
        · obtain ⟨-,j,hj,hju,hfirst,hjc⟩ := h.present _ c hc
          exact ⟨j,by omega,hju,hfirst,by rw [hjc,hcount]⟩
        · have hown : (lines i).chunkCount p = some c.origChunkCount := by
            rw [HeaderLine.chunkCount,hd,Option.map_some]
          refine ⟨i,by omega,rfl,⟨⟨hid,_,hown,hf⟩,fun j hj hju => ?_⟩,by rw [hown,hcount]⟩
          exact h.absent _ hn j hj hju
      · have hs' : t.channels id = some c' := (update_of_ne hsame _ _).symm.trans hs
        obtain ⟨hne,j,hj,hrest⟩ := h.present id c' hs'
        exact ⟨hne,j,by omega,hrest⟩

theorem accounted_load {n : ℕ} (hclean : CleanLines p lines n) : (load p lines n).Accounted n := by
  have hloaded : ∀ i≤n, (load p lines i).Accounted i ∧ (load p lines i).Traced p lines i := by
    intro i
    induction i with
    | zero => exact fun _ => ⟨Accounted.empty_zero,⟨fun _ _ _ hj => absurd hj (Nat.not_lt_zero _),nofun⟩⟩
    | succ i ih =>
      intro hi
      obtain ⟨hacc,htraced⟩ := ih (by omega)
      have hfit : ∀ c, (load p lines i).channels (lines i).uuid = some c →
        (lines i).Fits c.origChunkCount := by
        intro c hc
        obtain ⟨-,j,hj,hju,hfirst,hjc⟩ := htraced.present _ c hc
        exact hclean i (by omega) j hj hju hfirst _ hjc
      have hstep : load p lines (i+1) = Tables.loadLine p lines (load p lines i) i := by
        simp [load,List.range_succ]
      rw [hstep]
      exact ⟨hacc.loadLine hfit,htraced.loadLine hfit⟩
  exact (hloaded n le_rfl).1

end Tables

namespace OpenedCache

variable {s s' : OpenedCache} {now k : ℕ}

def Accounted (s : OpenedCache) : Prop := s.toTables.Accounted s.geometry.chunkCnt

def MayErase (s : OpenedCache) (k : ℕ) : Prop :=
  s.usedChunksCnt=0 ∨ s.geometry.chunkCnt<k ∨ (s.chunks k).isSome

instance (s : OpenedCache) (k : ℕ) : Decidable (s.MayErase k) := inferInstanceAs (Decidable (_ ∨ _))

theorem forgetChunk_frame (s : OpenedCache) (now k : ℕ) : ∃ channels erasedChunks,
      s.forgetChunk now k = { s with channels := channels, erasedChunks := erasedChunks } := by
  unfold forgetChunk
  dsimp only
  split
  · exact ⟨s.channels,s.erasedChunks,rfl⟩
  · rename_i c _
    by_cases hc : k<c.origChunkCount ∧ c.cacheToOrigChunk k < c.origChunkCount
    · rw [if_pos hc]
      exact ⟨_,_,rfl⟩
    · rw [if_neg hc]
      exact ⟨s.channels,s.erasedChunks,rfl⟩

theorem Accounted.eraseChunk (h : s.Accounted) (hk : s.MayErase k) (he : s.eraseChunk now k = some s') :
    s'.Accounted ∧ s'.geometry=s.geometry ∧ ∀ j≠k, s'.chunks j = s.chunks j := by
  unfold OpenedCache.eraseChunk at he
  split_ifs at he with hnot hend
  · obtain rfl := Option.some.inj he
    exact ⟨h,rfl,fun _ _ => rfl⟩
  · obtain rfl := Option.some.inj he
    have huse : (s.chunks k).isSome := by
      rcases hk with h0 | hlt | huse
      · exact absurd (.inl h0) hnot
      · exact absurd (.inr hlt) hnot
      · exact huse
    obtain ⟨channels,erasedChunks,hforget⟩ := s.forgetChunk_frame now k
    rw [hforget]
    exact ⟨h.release huse,rfl,fun j hj => update_of_ne hj _ _⟩

theorem Accounted.eraseChunks {ks : List ℕ} (h : s.Accounted) (hn : ks.Nodup)
    (huse : ∀ k∈ks, (s.chunks k).isSome)
    (he : ks.foldlM (fun (s : OpenedCache) k => s.eraseChunk now k) s = some s') : s'.Accounted := by
  induction ks generalizing s with
  | nil => exact Option.some.inj he ▸ h
  | cons k ks ih =>
    obtain ⟨t,ht,he⟩ := Option.bind_eq_some_iff.mp he
    obtain ⟨hacc,-,hsame⟩ := h.eraseChunk (.inr (.inr (huse k List.mem_cons_self))) ht
    refine ih hacc hn.of_cons (fun j hj => ?_) he
    rw [hsame j (fun hjk => (List.nodup_cons.mp hn).1 (hjk ▸ hj))]
    exact huse j (List.mem_cons_of_mem _ hj)

theorem Accounted.eraseChannel {id : ChannelUuid} (h : s.Accounted) (hc : ∀ c, s.channels id = some c →
      (channelChunks c).Nodup ∧ ∀ k ∈ channelChunks c, (s.chunks k).isSome)
    (he : s.eraseChannel now id = some s') : s'.Accounted := by
  unfold OpenedCache.eraseChannel at he
  cases hid : s.channels id with
  | none =>
    rw [hid] at he
    exact Option.some.inj he ▸ h
  | some c =>
    rw [hid] at he
    obtain ⟨t,ht,rfl⟩ := Option.map_eq_some_iff.mp he
    have hacc := h.eraseChunks (hc c hid).1 (hc c hid).2 ht
    exact hacc.congr rfl rfl rfl

variable {w : Write}

theorem Accounted.takeHole {size : ℕ} (h : s.Accounted) (hk : k∈s.holeChunks)
    (he : s.takeHole w k size = some s') : s'.Accounted ∧ (s'.chunks k).isSome := by
  unfold OpenedCache.takeHole at he
  dsimp only at he
  split_ifs at he
  obtain rfl := Option.some.inj he
  exact ⟨h.take hk _,by simp⟩

theorem Accounted.writeInto {fresh : Bool} {r : OpenedCache × Bool} (h : s.Accounted)
    (hk : (s.chunks k).isSome) (he : s.writeInto w now k fresh = some r) : r.1.Accounted := by
  unfold OpenedCache.writeInto at he
  dsimp only at he
  split at he
  · rename_i c ck _ _
    split_ifs at he
    · obtain ⟨t,ht,rfl⟩ := Option.map_eq_some_iff.mp he
      have hkept : ({ s with
          channels := update s.channels (.ofString w.channelID)
            (some (c.keep k (s.geometry.origChunkId w.seqno))) } : OpenedCache).Accounted :=
        h.congr rfl rfl rfl
      exact (hkept.eraseChunk (.inr (.inr hk)) ht).1
    all_goals
      obtain rfl := Option.some.inj he
      exact h.replace hk _
  · exact nomatch he

variable {c : Choices}

theorem allocation_ne_held : s.allocation w c ≠ .held k := by
  unfold allocation
  dsimp only
  split_ifs
  · nofun
  all_goals repeat' split
  all_goals nofun

theorem isSome_of_held (h : s.placement w c = .held k) : (s.chunks k).isSome := by
  unfold placement at h
  dsimp only at h
  split at h
  · exact absurd h allocation_ne_held
  · split_ifs at h with _ _ hfree
    · exact absurd h allocation_ne_held
    · obtain rfl := Placement.held.inj h
      rw [not_or,Bool.not_eq_true,Option.isNone_eq_false_iff] at hfree
      exact hfree.2

theorem mem_holes_of_allocation {size : ℕ} (h : s.allocation w c = .hole k size) : k∈s.holeChunks := by
  unfold allocation at h
  dsimp only at h
  split_ifs at h
  · split at h
    · rename_i hf
      exact (Placement.hole.inj h).1 ▸ mem_of_filter_head hf
    · split at h
      · rename_i hf
        exact (Placement.hole.inj h).1 ▸ mem_of_filter_head hf
      · exact nomatch h
  · split at h
    · rename_i hf
      exact (Placement.hole.inj h).1 ▸ mem_of_filter_head hf
    · exact nomatch h
  · split at h
    · rename_i hf
      exact (Placement.hole.inj h).1 ▸ mem_of_filter_head hf
    · split at h <;> exact nomatch h

theorem mem_holes_of_hole {size : ℕ} (h : s.placement w c = .hole k size) : k∈s.holeChunks := by
  unfold placement at h
  dsimp only at h
  split at h
  · exact mem_holes_of_allocation h
  · split_ifs at h
    exact mem_holes_of_allocation h

/-- The chunks that the tables name for a channel are different ones and in use. -/
def MayEraseChannel (s : OpenedCache) (id : ChannelUuid) : Prop :=
  ∀ c ∈ s.channels id, (channelChunks c).Nodup ∧ ∀ k ∈ channelChunks c, (s.chunks k).isSome

instance (s : OpenedCache) (id : ChannelUuid) : Decidable (s.MayEraseChannel id) :=
  inferInstanceAs (Decidable (∀ c ∈ s.channels id, _))

/-- A turn of `write_piece` erases chunks in use only, and the number of the original chunk
lies within the channel's array. -/
def MayWrite (s : OpenedCache) (w : Write) (c : Choices) : Prop :=
  match s.placement w c with
  | .evicts k => s.MayErase k
  | .hole _ _ => s.geometry.origChunkId w.seqno < (s.channelOf w).origChunkCount
  | .erasesChannel => s.MayEraseChannel (.ofString w.channelID)
  | .undefined => False
  | _ => True

instance (s : OpenedCache) (w : Write) (c : Choices) : Decidable (s.MayWrite w c) :=
  show Decidable (match s.placement w c with
    | .evicts _ => _ | .hole _ _ => _ | .erasesChannel => _ | .undefined => False | _ => True) from
    match s.placement w c with
    | .evicts k => inferInstanceAs (Decidable (s.MayErase k))
    | .hole _ _ => inferInstanceAs (Decidable
      (s.geometry.origChunkId w.seqno < (s.channelOf w).origChunkCount))
    | .erasesChannel => inferInstanceAs (Decidable (s.MayEraseChannel (.ofString w.channelID)))
    | .undefined => instDecidableFalse
    | .held _ | .refused _ => instDecidableTrue

theorem Accounted.writePiece {r : OpenedCache × Outcome} (h : s.Accounted)
    (hw : s.MayWrite w c) (he : s.writePiece w c = some r) : r.1.Accounted := by
  unfold OpenedCache.writePiece at he
  unfold MayWrite at hw
  split at he
  · rename_i k hp
    obtain ⟨r',hr,rfl⟩ := Option.map_eq_some_iff.mp he
    exact h.writeInto (isSome_of_held hp) hr
  · rename_i k size hp
    obtain ⟨r',hr,rfl⟩ := Option.map_eq_some_iff.mp he
    obtain ⟨t,ht,hr⟩ := Option.bind_eq_some_iff.mp hr
    obtain ⟨hacc,huse⟩ := h.takeHole (mem_holes_of_hole hp) ht
    exact hacc.writeInto huse hr
  · obtain rfl := Option.some.inj he
    exact h.congr rfl rfl rfl
  · rename_i k hp
    obtain ⟨t,ht,rfl⟩ := Option.map_eq_some_iff.mp he
    simp only [hp] at hw
    exact (h.eraseChunk hw ht).1
  · rename_i hp
    obtain ⟨t,ht,rfl⟩ := Option.map_eq_some_iff.mp he
    simp only [hp] at hw
    exact h.eraseChannel hw ht
  · exact nomatch he

theorem Accounted.readPiece {channelID : List BigEndianBytes.Byte} {seqno : ℕ}
    {r : OpenedCache × Option (List BigEndianBytes.Byte)} (h : s.Accounted)
    (he : s.readPiece channelID seqno = some r) : r.1.Accounted := by
  unfold OpenedCache.readPiece at he
  split at he
  · exact nomatch he
  · exact Option.some.inj he ▸ h
  · split at he
    · exact Option.some.inj he ▸ h
    · obtain ⟨ck,hck,rfl⟩ := Option.map_eq_some_iff.mp he
      exact h.replace (Option.isSome_iff_exists.mpr ⟨ck,hck⟩) _

theorem Accounted.popPieceErased {channelID : List BigEndianBytes.Byte} (h : s.Accounted) :
    (s.popPieceErased now channelID).1.Accounted := by
  unfold OpenedCache.popPieceErased
  dsimp only
  split <;> exact h.congr rfl rfl rfl

end OpenedCache

namespace Cache

def IfOpened (P : OpenedCache → Prop) : Cache → Prop
  | .opened s => P s
  | _ => True

instance (P : OpenedCache → Prop) [DecidablePred P] : ∀ cache, Decidable (IfOpened P cache)
  | .opened s => inferInstanceAs (Decidable (P s))
  | .closed .. => .isTrue trivial
  | .crashed => .isTrue trivial

abbrev Accounted (cache : Cache) : Prop := cache.IfOpened OpenedCache.Accounted

/-- The header lines that are loaded are clean, and a file that has to be created has room. -/
def MayOpen (version : List BigEndianBytes.Byte) (disk : Option CacheFile) (l : Layout) (fileLen : ℕ)
    (space : Bool) : Prop :=
  ∀ g ∈ Geometry.ofFileLen l fileLen,
    (∀ f ∈ disk.filter fun f => Accepts l f.param,
      CleanLines g.pieceCntPerChunk (adapt g version f).lines g.chunkCnt) ∧
    ((disk.filter fun f => Accepts l f.param).isNone → space)

instance (version : List BigEndianBytes.Byte) (disk : Option CacheFile) (l : Layout) (fileLen : ℕ)
    (space : Bool) : Decidable (MayOpen version disk l fileLen space) :=
  inferInstanceAs (Decidable (∀ g ∈ Geometry.ofFileLen l fileLen, _))

theorem openFile_accounted {version : List BigEndianBytes.Byte} (geometry : Option Geometry)
    {disk : Option CacheFile} {l : Layout} {fileLen : ℕ} {space : Bool}
    (h : MayOpen version disk l fileLen space) :
    (openFile version geometry disk l fileLen space).1.Accounted ∧
      ((openFile version geometry disk l fileLen space).2 = false →
        ∃ s, (openFile version geometry disk l fileLen space).1 = .opened s) := by
  unfold openFile
  cases hg : Geometry.ofFileLen l fileLen with
  | none => exact ⟨trivial,nofun⟩
  | some g =>
    obtain ⟨hclean,hspace⟩ := h g hg
    dsimp only
    cases hf : disk.filter fun f => decide (Accepts l f.param) with
    | some f => exact ⟨Tables.accounted_load (hclean f hf),fun _ => ⟨_,rfl⟩⟩
    | none =>
      have hs : ¬ ¬ space = true := not_not.mpr (hspace (by rw [hf]; rfl))
      rw [if_neg hs]
      refine ⟨?_,fun _ => ⟨_,rfl⟩⟩
      exact ⟨by simp [vacant,Tables.empty],by simp [occupied,Tables.empty],fun _ _ => rfl⟩

/-- What may happen to the tables: the calls, and erasures of a chunk or a channel. -/
inductive TableEvent where
  | call (e : Call)
  | eraseChunk (now cacheChunkID : ℕ)
  | eraseChannel (now : ℕ) (id : ChannelUuid)

def erase (f : OpenedCache → Option OpenedCache) : Cache → Cache
  | .opened s => (f s).elim .crashed .opened
  | c => c

def tableStep (cache : Cache) : TableEvent → Cache
  | .call e => cache.step e
  | .eraseChunk now k => cache.erase fun s => s.eraseChunk now k
  | .eraseChannel now id => cache.erase fun s => s.eraseChannel now id

def MayReopen (coin space : Bool) : Cache → Prop
  | .closed version (some g) disk => coin → MayOpen version disk g.toLayout g.fileLen space
  | _ => True

instance (coin space : Bool) : ∀ cache, Decidable (MayReopen coin space cache)
  | .closed version (some g) disk =>
      inferInstanceAs (Decidable (coin → MayOpen version disk g.toLayout g.fileLen space))
  | .closed _ none _ => .isTrue trivial
  | .opened _ => .isTrue trivial
  | .crashed => .isTrue trivial

/-- Header lines are clean when they are loaded, a file that is created has room, and only
chunks in use are erased. -/
def Harmless (cache : Cache) : TableEvent → Prop
  | .call (.doOpen l fileLen space) =>
      match cache with
      | .closed version _ disk => MayOpen version disk l fileLen space
      | _ => True
  | .call (.writePiece w c coin space) =>
      cache.MayReopen coin space ∧ (cache.reopen coin space).IfOpened fun s => s.MayWrite w c
  | .call (.readPiece _ _ coin space) => cache.MayReopen coin space
  | .call _ => True
  | .eraseChunk _ k => cache.IfOpened fun s => s.MayErase k
  | .eraseChannel _ id => cache.IfOpened fun s => s.MayEraseChannel id

instance (cache : Cache) (e : TableEvent) : Decidable (Harmless cache e) := by
  unfold Harmless
  repeat' split
  all_goals infer_instance

variable {cache : Cache}

theorem Accounted.reopen {coin space : Bool} (h : cache.Accounted)
    (hr : cache.MayReopen coin space) : (cache.reopen coin space).Accounted := by
  unfold Cache.reopen
  split
  · split_ifs with hcoin
    · exact (openFile_accounted _ (hr hcoin)).1
    · trivial
  · exact h

theorem Accounted.erase {f : OpenedCache → Option OpenedCache}
    (hf : cache.IfOpened fun s => ∀ s', f s = some s' → s'.Accounted) : (cache.erase f).Accounted := by
  cases cache with
  | closed => trivial
  | crashed => trivial
  | opened s =>
    change ((f s).elim Cache.crashed Cache.opened).Accounted
    cases hs : f s with
    | none => trivial
    | some s' => exact hf s' hs

theorem Accounted.tableStep {e : TableEvent} (h : cache.Accounted) (he : Harmless cache e) :
    (cache.tableStep e).Accounted := by
  cases e with
  | eraseChunk now k =>
    refine Accounted.erase ?_
    cases cache with
    | closed => trivial
    | crashed => trivial
    | opened s => exact fun s' hf => (OpenedCache.Accounted.eraseChunk h he hf).1
  | eraseChannel now id =>
    refine Accounted.erase ?_
    cases cache with
    | closed => trivial
    | crashed => trivial
    | opened s => exact fun s' hf => OpenedCache.Accounted.eraseChannel h he hf
  | call e =>
    cases e with
    | restart version => cases cache <;> trivial
    | doOpen l fileLen space =>
      cases cache with
      | closed version geometry disk => exact (openFile_accounted _ he).1
      | opened s => exact h
      | crashed => exact h
    | writePiece w c coin space =>
      have hr := h.reopen he.1
      have hw := he.2
      unfold Cache.tableStep Cache.step Cache.writePiece
      dsimp only
      cases hs : cache.reopen coin space with
      | closed => trivial
      | crashed => trivial
      | opened s =>
        rw [hs] at hr hw
        dsimp only
        cases hp : s.writePiece w c with
        | none => trivial
        | some r => exact OpenedCache.Accounted.writePiece hr hw hp
    | readPiece channelID seqno coin space =>
      have hr := h.reopen he
      unfold Cache.tableStep Cache.step Cache.readPiece
      dsimp only
      cases hs : cache.reopen coin space with
      | closed => trivial
      | crashed => trivial
      | opened s =>
        rw [hs] at hr
        dsimp only
        cases hp : s.readPiece channelID seqno with
        | none => trivial
        | some r => exact OpenedCache.Accounted.readPiece hr hp
    | popPieceErased now channelID =>
      cases cache with
      | closed => trivial
      | crashed => trivial
      | opened s => exact OpenedCache.Accounted.popPieceErased h

/-- In every state that a harmless run reaches, the holes are the cache chunks without an
entry and the counter counts the others; so it is behind the next open without an error. -/
theorem chunks_accounted (version : List BigEndianBytes.Byte) (disk : Option CacheFile)
    (es : List TableEvent) (h : AlongRun tableStep Harmless (.closed version none disk) es) :
    let cache := es.foldl tableStep (.closed version none disk)
    let Right (s : OpenedCache) := s.holeChunks = vacant s.chunks s.geometry.chunkCnt ∧
      s.usedChunksCnt = (occupied s.chunks s.geometry.chunkCnt).card ∧
      s.usedChunksCnt + s.holeChunks.card = s.geometry.chunkCnt
    (∀ s, cache = .opened s → Right s) ∧
    ∀ l fileLen space, Harmless cache (.call (.doOpen l fileLen space)) →
      (cache.doOpen l fileLen space).2 = false →
      ∃ s, (cache.doOpen l fileLen space).1 = .opened s ∧ Right s := by
  intro cache Right
  have hacc : cache.Accounted :=
    invariant_of_run Accounted (fun _ _ he hs => hs.tableStep he) h trivial
  have right {s : OpenedCache} (hs : s.Accounted) : Right s := ⟨hs.holes,hs.used,hs.total⟩
  refine ⟨fun s hs => right (by rw [hs] at hacc; exact hacc),fun l fileLen space hl hec => ?_⟩
  cases hcache : cache with
  | closed version geometry disk =>
    rw [hcache] at hl hec
    obtain ⟨hopen,hopened⟩ := openFile_accounted geometry hl
    obtain ⟨s,hs⟩ := hopened hec
    rw [hs] at hopen
    exact ⟨s,hs,right hopen⟩
  | opened s => rw [hcache] at hec; exact nomatch hec
  | crashed => rw [hcache] at hec; exact nomatch hec

section Example

def smallLayout : Layout := ⟨64,32,by decide,by decide,by decide,by decide,by decide,by decide⟩

def smallFile (lines : ℕ → HeaderLine) : CacheFile :=
  ⟨⟨cacheVersion,.write 2,.write 128,.write 64,.write 32⟩,lines,fun _ => 0,headerLen+128⟩

/-- A header line with one chunk of channel `id`, which has four pieces. -/
def smallLine (id : BigEndianBytes.Byte) (ck : Chunk) : HeaderLine := ⟨.ofString [id],.write 4,ck⟩

/-- The counter, the number of chunks with an entry, the number of holes and of chunks. -/
def counts : Cache → Option (ℕ × ℕ × ℕ × ℕ)
  | .opened s => some (s.usedChunksCnt, (occupied s.chunks s.geometry.chunkCnt).card, s.holeChunks.card,
      s.geometry.chunkCnt)
  | _ => none

/-- A clean file is opened, and a write to the full cache evicts a chunk. -/
theorem clean_run_accounted :
    let disk := smallFile fun i => smallLine 1 (.new i 1)
    let write := Call.writePiece ⟨[2],4,0,[7]⟩ ⟨[(.ofString [1], false)],none,0,false,0⟩ false false
    let es : List TableEvent := [.call (.doOpen smallLayout 128 false),.call write,.call write]
    let cache := es.foldl tableStep (.closed [] none (some disk))
    counts cache = some (2, 2, 0, 2) ∧
      ∀ s, cache = .opened s → s.usedChunksCnt+s.holeChunks.card=s.geometry.chunkCnt := by
  intro disk write es cache
  have h : AlongRun tableStep Harmless (.closed [] none (some disk)) es := by decide +kernel
  exact ⟨by decide +kernel,fun s hs => ((chunks_accounted [] (some disk) es h).1 s hs).2.2⟩

/-- Three ways to lose the account: a bad line behind a good one of the same channel, no room
for a new file, and an eviction that draws the number of a hole. -/
theorem account_lost :
    counts ((Cache.closed [] none (some (smallFile fun i =>
      smallLine 1 (if i=0 then .new 0 1 else ⟨.write 1,.write 1,⟨1,1⟩,fun _ => false⟩)))).doOpen
        smallLayout 128 true).1 = some (1, 1, 0, 2) ∧
    ((Cache.closed [] none none).doOpen smallLayout 128 false).2 = false ∧
    counts ((Cache.closed [] none none).doOpen smallLayout 128 false).1 = none ∧
    counts ([TableEvent.call (.doOpen smallLayout 128 true),.eraseChannel 0 (.ofString [1]),
      .call (.writePiece ⟨[2],4,0,[7]⟩ ⟨[],none,0,false,0⟩ false false)].foldl tableStep
        (.closed [] none (some ({ smallFile fun i =>
          if i=1 then smallLine 1 (.new 0 1) else .zero with size :=
            headerLen })))) = some (0, 1, 1, 2) := by
  decide +kernel

end Example

end Cache

end P2Streaming.DiskCache
