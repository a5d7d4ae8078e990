import P2Streaming.BufferManager

/-!
# What the client still lacks is tracked

Every number between the smallest one the client cares for and the bigest one it knows that has
not been received should be in the absent list. Here that invariant, `Tracks`, and what the list
of numbers in a peer's message does to it.
-/
namespace P2Streaming
open WrappableInteger SerialMaps BoundedLoops

namespace BufferManager

variable {n : ℕ} {o : BitVec 32}

/-- A way to learn of a number: inside the window it is listed afterwards unless the client has
it, and a number behind the window changes nothing. -/
structure Learns (know : AbsentPacketList → BitVec 32 → AbsentPacketList) (o : BitVec 32)
    (Have : BitVec 32 → Prop) : Prop where
  inside : ∀ l x, l.Sound o → ahead o x < 2^15 →
    (know l x).Sound o ∧ (Have x ∨ (know l x).Listed x) ∧ ∀ y, l.Listed y → (know l x).Listed y
  behind : ∀ l x, 2^31 < ahead o x → know l x = l

variable {l : AbsentPacketList}

theorem justKnown_inside {x : BitVec 32} (hl : l.Sound o) (hx : ahead o x < 2^15) (now : BitVec 32) :
    (justKnown l x o now).Sound o ∧ (justKnown l x o now).Listed x ∧
      ∀ y, l.Listed y → (justKnown l x o now).Listed y := by
  unfold justKnown
  split_ifs with h
  · obtain ⟨info,hi⟩ := Option.isSome_iff_exists.mp h
    exact ⟨hl,hl.listed_of_info hx hi,fun _ hy => hy⟩
  · exact hl.justKnown hx now

theorem justKnown_behind (l : AbsentPacketList) {x : BitVec 32} (now : BitVec 32)
    (hx : 2^31 < ahead o x) : justKnown l x o now = l := by
  unfold justKnown
  rw [l.justKnown_behind now hx,ite_self]

variable (m : BufferManager n)

def Cached (seqno : BitVec 32) : Prop := ∃ now, m.lacks seqno now = false

theorem learns_of {know : AbsentPacketList → BitVec 32 → AbsentPacketList} (m : BufferManager n)
    (now : BitVec 32) (inside : ∀ l x, l.Sound o → ahead o x < 2^15 →
      (know l x).Sound o ∧ (know l x).Listed x ∧ ∀ y, l.Listed y → (know l x).Listed y)
    (behind : ∀ l x, 2^31 < ahead o x → know l x = l) :
    Learns (fun l seqno => if m.lacks seqno now then know l seqno else l) o m.Cached := by
  refine ⟨fun l x hl hx => ?_,fun l x hx => ?_⟩
  · split_ifs with h
    · obtain ⟨hs,hx',hmono⟩ := inside l x hl hx
      exact ⟨hs,.inr hx',hmono⟩
    · exact ⟨hl,.inl ⟨now,by simpa using h⟩,fun _ hy => hy⟩
  · rw [behind l x hx,ite_self]

variable {Have : BitVec 32 → Prop}

/-- A loop that enters all numbers of a range, each of them inside the window or behind it. -/
theorem learnUpTo_spec {know : AbsentPacketList → BitVec 32 → AbsentPacketList}
    (hk : Learns know o Have) (first last : BitVec 32) (hl : l.Sound o)
    (hplace : ahead first last ≤ 2^31 → ∀ x, ahead first x ≤ ahead first last →
      ahead o x < 2^15 ∨ 2^31 < ahead o x) : (learnUpTo know first last l).Sound o ∧
      (∀ y, l.Listed y → (learnUpTo know first last l).Listed y) ∧
      (ahead first last ≤ 2^31 → ∀ x, ahead first x ≤ ahead first last → ahead o x < 2^15 →
        Have x ∨ (learnUpTo know first last l).Listed x) := by
  have hleaves : Leaves (learnBody know last) (first, l)
      (loop (learnBody know last) ((last - first).toNat + 2) (first, l)) := by
    refine leaves_loop
      (fun s => if wrappableLessEqual s.1 last then (last - s.1).toNat + 1 else 0)
      (fun s t hst => ?_) _ _ ?_
    · simp only [learnBody] at hst
      split_ifs at hst with hle
      · cases hst
        split_ifs with hle'
        · rw [wrappableLessEqual_iff] at hle hle'
          bv_omega
        · omega
    · dsimp only
      split_ifs <;> omega
  refine hleaves.rule
    (fun s => s.2.Sound o ∧ (∀ y, l.Listed y → s.2.Listed y) ∧
      (ahead first last ≤ 2^31 → ahead first s.1 ≤ ahead first last + 1 ∧
        ∀ x, ahead first x < ahead first s.1 → ahead o x < 2^15 → Have x ∨ s.2.Listed x) ∧
      (¬ ahead first last ≤ 2^31 → s.1=first))
    (fun s => s.2.Sound o ∧ (∀ y, l.Listed y → s.2.Listed y) ∧
      (ahead first last ≤ 2^31 → ∀ x, ahead first x ≤ ahead first last → ahead o x < 2^15 →
        Have x ∨ s.2.Listed x)) ?_ ?_ ?_
  · rintro ⟨seqno,l'⟩ t ⟨hs,hmono,hnear,hfar⟩ hst
    simp only [learnBody] at hst hs hmono hnear hfar
    split_ifs at hst with hle
    cases hst
    rw [wrappableLessEqual_iff] at hle
    -- the loop has not run past its end, so the next number is one of the range
    have hD : ahead first last ≤ 2^31 := by
      by_contra hno
      rw [hfar hno] at hle
      exact hno hle
    obtain ⟨hseq,hdone⟩ := hnear hD
    have hstep : ahead first seqno ≤ ahead first last ∧
        ahead first (seqno+1) = ahead first seqno + 1 := by
      unfold ahead at *
      constructor <;> bv_omega
    have hsplit : ∀ x, ahead first x < ahead first (seqno+1) →
        ahead first x < ahead first seqno ∨ x=seqno := by
      intro x hx
      rcases Nat.lt_or_ge (ahead first x) (ahead first seqno) with h | h
      · exact .inl h
      · exact .inr (ahead_inj (o := first) (by omega))
    rcases hplace hD seqno hstep.1 with hin | hbehind
    · obtain ⟨hs',hx',hm'⟩ := hk.inside l' seqno hs hin
      refine ⟨hs',fun y hy => hm' y (hmono y hy),fun _ => ⟨by rw [hstep.2]; omega,?_⟩,
        fun hno => absurd hD hno⟩
      intro x hx hxin
      rcases hsplit x hx with hlt | rfl
      · exact (hdone x hlt hxin).imp id (hm' x)
      · exact hx'
    · rw [hk.behind l' seqno hbehind]
      refine ⟨hs,hmono,fun _ => ⟨by rw [hstep.2]; omega,?_⟩,fun hno => absurd hD hno⟩
      intro x hx hxin
      rcases hsplit x hx with hlt | rfl
      · exact hdone x hlt hxin
      · omega
  · rintro ⟨seqno,l'⟩ t ⟨hs,hmono,hnear,-⟩ hst
    simp only [learnBody] at hst hs hmono hnear
    split_ifs at hst with hle
    cases hst
    refine ⟨hs,hmono,fun hD x hx hxin => ?_⟩
    obtain ⟨hseq,hdone⟩ := hnear hD
    refine hdone x ?_ hxin
    rw [wrappableLessEqual_iff] at hle
    unfold ahead at *
    bv_omega
  · exact ⟨hl,fun _ hy => hy,fun _ => ⟨by simp,fun x hx => by simp at hx⟩,fun _ => rfl⟩

/-- `bigest_sqno_i_know_` lies in the window above `o`, or behind `o` by clearly less than half
the ring. -/
def Placed (o known : BitVec 32) : Prop :=
  ahead o known < 2^15 ∨ ahead known o ≤ 2^31 - 2^16

/-- What the client still lacks up to `bigest_sqno_i_know_` is in the absent list; `Have` tells
what it has received. -/
structure Tracks (m : BufferManager n) (o : BitVec 32) (Have : BitVec 32 → Prop) : Prop where
  sound : m.absentPacketList.Sound o
  placed : ∀ known, m.bigestSqnoIKnow = some known → Placed o known
  tracked : ∀ known s, m.bigestSqnoIKnow = some known → ahead o known < 2^31 →
    ahead o s ≤ ahead o known → Have s ∨ m.absentPacketList.Listed s

/-- `max_seqno_local_care`. -/
def top (n : ℕ) (o : BitVec 32) : BitVec 32 := o + BitVec.ofNat 32 (maxBitmapRangeCnt n)

theorem ahead_top (n : ℕ) (o : BitVec 32) : 0 < ahead o (top n o) ∧ ahead o (top n o) < 2^15 := by
  have hle : maxBitmapRangeCnt n ≤ 2^15 - 1 := Nat.min_le_left _ _
  have hpos : 0 < maxBitmapRangeCnt n := lt_min (by decide) (Nat.two_pow_pos n)
  have hsub : top n o - o = BitVec.ofNat 32 (maxBitmapRangeCnt n) := by
    unfold top
    ring
  unfold ahead
  rw [hsub,BitVec.toNat_ofNat,Nat.mod_eq_of_lt (by omega)]
  omega

/-- The last number of the film is not about half the ring behind the smallest number. -/
def FilmEndNear (o last : BitVec 32) : Prop := ¬ (2^31 - 2^15 ≤ ahead last o ∧ ahead last o ≤ 2^31)

/-- The modular order can be trusted on the numbers that are compared when a message is
processed. -/
structure Orderly (m : BufferManager n) (o known bigest : BitVec 32) : Prop where
  message : wrappableLessEqual known bigest = true → wrappableLessEqual bigest (top n o) = true →
    ahead known bigest ≤ ahead known (top n o) ∧ ahead known (top n o) < 2^31
  film : ∀ range∈m.seqnoRange, FilmEndNear o range.2 ∧
    (wrappableLess (top n o) range.2 = true → wrappableLess range.2 bigest = true →
      wrappableLess (top n o) bigest = true)

instance (o last : BitVec 32) : Decidable (FilmEndNear o last) := inferInstanceAs (Decidable (¬ _))

instance (o known bigest : BitVec 32) : Decidable (m.Orderly o known bigest) :=
  have := Option.decidableForallMem (p := fun range : BitVec 32 × BitVec 32 =>
    FilmEndNear o range.2 ∧ (wrappableLess (top n o) range.2 = true →
      wrappableLess range.2 bigest = true → wrappableLess (top n o) bigest = true)) m.seqnoRange
  decidable_of_iff (_ ∧ _) ⟨fun h => ⟨h.1,h.2⟩,fun h => ⟨h.1,h.2⟩⟩

theorem between_of_filmEndNear {o known t last : BitVec 32} (hknown : Placed o known)
    (ht : ahead o t < 2^15) (hnear : FilmEndNear o last)
    (h1 : wrappableLessEqual known last = true) (h2 : wrappableLessEqual last t = true) :
    ahead known last ≤ ahead known t ∧ ahead known t < 2^31 := by
  rw [wrappableLessEqual_iff] at h1 h2
  unfold Placed FilmEndNear ahead at *
  rcases hknown with hknown | hknown <;> constructor <;> bv_omega

theorem withinFilm_cases (bigest : BitVec 32) : m.withinFilm bigest = bigest ∨
      ∃ range∈m.seqnoRange, m.withinFilm bigest = range.2 ∧ wrappableLess range.2 bigest = true := by
  unfold withinFilm
  cases hr : m.seqnoRange with
  | none => exact .inl rfl
  | some range =>
    dsimp only
    split_ifs with h
    · exact .inr ⟨range,rfl,rfl,h⟩
    · exact .inl rfl

theorem lessEqual_of_less {a b : BitVec 32} (h : wrappableLess a b = true) :
    wrappableLessEqual a b = true := by
  rw [wrappableLessEqual_iff]
  rw [wrappableLess_iff] at h
  bv_omega

variable {m}

theorem clip_between {o known bigest : BitVec 32} (hknown : Placed o known)
    (h : m.Orderly o known bigest) (hle : wrappableLessEqual known (m.clip bigest o) = true) :
    ahead known (m.clip bigest o) ≤ ahead known (top n o) ∧ ahead known (top n o) < 2^31 := by
  have htop := (ahead_top n o).2
  unfold clip at hle ⊢
  dsimp only at hle ⊢
  rw [← top] at hle ⊢
  by_cases hg : wrappableGreater bigest (top n o) = true
  · rw [if_pos hg] at hle ⊢
    rcases m.withinFilm_cases (top n o) with he | ⟨range,hr,he,hless⟩
    · rw [wrappableLessEqual_iff] at hle
      unfold Placed ahead at *
      rcases hknown with hknown | hknown <;> bv_omega
    · rw [he] at hle ⊢
      exact between_of_filmEndNear hknown htop (h.film range hr).1 hle (lessEqual_of_less hless)
  · rw [if_neg hg] at hle ⊢
    have hnot : wrappableLessEqual bigest (top n o) = true := by
      rw [wrappableLessEqual,Bool.not_eq_true']
      exact Bool.eq_false_iff.mpr hg
    rcases m.withinFilm_cases bigest with he | ⟨range,hr,he,hless⟩
    · rw [he] at hle ⊢
      exact h.message hle hnot
    · rw [he] at hle ⊢
      obtain ⟨hnear,hcycle⟩ := h.film range hr
      refine between_of_filmEndNear hknown htop hnear hle ?_
      rw [wrappableLessEqual,Bool.not_eq_true']
      exact Bool.eq_false_iff.mpr fun hfar => hg (hcycle hfar hless)

theorem inside_or_behind {o known t x : BitVec 32} (hknown : Placed o known)
    (ht : ahead o t < 2^15) (hkt : ahead known t < 2^31) (hx : ahead known x ≤ ahead known t) :
    ahead o x < 2^15 ∨ 2^31 < ahead o x := by
  unfold Placed ahead at *
  rcases hknown with hknown | hknown
  · left
    bv_omega
  · by_cases hlt : (x - known).toNat < (o - known).toNat
    · right
      bv_omega
    · left
      bv_omega

/-- A message may be processed: its numbers can be compared, and `bigest_sqno_i_know_` is not
left behind a packet that is neither received nor listed. -/
structure Fits (m : BufferManager n) (o : BitVec 32) (Have : BitVec 32 → Prop) (known : BitVec 32)
    (seqnomap : List (BitVec 32)) (bigest : BitVec 32) : Prop where
  orderly : m.Orderly o known bigest
  seqnos : ∀ x∈seqnomap, ahead o x ≠ 2^31
  caughtUp : wrappableLess (raised known (m.clip bigest o)) o = true →
    Have o ∨ m.absentPacketList.Listed o

instance (m : BufferManager n) (o : BitVec 32) (Have : BitVec 32 → Prop) [DecidablePred Have]
    (known : BitVec 32) (seqnomap : List (BitVec 32)) (bigest : BitVec 32) :
    Decidable (m.Fits o Have known seqnomap bigest) :=
  have := List.decidableBAll (fun x => ahead o x ≠ 2^31) seqnomap
  decidable_of_iff (_ ∧ _ ∧ _) ⟨fun h => ⟨h.1,h.2.1,h.2.2⟩,fun h => ⟨h.1,h.2,h.3⟩⟩

theorem ownedLoop_spec (m : BufferManager n) {known : BitVec 32} (now : BitVec 32)
    (hknown : ahead o known < 2^15) (seqnomap : List (BitVec 32))
    (hseqnos : ∀ x∈seqnomap, ahead o x ≠ 2^31) (hl : l.Sound o) :
    (m.ownedLoop known o now seqnomap l).Sound o ∧
      ∀ y, l.Listed y → (m.ownedLoop known o now seqnomap l).Listed y := by
  induction seqnomap generalizing l with
  | nil => exact ⟨hl,fun _ hy => hy⟩
  | cons x rest ih =>
    obtain ⟨hx,hrest⟩ := List.forall_mem_cons.mp hseqnos
    rw [ownedLoop]
    split_ifs with h1 h2 h3 h4
    · exact ⟨hl,fun _ hy => hy⟩
    · exact ih hrest hl
    · exact ⟨hl,fun _ hy => hy⟩
    · have hin : ahead o x < 2^15 := by
        rw [wrappableLess_iff] at h2
        rw [wrappableGreater,wrappableLess_iff] at h3
        unfold ahead at *
        bv_omega
      obtain ⟨hs,-,hmono⟩ := justKnown_inside hl hin now
      exact (ih hrest hs).imp id fun hm y hy => hm y (hmono y hy)
    · exact ih hrest hl

theorem raised_inside {known c : BitVec 32} (hplaced : Placed o known)
    (hc : wrappableLessEqual known c = true → ahead o c < 2^15 ∨ 2^31 < ahead o c)
    (hnot : ¬ wrappableLess (raised known c) o = true) : ahead o (raised known c) < 2^15 := by
  unfold raised at *
  split_ifs at hnot ⊢ with hless
  · rw [wrappableLess_origin] at hnot
    exact (hc (lessEqual_of_less hless)).resolve_right hnot
  · rw [wrappableLess_origin] at hnot
    unfold Placed ahead at *
    rcases hplaced with hplaced | hplaced
    · exact hplaced
    · bv_omega

theorem Tracks.raised_tracked (h : m.Tracks o Have)
    {known c : BitVec 32} (hknown : m.bigestSqnoIKnow = some known) {learnt : AbsentPacketList}
    (hmono : ∀ y, m.absentPacketList.Listed y → learnt.Listed y)
    (hlearnt : wrappableLessEqual known c = true → ∀ x, ahead known x ≤ ahead known c →
      ahead o x < 2^15 → Have x ∨ learnt.Listed x) (hin : ahead o (raised known c) < 2^15) {s : BitVec 32}
    (hs : ahead o s ≤ ahead o (raised known c)) : Have s ∨ learnt.Listed s := by
  have hplaced := h.placed known hknown
  unfold raised at hin hs
  split_ifs at hin hs with hless
  · by_cases hnew : ahead known s ≤ ahead known c
    · exact hlearnt (lessEqual_of_less hless) s hnew (by omega)
    · have hold : ahead o known < 2^31 ∧ ahead o s ≤ ahead o known := by
        unfold Placed ahead at *
        rcases hplaced with hplaced | hplaced <;> constructor <;> bv_omega
      exact (h.tracked known s hknown hold.1 hold.2).imp id (hmono s)
  · exact (h.tracked known s hknown (by omega) hs).imp id (hmono s)

/-- The numbers that are known once a message has been processed. -/
theorem Tracks.processRecvdSeqnos
    (h : m.Tracks o Have) (hcached : ∀ s, m.Cached s → Have s) {known bigest : BitVec 32}
    (hknown : m.bigestSqnoIKnow = some known) {seqnomap : List (BitVec 32)}
    (hne : seqnomap.isEmpty=false) (hfits : m.Fits o Have known seqnomap bigest) (now : BitVec 32)
    (add : Bool) : (m.processRecvdSeqnos seqnomap bigest o now add).Tracks o Have ∧
      ∃ known', (m.processRecvdSeqnos seqnomap bigest o now add).bigestSqnoIKnow = some known' ∧
        ahead o known' < 2^15 := by
  have hplaced := h.placed known hknown
  have htop := (ahead_top n o).2
  have hclip : wrappableLessEqual known (m.clip bigest o) = true → ∀ x,
      ahead known x ≤ ahead known (m.clip bigest o) → ahead o x < 2^15 ∨ 2^31 < ahead o x := by
    intro hle x hx
    obtain ⟨hcl,hkt⟩ := clip_between hplaced hfits.orderly hle
    exact inside_or_behind hplaced htop hkt (hx.trans hcl)
  have hlearns := learns_of m now (fun l x hl hx => justKnown_inside (o := o) hl hx now)
    (fun l x hx => BufferManager.justKnown_behind l now hx)
  obtain ⟨hsound,hmono,hlearnt⟩ := learnUpTo_spec hlearns known (m.clip bigest o) h.sound
    fun hle => hclip ((wrappableLessEqual_iff _ _).mpr hle)
  unfold BufferManager.processRecvdSeqnos
  rw [hknown]
  dsimp only
  rw [if_neg (by simp [hne])]
  generalize learnUpTo _ known (m.clip bigest o) m.absentPacketList = learnt at *
  set known' := if wrappableGreater o (raised known (m.clip bigest o)) = true then o
    else raised known (m.clip bigest o) with hk'
  have hin : ahead o known' < 2^15 := by
    rw [hk']
    split_ifs with hless
    · simp
    · exact raised_inside hplaced (fun hle => hclip hle _ le_rfl) hless
  have htracked : ∀ s, ahead o s ≤ ahead o known' → Have s ∨ learnt.Listed s := by
    intro s hs
    rw [hk'] at hs hin
    split_ifs at hs hin with hless
    · -- the number is raised to `o` itself, which nothing has entered
      obtain rfl : s=o := ahead_eq_zero.mp (by simpa using hs)
      exact (hfits.caughtUp hless).imp id (hmono s)
    · refine h.raised_tracked hknown hmono (fun hle x hx hxin => ?_) hin hs
      exact (hlearnt ((wrappableLessEqual_iff _ _).mp hle) x hx hxin).imp (hcached x) id
  obtain ⟨howned,hlisted⟩ := m.ownedLoop_spec now hin seqnomap hfits.seqnos hsound
  refine ⟨⟨?_,fun b hb => ?_,fun b s hb _ hs => ?_⟩,known',rfl,hin⟩
  · split_ifs
    · exact howned
    · exact hsound
  · cases hb
    exact .inl hin
  · cases hb
    split_ifs
    · exact (htracked s hs).imp id (hlisted s)
    · exact htracked s hs

end BufferManager
end P2Streaming
