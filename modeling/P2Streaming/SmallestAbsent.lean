import P2Streaming.AbsentListRuns

/-!
# The published smallest absent number

As long as the sets are in order, `min_seqno` is the smallest listed number. A number that enters
through `just_known` and the trimming of the list keep the published number at it. A number that
enters through a request does not move it, and neither does the erasure of the smallest number
itself.
-/
namespace P2Streaming
open WrappableInteger SerialMaps TransitionRuns AbsentPacketList

namespace AbsentPacketList

variable {l : AbsentPacketList}

def IsSmallest (l : AbsentPacketList) (m : BitVec 32) : Prop :=
  l.Listed m ∧ ∀ x, l.Listed x → wrappableLess x m = false

theorem isEmpty_eq_false_iff : l.isEmpty=false ↔ ∃ x, l.Listed x := by
  unfold isEmpty Listed
  rw [← Bool.not_eq_true,Bool.and_eq_true,List.isEmpty_iff,List.isEmpty_iff]
  constructor
  · intro h
    by_cases hn : l.notRequestingPackets=[]
    · obtain ⟨x,hx⟩ := List.exists_mem_of_ne_nil _ fun hr => h ⟨hn,hr⟩
      exact ⟨x,.inr hx⟩
    · obtain ⟨x,hx⟩ := List.exists_mem_of_ne_nil _ hn
      exact ⟨x,.inl hx⟩
  · rintro ⟨x,hx⟩ ⟨hn,hr⟩
    rw [hn,hr] at hx
    exact hx.elim List.not_mem_nil List.not_mem_nil

theorem isEmpty_eq_true_iff : l.isEmpty=true ↔ ∀ x, ¬ l.Listed x := by
  rw [← not_exists,← isEmpty_eq_false_iff,Bool.not_eq_false]

theorem less_eq_false_iff {o x y : BitVec 32} (hx : ahead o x < 2^31) (hy : ahead o y < 2^31) :
    wrappableLess x y = false ↔ ahead o y ≤ ahead o x := by
  rw [← Bool.not_eq_true,wrappableLess_iff_ahead_lt hx hy,not_lt]

theorem Ordered.listed_lt {o : BitVec 32} (hn : Window id o (2^31) l.notRequestingPackets)
    (hr : Window id o (2^31) l.requestingPackets) {x : BitVec 32} (hx : l.Listed x) : ahead o x < 2^31 :=
  hx.elim (hn.bounded x) (hr.bounded x)

theorem IsSmallest.eq (ho : l.Ordered) {m m' : BitVec 32} (h : l.IsSmallest m)
    (h' : l.IsSmallest m') : m=m' := by
  obtain ⟨o,hn,hr⟩ := ho
  have hm := Ordered.listed_lt hn hr h.1
  have hm' := Ordered.listed_lt hn hr h'.1
  have hle := (less_eq_false_iff hm' hm).mp (h.2 m' h'.1)
  have hge := (less_eq_false_iff hm hm').mp (h'.2 m h.1)
  exact ahead_inj (le_antisymm hle hge)

theorem head_le {o m x : BitVec 32} {lst : List (BitVec 32)} (h : Window id o (2^31) lst)
    (hm : lst.head? = some m) (hx : x∈lst) : ahead o m ≤ ahead o x := by
  cases lst with
  | nil => cases hm
  | cons y rest =>
    cases hm
    exact Window.head_le h hx

theorem minSeqno_isSmallest (ho : l.Ordered) {m : BitVec 32} (h : l.minSeqno = some m) :
    l.IsSmallest m := by
  obtain ⟨o,hn,hr⟩ := ho
  have hlisted := minSeqno_listed h
  refine ⟨hlisted,fun x hx => ?_⟩
  rw [less_eq_false_iff (Ordered.listed_lt hn hr hx) (Ordered.listed_lt hn hr hlisted)]
  cases h1 : l.notRequestingPackets.head? with
  | none =>
    have hnil : l.notRequestingPackets=[] := List.head?_eq_none_iff.mp h1
    have h2 : l.requestingPackets.head? = some m := by
      unfold minSeqno at h
      rw [h1] at h
      exact h
    rcases hx with hx | hx
    · rw [hnil] at hx
      cases hx
    · exact head_le hr h2 hx
  | some seq =>
    cases h2 : l.requestingPackets.head? with
    | none =>
      have hnil : l.requestingPackets=[] := List.head?_eq_none_iff.mp h2
      have h3 : l.notRequestingPackets.head? = some m := by
        unfold minSeqno at h
        rw [h1,h2] at h
        rw [h1]
        exact h
      rcases hx with hx | hx
      · exact head_le hn h3 hx
      · rw [hnil] at hx
        cases hx
    | some seq2 =>
      have hseq : ahead o seq < 2^31 := hn.bounded seq (List.mem_of_mem_head? h1)
      have hseq2 : ahead o seq2 < 2^31 := hr.bounded seq2 (List.mem_of_mem_head? h2)
      have hcmp : m=seq ∧ ahead o seq ≤ ahead o seq2 ∨ m=seq2 ∧ ahead o seq2 ≤ ahead o seq := by
        unfold minSeqno at h
        rw [h1,h2] at h
        dsimp only at h
        split_ifs at h with hless
        · exact .inr ⟨(Option.some.inj h).symm,((wrappableLess_iff_ahead_lt hseq2 hseq).mp hless).le⟩
        · rw [Bool.not_eq_true,less_eq_false_iff hseq2 hseq] at hless
          exact .inl ⟨(Option.some.inj h).symm,hless⟩
      rcases hx with hx | hx
      · have := head_le hn h1 hx
        rcases hcmp with ⟨rfl,hle⟩ | ⟨rfl,hle⟩ <;> omega
      · have := head_le hr h2 hx
        rcases hcmp with ⟨rfl,hle⟩ | ⟨rfl,hle⟩ <;> omega

theorem minSeqno_eq_some_iff (ho : l.Ordered) {m : BitVec 32} : l.minSeqno = some m ↔ l.IsSmallest m := by
  constructor
  · exact minSeqno_isSmallest ho
  · intro h
    have hsome := minSeqno_of_not_isEmpty (isEmpty_eq_false_iff.mpr ⟨m,h.1⟩)
    obtain ⟨m',hm'⟩ := Option.isSome_iff_exists.mp hsome
    rw [hm',IsSmallest.eq ho h (minSeqno_isSmallest ho hm')]

section Listed
variable {seqno : BitVec 32}

section
variable (ho : l.Ordered) (hs : HalfRing (seqno::l.numbers))
include ho hs

theorem listed_enter_iff (now : BitVec 32)
    (x : BitVec 32) : (l.enter seqno now).Listed x ↔ x=seqno ∨ l.Listed x := by
  obtain ⟨o,hwn,-,hso⟩ := ho.rebase hs
  have hmem : x ∈ (l.enter seqno now).notRequestingPackets ↔ x=seqno ∨ x∈l.notRequestingPackets :=
    mem_insert_iff hwn hso
  rw [Listed,hmem,or_assoc]
  rfl

theorem listed_setRequesting_iff (x : BitVec 32) :
    (l.setRequesting seqno).Listed x ↔ x=seqno ∨ l.Listed x := by
  obtain ⟨o,hwn,hwr,hso⟩ := ho.rebase hs
  have hn : x ∈ (l.setRequesting seqno).notRequestingPackets ↔ x∈l.notRequestingPackets ∧ x≠seqno :=
    mem_erase_iff hwn hso
  have hr : x ∈ (l.setRequesting seqno).requestingPackets ↔ x=seqno ∨ x∈l.requestingPackets :=
    mem_insert_iff hwr hso
  rw [Listed,hn,hr,Listed]
  tauto

theorem listed_requestFailed_iff (hinfo : (l.getPacketInfo seqno).isSome = true) (x : BitVec 32) :
    (l.requestFailed seqno).Listed x ↔ x=seqno ∨ l.Listed x := by
  obtain ⟨o,hwn,hwr,hso⟩ := ho.rebase hs
  rw [requestFailed,if_pos hinfo,Listed,Listed]
  dsimp only
  rw [mem_insert_iff hwn hso,mem_erase_iff hwr hso]
  tauto

theorem listed_erase_iff (now x : BitVec 32) :
    (l.erase seqno now).Listed x ↔ l.Listed x ∧
      (x=seqno → seqno∈l.notRequestingPackets ∧ seqno∈l.requestingPackets) := by
  obtain ⟨o,hwn,hwr,hso⟩ := ho.rebase hs
  unfold erase
  cases hn : find id seqno l.notRequestingPackets with
  | some found =>
    obtain ⟨rfl,hmem⟩ := (find_iff hwn hso).mp hn
    change x ∈ SerialMaps.erase id found l.notRequestingPackets ∨ x∈l.requestingPackets ↔ _
    rw [mem_erase_iff hwn hso,Listed]
    constructor
    · rintro (⟨hx,hne⟩ | hx)
      · exact ⟨.inl hx,fun he => absurd he hne⟩
      · exact ⟨.inr hx,fun he => ⟨hmem,he ▸ hx⟩⟩
    · rintro ⟨hx,hboth⟩
      by_cases he : x=found
      · exact .inr (he ▸ (hboth he).2)
      · exact hx.imp_left fun hx => ⟨hx,he⟩
  | none =>
    have hnot : seqno ∉ l.notRequestingPackets := fun hx => by
      rw [(find_iff hwn hso).mpr ⟨rfl,hx⟩] at hn
      cases hn
    cases hr : find id seqno l.requestingPackets with
    | some found =>
      obtain ⟨rfl,hmem⟩ := (find_iff hwr hso).mp hr
      change x ∈ l.notRequestingPackets ∨ x ∈ SerialMaps.erase id found l.requestingPackets ↔ _
      rw [mem_erase_iff hwr hso,Listed]
      constructor
      · rintro (hx | ⟨hx,hne⟩)
        · exact ⟨.inl hx,fun he => absurd (he ▸ hx) hnot⟩
        · exact ⟨.inr hx,fun he => absurd he hne⟩
      · rintro ⟨hx,hboth⟩
        exact hx.imp_right fun hx => ⟨hx,fun he => hnot (hboth he).1⟩
    | none =>
      have hnot' : seqno ∉ l.requestingPackets := fun hx => by
        rw [(find_iff hwr hso).mpr ⟨rfl,hx⟩] at hr
        cases hr
      have hsame : ∀ l' : AbsentPacketList, l'.notRequestingPackets=l.notRequestingPackets →
          l'.requestingPackets = l.requestingPackets → (l'.Listed x ↔ l.Listed x ∧
            (x=seqno → seqno∈l.notRequestingPackets ∧ seqno∈l.requestingPackets)) := by
        intro l' hn' hr'
        rw [Listed,hn',hr',← Listed]
        refine ⟨fun hx => ⟨hx,?_⟩,And.left⟩
        rintro rfl
        exact absurd hx (not_or.mpr ⟨hnot,hnot'⟩)
      split_ifs
      · exact hsame _ rfl rfl
      · exact hsame _ rfl rfl

theorem found_eq_some {x : BitVec 32}
    (h : l.found seqno = some x) : x=seqno ∧ l.Listed x := by
  obtain ⟨o,hwn,hwr,hso⟩ := ho.rebase hs
  rcases Option.or_eq_some_iff.mp h with h | ⟨-,h⟩
  · exact ((find_iff hwn hso).mp h).imp id .inl
  · exact ((find_iff hwr hso).mp h).imp id .inr

end

theorem isSmallest_added_iff {l' : AbsentPacketList} {m : BitVec 32}
    (hadd : ∀ x, l'.Listed x ↔ x=seqno ∨ l.Listed x) (hm : l.isEmpty=false → l.IsSmallest m) :
    l'.IsSmallest m ↔
      l.Listed seqno ∨ if l.isEmpty then m = seqno else wrappableLess seqno m = false := by
  constructor
  · intro h
    refine or_iff_not_imp_left.mpr fun hnew => ?_
    split_ifs with hempty
    · exact ((hadd m).mp h.1).resolve_right (isEmpty_eq_true_iff.mp hempty m)
    · exact h.2 seqno ((hadd seqno).mpr (.inl rfl))
  · rintro (hlisted | h)
    · have hsame : ∀ x, l'.Listed x ↔ l.Listed x := fun x => by
        rw [hadd]
        exact or_iff_right_of_imp fun he => he ▸ hlisted
      obtain ⟨hmin,hle⟩ := hm (isEmpty_eq_false_iff.mpr ⟨seqno,hlisted⟩)
      exact ⟨(hsame m).mpr hmin,fun x hx => hle x ((hsame x).mp hx)⟩
    · split_ifs at h with hempty
      · subst h
        refine ⟨(hadd _).mpr (.inl rfl),fun x hx => ?_⟩
        rw [((hadd x).mp hx).resolve_right (isEmpty_eq_true_iff.mp hempty x),wrappableLess_self]
      · obtain ⟨hmin,hle⟩ := hm (Bool.eq_false_of_not_eq_true hempty)
        refine ⟨(hadd m).mpr (.inr hmin),fun x hx => ?_⟩
        rcases (hadd x).mp hx with rfl | hx
        · exact h
        · exact hle x hx

end Listed

end AbsentPacketList
namespace PublishedAbsents

variable {t : PublishedAbsents} {e : AbsentEvent}

def ShowsSmallest (t : PublishedAbsents) : Prop :=
  t.list.isEmpty=false → t.list.minSeqno = some t.smallestSeqnoAbsenct ∧
    ∀ x, t.list.Listed x → wrappableLess x t.smallestSeqnoAbsenct = false

theorem showsSmallest_iff (ho : t.list.Ordered) :
    t.ShowsSmallest ↔ (t.list.isEmpty=false → t.list.IsSmallest t.smallestSeqnoAbsenct) := by
  refine imp_congr_right fun _ => ?_
  rw [minSeqno_eq_some_iff ho]
  exact ⟨And.left,fun h => ⟨h,h.2⟩⟩

/-- A number that is listed, or would not be smaller than the published one. -/
def NotBelow (t : PublishedAbsents) (seqno : BitVec 32) : Prop :=
  t.list.Listed seqno ∨ if t.list.isEmpty then t.smallestSeqnoAbsenct = seqno
    else wrappableLess seqno t.smallestSeqnoAbsenct = false

instance (t : PublishedAbsents) (seqno : BitVec 32) : Decidable (t.NotBelow seqno) :=
  inferInstanceAs (Decidable (_ ∨ ite _ _ _))

/-- A request enters no number below the published one, and the published number is not taken out
of its set as long as others are listed. -/
def SparesSmallest (t : PublishedAbsents) : AbsentEvent → Prop
  | .setRequesting seqno => t.NotBelow seqno
  | .requestFailed seqno => (t.list.getPacketInfo seqno).isSome = true → t.NotBelow seqno
  | .recvd seqno _ | .erase seqno _ =>
      seqno = t.smallestSeqnoAbsenct →
        seqno ∈ t.list.notRequestingPackets ∧ seqno∈t.list.requestingPackets ∨
          (t.list.numbers.all fun x => decide (x=seqno)) = true
  | _ => True

instance (t : PublishedAbsents) : (e : AbsentEvent) → Decidable (t.SparesSmallest e)
  | .setRequesting seqno => inferInstanceAs (Decidable (t.NotBelow seqno))
  | .requestFailed _ => inferInstanceAs (Decidable (_ → _))
  | .recvd _ _ | .erase _ _ => inferInstanceAs (Decidable (_ → _ ∧ _ ∨ _))
  | .justKnown _ _ _ | .trim _ _ | .clear => instDecidableTrue

variable {seqno : BitVec 32}

section
variable (h : t.list.isEmpty=false → t.list.IsSmallest t.smallestSeqnoAbsenct)
  (ho : t.list.Ordered)
include h ho

section
variable (hs : HalfRing (seqno::t.list.numbers))
include hs

theorem smallest_erase_iff (now : BitVec 32) :
    ((t.list.erase seqno now).isEmpty = false →
      (t.list.erase seqno now).IsSmallest t.smallestSeqnoAbsenct) ↔
      t.SparesSmallest (.erase seqno now) := by
  have hleft := listed_erase_iff ho hs now
  have hall : (t.list.numbers.all fun x => decide (x=seqno)) = true ↔ ∀ x, t.list.Listed x → x=seqno := by
    rw [List.all_eq_true]
    simp only [decide_eq_true_eq,mem_numbers]
  rw [SparesSmallest,hall]
  constructor
  · intro hgood hsame
    refine or_iff_not_imp_left.mpr fun hboth x hx => ?_
    by_contra hne
    have hkept : (t.list.erase seqno now).Listed x := (hleft x).mpr ⟨hx,fun he => absurd he hne⟩
    have hsmallest := hgood (isEmpty_eq_false_iff.mpr ⟨x,hkept⟩)
    exact hboth (((hleft _).mp hsmallest.1).2 hsame.symm)
  · intro hspares hempty
    obtain ⟨y,hy⟩ := isEmpty_eq_false_iff.mp hempty
    have hylisted := (hleft y).mp hy
    obtain ⟨hmin,hle⟩ := h (isEmpty_eq_false_iff.mpr ⟨y,hylisted.1⟩)
    refine ⟨(hleft _).mpr ⟨hmin,fun hsame => ?_⟩,fun x hx => hle x ((hleft x).mp hx).1⟩
    rcases hspares hsame.symm with hboth | hone
    · exact hboth
    · exact hylisted.2 (hone y hylisted.1)

theorem smallestSeqnoAbsenct_erase (now : BitVec 32) :
    (t.erase seqno now).smallestSeqnoAbsenct = t.smallestSeqnoAbsenct := by
  unfold erase
  cases hf : t.list.found seqno with
  | none => rfl
  | some found =>
    obtain ⟨-,hlisted⟩ := found_eq_some ho hs hf
    have hle := (h (isEmpty_eq_false_iff.mpr ⟨found,hlisted⟩)).2 found hlisted
    dsimp only
    rw [hle,Bool.false_and,if_neg Bool.false_ne_true]

theorem isSmallest_justKnown (o now : BitVec 32)
    (hempty : (t.justKnown seqno o now).list.isEmpty = false) :
    (t.justKnown seqno o now).list.IsSmallest (t.justKnown seqno o now).smallestSeqnoAbsenct := by
  revert hempty
  rw [justKnown,justKnown_eq]
  by_cases henters : inRange seqno o = true ∧ t.list.isKnown seqno now = false
  · intro _
    have hadd := listed_enter_iff ho hs now
    split_ifs with hnew
    · -- the number is the first one or smaller than the smallest so far
      refine ⟨(hadd seqno).mpr (.inl rfl),fun x hx => ?_⟩
      rcases (hadd x).mp hx with rfl | hx
      · exact wrappableLess_self x
      have hfull : t.list.isEmpty=false := isEmpty_eq_false_iff.mpr ⟨x,hx⟩
      rw [hfull,Bool.false_or] at hnew
      obtain ⟨hmin,hle⟩ := h hfull
      obtain ⟨p,hn,hr,hsp⟩ := ho.rebase hs
      have hxp := AbsentPacketList.Ordered.listed_lt hn hr hx
      have hmp := AbsentPacketList.Ordered.listed_lt hn hr hmin
      have hlt := (wrappableLess_iff_ahead_lt hsp hmp).mp hnew
      have hmx := (less_eq_false_iff hxp hmp).mp (hle x hx)
      exact (less_eq_false_iff hxp hsp).mpr (by omega)
    · rw [Bool.not_eq_true,Bool.or_eq_false_iff] at hnew
      apply (isSmallest_added_iff hadd h).mpr
      rw [hnew.1]
      exact .inr hnew.2
  · rw [if_neg henters]
    exact h

end

theorem smallest_step_iff (he : t.Comparable e) :
    ((t.step e).list.isEmpty = false → (t.step e).list.IsSmallest (t.step e).smallestSeqnoAbsenct) ↔
      t.SparesSmallest e := by
  have hadded : ∀ {l : AbsentPacketList} {seqno : BitVec 32},
      (∀ x, l.Listed x ↔ x=seqno ∨ t.list.Listed x) →
        ((l.isEmpty=false → l.IsSmallest t.smallestSeqnoAbsenct) ↔ t.NotBelow seqno) := by
    intro l seqno hadd
    have hfull : l.isEmpty=false :=
      isEmpty_eq_false_iff.mpr ⟨seqno,(hadd seqno).mpr (.inl rfl)⟩
    rw [imp_iff_right hfull]
    exact isSmallest_added_iff hadd h
  cases e with
  | justKnown seqno o now => exact iff_of_true (isSmallest_justKnown h ho he o now) trivial
  | setRequesting seqno => exact hadded (listed_setRequesting_iff ho he)
  | requestFailed seqno =>
    rw [SparesSmallest]
    by_cases hinfo : (t.list.getPacketInfo seqno).isSome = true
    · rw [imp_iff_right hinfo]
      exact hadded (listed_requestFailed_iff ho he hinfo)
    · refine iff_of_true ?_ fun hin => absurd hin hinfo
      rw [step,requestFailed,if_neg hinfo]
      exact h
  | recvd seqno now =>
    rw [step,list_erase,smallestSeqnoAbsenct_erase h ho he]
    exact smallest_erase_iff h ho he now
  | erase seqno now =>
    rw [step,list_erase,smallestSeqnoAbsenct_erase h ho he]
    exact smallest_erase_iff h ho he now
  | trim p range =>
    refine iff_of_true (fun hempty => ?_) trivial
    have hfull : (t.list.trim p range).isEmpty = false := hempty
    obtain ⟨m,hm⟩ := Option.isSome_iff_exists.mp (minSeqno_of_not_isEmpty hfull)
    have hshown : (t.step (.trim p range)).smallestSeqnoAbsenct = m := by
      rw [step,trim]
      rw [hfull,if_neg Bool.false_ne_true,hm,Option.getD_some]
    rw [hshown]
    exact minSeqno_isSmallest (ho.trim p range) hm
  | clear => exact iff_of_true (fun hempty => absurd hempty (by simp [step,clear,isEmpty])) trivial

end

/-- Over a run of calls the smallest absent number is published just as long as the calls spare
it. -/
theorem published_smallest_iff (smallestSeqnoAbsenct : BitVec 32) (es : List AbsentEvent)
    (h : AlongRun step Comparable (create smallestSeqnoAbsenct) es) :
    (∀ n, ((es.take n).foldl step (create smallestSeqnoAbsenct)).ShowsSmallest) ↔
      AlongRun step SparesSmallest (create smallestSeqnoAbsenct) es := by
  refine alongRun_iff_of_invariant (fun t => t.list.Ordered ∧
      (t.list.isEmpty=false → t.list.IsSmallest t.smallestSeqnoAbsenct)) ShowsSmallest
    (fun t ht => (showsSmallest_iff ht.1).mpr ht.2) ?_ ?_ h
    ⟨ordered_empty,fun hempty => absurd hempty (show ¬ empty.isEmpty = false by decide)⟩
  · intro t e ht he hspares
    exact ⟨ordered_step ht.1 he,(smallest_step_iff ht.2 ht.1 he).mpr hspares⟩
  · intro t e ht he hgood
    exact (smallest_step_iff ht.2 ht.1 he).mp ((showsSmallest_iff (ordered_step ht.1 he)).mp hgood)

/-- The larger of two numbers is received first. -/
theorem smallest_received_last :
    let es := [AbsentEvent.justKnown 8 5 1,.justKnown 7 5 1,.setRequesting 7,.recvd 8 2,.requestFailed 7]
    (es.foldl step (create 0)).ShowsSmallest :=
  (published_smallest_iff 0 [.justKnown 8 5 1,.justKnown 7 5 1,.setRequesting 7,.recvd 8 2,
    .requestFailed 7] (by decide)).mpr (by decide) 5

/-- Once number 1 has been received the smallest absent number is 2, and 1 is still published. -/
theorem received_number_published :
    let t := [AbsentEvent.justKnown 1 0 5,.justKnown 2 0 5,.recvd 1 6].foldl step (create 0)
    t.list.isEmpty=false ∧ t.list.minSeqno = some 2 ∧ t.smallestSeqnoAbsenct=1 ∧ ¬ t.ShowsSmallest := by
  intro t
  have hmin : t.list.minSeqno = some 2 := by decide
  have hshown : t.smallestSeqnoAbsenct=1 := by decide
  refine ⟨by decide,hmin,hshown,fun h => ?_⟩
  have hsame := (h (by decide)).1
  exact absurd hsame (by decide)

end PublishedAbsents
end P2Streaming
