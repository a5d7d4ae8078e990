import Mathlib.Data.Finset.Max
import Mathlib.Algebra.Group.Nat.Even
import Mathlib.Order.Interval.Finset.Nat

/-!
# Searches by number in a crowd that shrinks

A crowd has members that answer and dead members; each has a number. A search looks at numbers
below the present size of the crowd, as if the members were numbered without gaps. A look at a
member that answers ends the search, a look at a dead member drops it, and any other look does
nothing. The lemmas say what looks can be made without an answer, and when a sweep over the numbers
below the size meets a member that answers.
-/
namespace P2Streaming.ShrinkingCrowds
open Finset

def size (A D : Finset ℕ) : ℕ := D.card+A.card

/-- `k` looks without an answer drop the dead from `D` to `D'`. -/
inductive Missed (A : Finset ℕ) : ℕ → Finset ℕ → Finset ℕ → Prop where
  | done (D : Finset ℕ) : Missed A 0 D D
  | look {k : ℕ} {D D' : Finset ℕ} (i : ℕ) (hlt : i < size A D) (hi : i ∉ A)
      (h : Missed A k (D.erase i) D') : Missed A (k+1) D D'

/-- The sweep over the numbers below the size, from below or from above; without an answer it
leaves the dead that are left. -/
def sweep (A : Finset ℕ) (reverse : Bool) : ℕ → ℕ → Finset ℕ → Option (Finset ℕ)
  | 0, _, D => some D
  | passes + 1, n, D =>
      if n < size A D then
        let i := if reverse then size A D - n - 1 else n
        if i∈A then none else sweep A reverse passes (n+1) (D.erase i)
      else some D

variable {A D : Finset ℕ}

theorem size_erase_of_mem {i : ℕ} (h : i∈D) : size A (D.erase i) + 1 = size A D := by
  have := card_erase_add_one h
  unfold size
  omega

theorem size_erase_of_notMem {i : ℕ} (h : i ∉ D) : size A (D.erase i) = size A D := by
  rw [erase_eq_of_notMem h]

/-- The dead below `a` from `n` on. -/
def deadBetween (D : Finset ℕ) (n a : ℕ) : ℕ := (D.filter fun d => n ≤ d ∧ d<a).card

theorem deadBetween_self (D : Finset ℕ) (n : ℕ) : deadBetween D n n = 0 := by
  rw [deadBetween,card_eq_zero,filter_eq_empty_iff]
  intro d _ h
  omega

theorem deadBetween_erase {n a : ℕ} (h : n<a) :
    deadBetween (D.erase n) (n+1) a + (if n∈D then 1 else 0) = deadBetween D n a := by
  unfold deadBetween
  have hsplit : D.filter (fun d => n ≤ d ∧ d<a) =
      (D.erase n).filter (fun d => n+1 ≤ d ∧ d<a) ∪ if n∈D then {n} else ∅ := by
    ext d
    split_ifs with hn
    · simp only [mem_filter,mem_union,mem_erase,mem_singleton]
      constructor
      · rintro ⟨hd,hle,hlt⟩
        by_cases hdn : d=n
        · exact .inr hdn
        · exact .inl ⟨⟨hdn,hd⟩,by omega,hlt⟩
      · rintro (⟨⟨-,hd⟩,hle,hlt⟩ | rfl)
        · exact ⟨hd,by omega,hlt⟩
        · exact ⟨hn,Nat.le_refl _,h⟩
    · simp only [mem_filter,union_empty,mem_erase]
      constructor
      · rintro ⟨hd,hle,hlt⟩
        have hdn : d≠n := fun he => hn (he ▸ hd)
        exact ⟨⟨hdn,hd⟩,by omega,hlt⟩
      · rintro ⟨⟨-,hd⟩,hle,hlt⟩
        exact ⟨hd,by omega,hlt⟩
  rw [hsplit,card_union_of_disjoint]
  · split_ifs <;> simp
  · split_ifs with hn
    · simp
    · simp

/-- A sweep from below meets a member that answers just when its number and the dead before it add
up to less than the size. -/
theorem sweep_forward_eq_none_iff (passes n : ℕ) (D : Finset ℕ) (h : size A D ≤ n+passes) :
    sweep A false passes n D = none ↔ ∃ a∈A, n≤a ∧ a + deadBetween D n a < size A D := by
  induction passes generalizing n D with
  | zero =>
    refine iff_of_false (by simp [sweep]) ?_
    rintro ⟨a,-,hle,hlt⟩
    omega
  | succ passes ih =>
    rw [sweep]
    by_cases hn : n < size A D
    swap
    · rw [if_neg hn]
      refine iff_of_false (by simp) ?_
      rintro ⟨a,-,hle,hlt⟩
      omega
    rw [if_pos hn]
    by_cases hA : n∈A
    · rw [if_pos (by simpa using hA)]
      exact iff_of_true rfl ⟨n,hA,Nat.le_refl _,by rw [deadBetween_self]; omega⟩
    · rw [if_neg (by simpa using hA)]
      have hsize : size A (D.erase n) + (if n∈D then 1 else 0) = size A D := by
        split_ifs with hD
        · exact size_erase_of_mem hD
        · exact size_erase_of_notMem hD
      have hle : size A (D.erase n) ≤ n + 1 + passes := by omega
      have hih := ih (n+1) (D.erase n) hle
      simp only [Bool.false_eq_true,if_false]
      rw [hih]
      constructor
      · rintro ⟨a,ha,hna,hlt⟩
        have := deadBetween_erase (D := D) (show n < a by omega)
        exact ⟨a,ha,by omega,by omega⟩
      · rintro ⟨a,ha,hna,hlt⟩
        have hne : n≠a := fun he => hA (he ▸ ha)
        have := deadBetween_erase (D := D) (show n < a by omega)
        exact ⟨a,ha,by omega,by omega⟩

/-- What a sweep from above meets below `t`: a member that answers with an even number of dead
directly above it, so that the steps over them end on it. -/
def MeetsBelow (A D : Finset ℕ) (t : ℕ) : Prop :=
  ∃ a∈A, ∃ r, Even r ∧ a+r<t ∧ (∀ j, a<j → j≤a+r → j∈D) ∧
    (a + r + 1 < t → a + r + 1 ∉ D)

theorem meetsBelow_of_mem {t : ℕ} (h : t∈A) : MeetsBelow A D (t+1) :=
  ⟨t,h,0,Even.zero,by omega,fun j _ _ => by omega,fun _ => by omega⟩

theorem meetsBelow_succ_iff {t : ℕ} (hA : t ∉ A) (hD : t ∉ D) :
    MeetsBelow A D (t+1) ↔ MeetsBelow A D t := by
  constructor
  · rintro ⟨a,ha,r,hr,hlt,hdead,hnext⟩
    have hne : a+r≠t := by
      intro heq
      by_cases h0 : r=0
      · exact hA (by rwa [← heq,h0])
      · exact hD (heq ▸ hdead (a+r) (by omega) (Nat.le_refl _))
    exact ⟨a,ha,r,hr,by omega,hdead,fun h => hnext (by omega)⟩
  · rintro ⟨a,ha,r,hr,hlt,hdead,hnext⟩
    refine ⟨a,ha,r,hr,by omega,hdead,fun h => ?_⟩
    by_cases heq : a + r + 1 = t
    · rwa [heq]
    · exact hnext (by omega)

/-- A dead member at the top is dropped, and the next look is two numbers below it. -/
theorem meetsBelow_succ_of_dead {t : ℕ} (hA : t ∉ A) (hD : t∈D) :
    MeetsBelow A D (t+1) ↔ MeetsBelow A (D.erase t) (t - 1) := by
  constructor
  · rintro ⟨a,ha,r,hr,hlt,hdead,hnext⟩
    have hne : a≠t := fun heq => hA (heq ▸ ha)
    have hgap : a + r + 1 ≠ t := fun heq => hnext (by omega) (heq ▸ hD)
    by_cases htop : a+r=t
    · obtain ⟨k,rfl⟩ := hr
      refine ⟨a,ha,(k - 1) + (k - 1),⟨k - 1,rfl⟩,by omega,fun j hj hle => ?_,fun h => by omega⟩
      exact mem_erase.mpr ⟨by omega,hdead j hj (by omega)⟩
    · refine ⟨a,ha,r,hr,by omega,fun j hj hle => ?_,fun h hmem => ?_⟩
      · exact mem_erase.mpr ⟨by omega,hdead j hj hle⟩
      · exact hnext (by omega) (mem_of_mem_erase hmem)
  · rintro ⟨a,ha,r,hr,hlt,hdead,hnext⟩
    have hdead' : ∀ j, a<j → j≤a+r → j∈D :=
      fun j hj hle => mem_of_mem_erase (hdead j hj hle)
    by_cases hrun : a + r + 2 = t ∧ a + r + 1 ∈ D
    · -- the run of dead members reaches up to the top
      refine ⟨a,ha,r+2,hr.add (by decide),by omega,fun j hj hle => ?_,fun h => by omega⟩
      rcases Nat.lt_trichotomy j (a + r + 1) with hj' | rfl | hj'
      · exact hdead' j hj (by omega)
      · exact hrun.2
      · have : j=t := by omega
        exact this ▸ hD
    · refine ⟨a,ha,r,hr,by omega,hdead',fun _ hmem => ?_⟩
      by_cases heq : a + r + 2 = t
      · exact hrun ⟨heq,hmem⟩
      · exact hnext (by omega) (mem_erase.mpr ⟨by omega,hmem⟩)

/-- A sweep from above meets a member that answers just when the steps over the dead end on one. -/
theorem sweep_backward_eq_none_iff (passes n : ℕ) (D : Finset ℕ) (h : size A D ≤ n+passes) :
    sweep A true passes n D = none ↔ MeetsBelow A D (size A D - n) := by
  induction passes generalizing n D with
  | zero =>
    refine iff_of_false (by simp [sweep]) ?_
    rintro ⟨a,-,r,-,hlt,-⟩
    omega
  | succ passes ih =>
    rw [sweep]
    by_cases hn : n < size A D
    swap
    · rw [if_neg hn]
      refine iff_of_false (by simp) ?_
      rintro ⟨a,-,r,-,hlt,-⟩
      omega
    obtain ⟨t,ht⟩ : ∃ t, size A D - n = t+1 := ⟨size A D - n - 1,by omega⟩
    rw [if_pos hn]
    simp only [if_true]
    rw [ht,Nat.add_sub_cancel]
    by_cases hA : t∈A
    · rw [if_pos hA]
      exact iff_of_true rfl (meetsBelow_of_mem hA)
    · rw [if_neg hA]
      by_cases hD : t∈D
      · have hsize := size_erase_of_mem (A := A) hD
        rw [meetsBelow_succ_of_dead hA hD,ih _ _ (by omega)]
        have ht' : size A (D.erase t) - (n+1) = t - 1 := by omega
        rw [ht']
      · have hsize := size_erase_of_notMem (A := A) hD
        rw [meetsBelow_succ_iff hA hD,ih _ _ (by omega),hsize,erase_eq_of_notMem hD]
        have ht' : size A D - (n+1) = t := by omega
        rw [ht']

/-- A sweep from above that passes over a member with number zero has dropped at most half as many
dead as it had numbers before it. -/
theorem card_le_of_sweep_backward (h0 : 0∈A) (passes n : ℕ) (D D' : Finset ℕ)
    (hs : sweep A true passes n D = some D') : 2*D.card ≤ size A D - n + 2 * D'.card := by
  induction passes generalizing n D with
  | zero =>
    cases hs
    omega
  | succ passes ih =>
    rw [sweep] at hs
    by_cases hn : n < size A D
    swap
    · rw [if_neg hn] at hs
      cases hs
      omega
    rw [if_pos hn] at hs
    simp only [if_true] at hs
    by_cases hA : size A D - n - 1 ∈ A
    · rw [if_pos hA] at hs
      exact absurd hs (by simp)
    rw [if_neg hA] at hs
    have hrest := ih _ _ hs
    by_cases hD : size A D - n - 1 ∈ D
    · have hsize := size_erase_of_mem (A := A) hD
      have hcard := card_erase_add_one hD
      have hpos : size A D - n - 1 ≠ 0 := fun heq => hA (heq ▸ h0)
      omega
    · rw [erase_eq_of_notMem hD] at hrest
      omega

/-! ### Looks without an answer -/

theorem Missed.trans {k l : ℕ} {D₁ D₂ D₃ : Finset ℕ} (h : Missed A k D₁ D₂) (h' : Missed A l D₂ D₃) :
    Missed A (k+l) D₁ D₃ := by
  induction h with
  | done D => rwa [Nat.zero_add]
  | look i hlt hi h ih =>
    rw [Nat.succ_add]
    exact .look i hlt hi (ih h')

variable {D D' : Finset ℕ} {k : ℕ}

theorem Missed.subset (h : Missed A k D D') : D' ⊆ D := by
  induction h with
  | done D => exact Finset.Subset.refl D
  | look i hlt hi h ih => exact ih.trans (erase_subset i _)

/-- A number that nobody has any more can be looked at again and again. -/
theorem Missed.idle {u : ℕ} (hlt : u < size A D) (hA : u ∉ A) (hD : u ∉ D) (k : ℕ) : Missed A k D D := by
  induction k with
  | zero => exact .done D
  | succ k ih =>
    refine .look u hlt hA ?_
    rwa [erase_eq_of_notMem hD]

/-- Dead members with numbers below the size can be dropped from the greatest number on. -/
theorem Missed.drop (E : Finset ℕ) (hED : E ⊆ D) (hdisj : Disjoint A D)
    (hlt : ∀ e∈E, e < size A D) : Missed A E.card D (D \ E) := by
  induction E using induction_on_max generalizing D with
  | empty =>
    rw [card_empty,sdiff_empty]
    exact .done D
  | insert a E hmax ih =>
    have ha : a∈D := hED (mem_insert_self a E)
    have hnot : a ∉ E := fun h => Nat.lt_irrefl a (hmax a h)
    rw [card_insert_of_notMem hnot]
    refine .look a (hlt a (mem_insert_self a E)) (disjoint_right.mp hdisj ha) ?_
    have hrest : D \ insert a E = D.erase a \ E := by
      rw [sdiff_insert,erase_sdiff_comm]
    rw [hrest]
    have hsize := size_erase_of_mem (A := A) ha
    have halt := hlt a (mem_insert_self a E)
    apply ih
    · intro e he
      exact mem_erase.mpr ⟨(hmax e he).ne,hED (mem_insert_of_mem he)⟩
    · exact hdisj.mono_right (erase_subset a D)
    · intro e he
      have := hmax e he
      omega

/-- The sets of dead members that `k` looks can drop. With fewer of them than looks there must be a
number to look at in vain: one that nobody has from the start, or one of a dropped member that is
still below the size at the end. -/
structure Droppable (A D : Finset ℕ) (k : ℕ) (E : Finset ℕ) : Prop where
  subset : E ⊆ D
  lt_size : ∀ e∈E, e < size A D
  card_le : E.card≤k
  idle : (∃ u < size A D, u ∉ D ∪ A) ∨ E.card=k ∨ ∃ e∈E, e + E.card < size A D

variable {E : Finset ℕ}

theorem Droppable.missed (hdisj : Disjoint A D) (h : Droppable A D k E) : Missed A k D (D \ E) := by
  have hdrop := Missed.drop E h.subset hdisj h.lt_size
  have hcard := h.card_le
  rcases h.idle with ⟨u,hlt,hu⟩ | hall | ⟨e,he,hlt⟩
  · rw [mem_union,not_or] at hu
    have hk : k = (k - E.card) + E.card := by omega
    rw [hk]
    exact (Missed.idle hlt hu.2 hu.1 _).trans hdrop
  · rwa [← hall]
  · have hk : k = E.card + (k - E.card) := by omega
    rw [hk]
    refine hdrop.trans (Missed.idle (u := e) ?_ ?_ ?_ _)
    · have := card_sdiff_add_card_eq_card h.subset
      unfold size at hlt ⊢
      omega
    · exact disjoint_right.mp hdisj (h.subset he)
    · simp [he]

theorem Missed.lt_size (h : Missed A k D D') : ∀ e ∈ D \ D', e < size A D := by
  induction h with
  | done D => simp
  | @look k D D' i hlt hi h ih =>
    intro e he
    by_cases hei : e=i
    · rwa [hei]
    · rw [mem_sdiff] at he
      have hmem : e ∈ D.erase i \ D' := mem_sdiff.mpr ⟨mem_erase.mpr ⟨hei,he.1⟩,he.2⟩
      refine (ih e hmem).trans_le ?_
      unfold size
      have := card_le_card (erase_subset i D)
      omega

theorem Missed.card_le (h : Missed A k D D') : D.card≤D'.card+k := by
  induction h with
  | done D => omega
  | @look k D D' i hlt hi h ih =>
    have := pred_card_le_card_erase (s := D) (a := i)
    omega

/-- Where everybody is numbered without a gap and no dropped member is below the size at the end,
the members have been dropped from the top and no look was in vain. -/
theorem Missed.card_eq_of_full (h : Missed A k D D')
    (hfull : ∀ u < size A D, u ∈ D ∪ A) (htop : ∀ e ∈ D \ D', size A D ≤ e + (D \ D').card) :
    (D \ D').card = k := by
  induction h with
  | done D => simp
  | @look k D D' i hlt hi h ih =>
    have hiD : i∈D := (mem_union.mp (hfull i hlt)).resolve_right hi
    have hsub := h.subset
    have hiD' : i ∉ D' := fun hmem => absurd rfl (mem_erase.mp (hsub hmem)).1
    have hsize := size_erase_of_mem (A := A) hiD
    have hrest : D \ D' = insert i (D.erase i \ D') := by
      rw [← insert_sdiff_of_notMem _ hiD',insert_erase hiD]
    have hnot : i ∉ D.erase i \ D' := by simp
    have hcard : (D \ D').card = (D.erase i \ D').card + 1 := by
      rw [hrest,card_insert_of_notMem hnot]
    -- all of them lie in an interval with as many numbers as there are, so the top one is first
    have hi_top : i+1 = size A D := by
      by_contra hne
      have hsub : D \ D' ⊆ Finset.Ico (size A D - (D \ D').card) (size A D - 1) := by
        intro e he
        rw [mem_Ico]
        refine ⟨by have := htop e he; omega,?_⟩
        rw [hrest,mem_insert] at he
        rcases he with rfl | he
        · omega
        · have := h.lt_size e he
          omega
      have hle := card_le_card hsub
      rw [Nat.card_Ico] at hle
      omega
    rw [hcard,ih]
    · intro u hu
      have := hfull u (by omega)
      rw [mem_union] at this ⊢
      exact this.imp_left fun hmem => mem_erase.mpr ⟨by omega,hmem⟩
    · intro e he
      have := htop e (hrest ▸ mem_insert_of_mem he)
      omega

theorem Missed.droppable (h : Missed A k D D') : Droppable A D k (D \ D') := by
  have hcard := card_sdiff_add_card_eq_card h.subset
  have hle := h.card_le
  refine ⟨sdiff_subset,h.lt_size,by omega,?_⟩
  by_cases hgap : ∃ u < size A D, u ∉ D ∪ A
  · exact .inl hgap
  · by_cases hlow : ∃ e ∈ D \ D', e + (D \ D').card < size A D
    · exact .inr (.inr hlow)
    · push Not at hgap hlow
      exact .inr (.inl (h.card_eq_of_full hgap hlow))

/-! ### The whole search -/

/-- A search of looks at any numbers, a sweep and a last look can end without an answer. -/
def CanMiss (A D : Finset ℕ) (k : ℕ) : Prop :=
  ∃ D₁, Missed A k D D₁ ∧ ∃ (reverse : Bool) (D₂ : Finset ℕ),
    sweep A reverse (size A D₁) 0 D₁ = some D₂ ∧ ∃ j < size A D₂, j ∉ A

def SweepsMeet (A D : Finset ℕ) : Prop :=
  (∃ a∈A, a + deadBetween D 0 a < size A D) ∧ MeetsBelow A D (size A D)

theorem sweeps_eq_none_iff : (∀ reverse, sweep A reverse (size A D) 0 D = none) ↔ SweepsMeet A D := by
  have hle : size A D ≤ 0 + size A D := by omega
  rw [Bool.forall_bool,sweep_forward_eq_none_iff _ _ _ hle,sweep_backward_eq_none_iff _ _ _ hle]
  simp [SweepsMeet]

/-- The last look gives the only answer just where the member with number zero is all that is left
of two, and the sweep came from above. -/
theorem eq_of_sweep_of_last {reverse : Bool} {D₂ : Finset ℕ} (hdisj : Disjoint A D)
    (hne : A.Nonempty) (hs : sweep A reverse (size A D) 0 D = some D₂) (hlast : ∀ j < size A D₂, j∈A) :
    A = {0} ∧ D = {1} := by
  have hle : size A D ≤ 0 + size A D := by omega
  have hpos : 0<A.card := card_pos.mpr hne
  have hrange : range (size A D₂) ⊆ A := fun j hj => hlast j (mem_range.mp hj)
  have hcard : size A D₂ ≤ A.card := by simpa using card_le_card hrange
  have hnil : D₂.card=0 := by
    unfold size at hcard
    omega
  have h0 : 0∈A := hlast 0 (by unfold size; omega)
  cases reverse with
  | false =>
    have hmeets : sweep A false (size A D) 0 D = none := by
      rw [sweep_forward_eq_none_iff _ _ _ hle]
      refine ⟨0,h0,Nat.le_refl 0,?_⟩
      rw [deadBetween_self]
      unfold size
      omega
    rw [hmeets] at hs
    exact absurd hs (by simp)
  | true =>
    have hmiss : ¬ MeetsBelow A D (size A D) := by
      have := sweep_backward_eq_none_iff (A := A) _ _ _ hle
      rw [Nat.sub_zero] at this
      rw [← this,hs]
      simp
    have hhalf := card_le_of_sweep_backward h0 _ _ _ _ hs
    have hone : 1∈D := by
      by_contra hmem
      exact hmiss ⟨0,h0,0,Even.zero,by unfold size; omega,fun j _ _ => by omega,fun _ => hmem⟩
    have hA : range (size A D₂) = A :=
      eq_of_subset_of_card_le hrange (by rw [card_range]; unfold size; omega)
    have hsize : size A D₂ = 1 := by
      by_contra hsize
      have hmem : 1∈A := hlast 1 (by unfold size at hsize ⊢; omega)
      exact disjoint_left.mp hdisj hmem hone
    rw [hsize,range_one] at hA
    refine ⟨hA.symm,?_⟩
    rw [← hA] at hhalf
    unfold size at hhalf
    rw [card_singleton] at hhalf
    have hle : D.card≤1 := by omega
    exact eq_singleton_iff_unique_mem.mpr
      ⟨hone,fun d hd => card_le_one.mp hle d hd 1 hone⟩

/-- From above, number zero is passed over by a step over one dead member. -/
theorem not_meetsBelow_zero {t : ℕ} (h1 : 1∈D) (h2 : 2 ∉ D) (ht : 1<t) : ¬ MeetsBelow {0} D t := by
  rintro ⟨a,ha,r,hr,hlt,hdead,hnext⟩
  rw [mem_singleton] at ha
  subst ha
  obtain ⟨k,rfl⟩ := hr
  by_cases hk : k=0
  · subst hk
    exact hnext ht h1
  · exact h2 (hdead 2 (by omega) (by omega))

/-- Members 0 and 1 are left of a crowd of five or six that is numbered without a gap. -/
theorem eq_range_of_two_left (hdisj : Disjoint {0} D)
    (hE : Droppable {0} D (size {0} D / 2 + 1) E) (hleft : D \ E = {1}) :
    (size {0} D = 5 ∨ size {0} D = 6) ∧ D = (range (size {0} D)).erase 0 := by
  have hcard := card_sdiff_add_card_eq_card hE.subset
  rw [hleft,card_singleton] at hcard
  have hsize : size {0} D = D.card+1 := by rw [size,card_singleton]
  have h1 : 1∈D ∧ 1 ∉ E := by
    rw [← mem_sdiff,hleft,mem_singleton]
  have h0 : 0 ∉ D := disjoint_singleton_left.mp hdisj
  have hsub : D ⊆ (range (size {0} D)).erase 0 := by
    intro d hd
    rw [mem_erase,mem_range]
    refine ⟨fun h => h0 (h ▸ hd),?_⟩
    by_cases he : d∈E
    · exact hE.lt_size d he
    · have hd1 : d ∈ D \ E := mem_sdiff.mpr ⟨hd,he⟩
      rw [hleft,mem_singleton] at hd1
      omega
  have hD : D = (range (size {0} D)).erase 0 := by
    apply eq_of_subset_of_card_le hsub
    rw [card_erase_of_mem (mem_range.mpr (by omega)),card_range]
    omega
  refine ⟨?_,hD⟩
  rcases hE.idle with ⟨u,hu,hgap⟩ | hall | ⟨e,he,hlow⟩
  · rw [mem_union,mem_singleton,not_or] at hgap
    rw [hD,mem_erase,mem_range] at hgap
    exact absurd ⟨hgap.2,hu⟩ hgap.1
  · omega
  · have he0 : e≠0 := fun h => h0 (h ▸ hE.subset he)
    have he1 : e≠1 := fun h => h1.2 (h ▸ he)
    omega

theorem canMiss_of_droppable (hdisj : Disjoint A D) (hne : A.Nonempty)
    (hE : Droppable A D k E) (hmeet : ¬ SweepsMeet A (D \ E)) (hleft : ¬ (A = {0} ∧ D \ E = {1})) :
    CanMiss A D k := by
  rw [← sweeps_eq_none_iff,not_forall] at hmeet
  obtain ⟨reverse,hs⟩ := hmeet
  obtain ⟨D₂,hs⟩ := Option.ne_none_iff_exists'.mp hs
  refine ⟨D \ E,hE.missed hdisj,reverse,D₂,hs,?_⟩
  by_contra hlast
  push Not at hlast
  exact hleft (eq_of_sweep_of_last (hdisj.mono_right sdiff_subset) hne hs hlast)

/-- A search with one look for every two members, and one more, can end without an answer just when
looks can drop dead members so that one of the sweeps misses. -/
theorem canMiss_iff (hdisj : Disjoint A D) (hne : A.Nonempty) : CanMiss A D (size A D / 2 + 1) ↔
      ∃ E, Droppable A D (size A D / 2 + 1) E ∧ ¬ SweepsMeet A (D \ E) := by
  constructor
  · rintro ⟨D₁,hmissed,reverse,D₂,hs,-⟩
    refine ⟨D \ D₁,hmissed.droppable,?_⟩
    rw [Finset.sdiff_sdiff_eq_self hmissed.subset,← sweeps_eq_none_iff]
    intro hnone
    rw [hnone reverse] at hs
    exact absurd hs (by simp)
  · rintro ⟨E,hE,hmeet⟩
    by_cases hleft : A = {0} ∧ D \ E = {1}
    swap
    · exact canMiss_of_droppable hdisj hne hE hmeet hleft
    -- the last look may find member 0 here, but not where only member 2 has been dropped before
    obtain ⟨rfl,hleft⟩ := hleft
    obtain ⟨hsize,hD⟩ := eq_range_of_two_left hdisj hE hleft
    have hmem : ∀ d, d∈D ↔ d≠0 ∧ d < size {0} D := by
      intro d
      rw [hD,mem_erase,mem_range,← hD]
    have h1 : 1 ∈ D \ {2} := by simp [hmem]; omega
    have h3 : 3 ∈ D \ {2} := by simp [hmem]; omega
    refine canMiss_of_droppable (E := {2}) hdisj hne ⟨?_,?_,?_,?_⟩ ?_ ?_
    · simp [hmem]
      omega
    · simp
      omega
    · simp
    · refine .inr (.inr ⟨2,mem_singleton_self 2,?_⟩)
      rw [card_singleton]
      omega
    · intro h
      refine not_meetsBelow_zero h1 (by simp) ?_ h.2
      rw [size,card_singleton]
      have := card_pos.mpr ⟨1,h1⟩
      omega
    · rintro ⟨-,h⟩
      rw [h] at h3
      exact absurd h3 (by decide)

end P2Streaming.ShrinkingCrowds
