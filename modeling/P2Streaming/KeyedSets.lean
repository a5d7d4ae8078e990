import Mathlib.Data.Prod.Lex
import Mathlib.Data.List.Pairwise

/-!
# Ordered sets with a key outside the set

The elements of a set are ordered by a key that is kept elsewhere, and by themselves when
their keys are equal. The set is a list in which a search goes on as long as the elements are
smaller. As long as the list is in order of the present keys, a search finds every element.
-/
namespace P2Streaming.KeyedSets
open List

variable {α κ : Type*} [LinearOrder α] [LinearOrder κ]

def less (key : α → κ) (a b : α) : Bool := if key a ≠ key b then decide (key a < key b) else decide (a<b)

def contains (key : α → κ) (c : α) : List α → Bool
  | [] => false
  | d :: l => if less key d c then contains key c l else !less key c d

def insert (key : α → κ) (c : α) : List α → List α
  | [] => [c]
  | d :: l => if less key d c then d :: insert key c l else if less key c d then c :: d :: l else d :: l

def erase (key : α → κ) (c : α) : List α → List α
  | [] => []
  | d :: l => if less key d c then d :: erase key c l else if less key c d then d :: l else l

def Sorted (key : α → κ) (l : List α) : Prop := l.Pairwise fun a b => less key a b = true

variable {key key' : α → κ} {a b c d : α} {l : List α}

theorem less_iff : less key a b = true ↔ toLex (key a, a) < toLex (key b, b) := by
  rw [less,Prod.Lex.toLex_lt_toLex]
  split_ifs with h
  · simp [h]
  · simp [not_not.mp h]

theorem less_trans (h : less key a b = true) (h' : less key b c = true) : less key a c = true :=
  less_iff.mpr ((less_iff.mp h).trans (less_iff.mp h'))

theorem ne_of_less (h : less key a b = true) : a≠b := by
  rintro rfl
  exact lt_irrefl _ (less_iff.mp h)

theorem not_less_of_less (h : less key a b = true) : ¬ less key b a = true :=
  fun h' => (less_iff.mp h).asymm (less_iff.mp h')

theorem eq_of_not_less (h : ¬ less key a b = true) (h' : ¬ less key b a = true) : a=b := by
  rw [less_iff,not_lt] at h h'
  exact congrArg (fun p => (ofLex p).2) (le_antisymm h' h)

theorem less_congr (ha : key a = key' a) (hb : key b = key' b) : less key a b = less key' a b := by
  rw [less,less,ha,hb]

theorem Sorted.congr (h : Sorted key l) (hkey : ∀ c∈l, key c = key' c) : Sorted key' l :=
  h.imp_of_mem fun ha hb hless => (less_congr (hkey _ ha) (hkey _ hb)).symm.trans hless

theorem Sorted.sublist {l' : List α} (h : Sorted key l) (hsub : l'.Sublist l) : Sorted key l' :=
  List.Pairwise.sublist hsub h

theorem Sorted.nodup (h : Sorted key l) : l.Nodup := h.imp ne_of_less

theorem mem_insert : d ∈ insert key c l ↔ d=c ∨ d∈l := by
  induction l with
  | nil => simp [insert]
  | cons e l ih =>
    rw [insert]
    split_ifs with hless hgreater
    · simp only [mem_cons,ih,or_left_comm]
    · exact mem_cons
    · have heq : e=c := eq_of_not_less hless hgreater
      simp [heq]

theorem Sorted.insert (h : Sorted key l) (c : α) : Sorted key (insert key c l) := by
  induction l with
  | nil => exact pairwise_singleton _ _
  | cons d l ih =>
    obtain ⟨hd,hl⟩ := pairwise_cons.mp h
    rw [KeyedSets.insert]
    split_ifs with hless hgreater
    · refine pairwise_cons.mpr ⟨fun e he => ?_,ih hl⟩
      rcases mem_insert.mp he with rfl | he
      · exact hless
      · exact hd e he
    · refine pairwise_cons.mpr ⟨fun e he => ?_,h⟩
      rcases mem_cons.mp he with rfl | he
      · exact hgreater
      · exact less_trans hgreater (hd e he)
    · exact h

theorem not_mem_of_less (h : Sorted key (d::l)) (hless : less key c d = true) : c ∉ d :: l := by
  intro hmem
  rcases mem_cons.mp hmem with rfl | hmem
  · exact ne_of_less hless rfl
  · exact not_less_of_less hless ((pairwise_cons.mp h).1 c hmem)

theorem contains_iff (h : Sorted key l) (c : α) : contains key c l = true ↔ c∈l := by
  induction l with
  | nil => simp [contains]
  | cons d l ih =>
    obtain ⟨-,hl⟩ := pairwise_cons.mp h
    rw [contains]
    split_ifs with hless
    · rw [ih hl,mem_cons,or_iff_right (ne_of_less hless).symm]
    · cases hgreater : less key c d with
      | true => exact iff_of_false (by simp) (not_mem_of_less h hgreater)
      | false =>
        have heq : d=c := eq_of_not_less hless (by rw [hgreater]; exact Bool.false_ne_true)
        simp [heq]

theorem erase_sublist (c : α) (l : List α) : (erase key c l).Sublist l := by
  induction l with
  | nil => exact List.Sublist.slnil
  | cons d l ih =>
    rw [erase]
    split_ifs
    · exact ih.cons_cons d
    · exact List.Sublist.refl _
    · exact sublist_cons_self d l

theorem mem_erase (h : Sorted key l) : d ∈ erase key c l ↔ d∈l ∧ d≠c := by
  induction l with
  | nil => simp [erase]
  | cons e l ih =>
    obtain ⟨he,hl⟩ := pairwise_cons.mp h
    rw [erase]
    split_ifs with hless hgreater
    · rw [mem_cons,mem_cons,ih hl]
      refine ⟨?_,fun ⟨hd,hne⟩ => hd.imp id fun hd => ⟨hd,hne⟩⟩
      rintro (rfl | hd)
      · exact ⟨.inl rfl,ne_of_less hless⟩
      · exact ⟨.inr hd.1,hd.2⟩
    · refine ⟨fun hd => ⟨hd,?_⟩,And.left⟩
      rintro rfl
      exact not_mem_of_less h hgreater hd
    · obtain rfl : e=c := eq_of_not_less hless hgreater
      rw [mem_cons]
      constructor
      · exact fun hd => ⟨.inr hd,(ne_of_less (he d hd)).symm⟩
      · exact fun ⟨hd,hne⟩ => hd.resolve_left hne

end P2Streaming.KeyedSets
