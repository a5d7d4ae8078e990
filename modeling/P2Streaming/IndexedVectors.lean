import Mathlib.Algebra.Order.Ring.Int
import Mathlib.Data.List.Nodup

/-!
# Vectors with an index by key

The elements of a vector have keys, and an index says for each key at which position its element
stands; a negative number says that there is none. An element is taken out by moving the last one
into its place.
-/
namespace P2Streaming.IndexedVectors
open Function List

variable {α ι : Type*} (key : α → ι)

/-- The index gives a position just when the element there has the key. -/
def Indexes (index : ι → ℤ) (vec : List α) : Prop :=
  ∀ (i : ι) (k : ℕ), index i = k ↔ ∃ x, vec[k]? = some x ∧ key x = i

variable {key} {index : ι → ℤ} {vec : List α}

namespace Indexes

theorem nil : Indexes key (fun _ => -1) ([] : List α) := by
  intro i k
  constructor
  · intro h
    have hneg : (-1 : ℤ) = k := h
    omega
  · rintro ⟨x,hx,-⟩
    simp at hx

theorem of_getElem? (h : Indexes key index vec) {k : ℕ} {x : α} (hx : vec[k]? = some x) :
    index (key x) = k :=
  (h (key x) k).mpr ⟨x,hx,rfl⟩

variable {x y : α}

section
variable (h : Indexes key index vec)
include h

theorem pos_eq {j k : ℕ} (hx : vec[j]? = some x)
    (hy : vec[k]? = some y) (heq : key x = key y) : j=k := by
  have hj := h.of_getElem? hx
  have hk := h.of_getElem? hy
  rw [heq,hk] at hj
  omega

theorem nodup : (vec.map key).Nodup := by
  rw [List.Nodup,pairwise_map,pairwise_iff_getElem]
  intro j k hj hk hlt heq
  have hsame := h.pos_eq (List.getElem?_eq_getElem hj) (List.getElem?_eq_getElem hk) heq
  omega

theorem eq_of_key_eq (hx : x∈vec) (hy : y∈vec) (heq : key x = key y) : x=y :=
  inj_on_of_nodup_map h.nodup hx hy heq

theorem neg_iff (i : ι) : index i < 0 ↔ ∀ x∈vec, key x ≠ i := by
  constructor
  · rintro hneg x hx rfl
    obtain ⟨k,hk⟩ := List.getElem?_of_mem hx
    rw [h.of_getElem? hk] at hneg
    omega
  · intro hnone
    by_contra hpos
    obtain ⟨k,hk⟩ := Int.eq_ofNat_of_zero_le (not_lt.mp hpos)
    obtain ⟨x,hx,hkey⟩ := (h i k).mp hk
    exact hnone x (mem_of_getElem? hx) hkey

theorem getElem?_of_nonneg {i : ι} (hi : 0 ≤ index i) :
    ∃ x, vec[(index i).toNat]? = some x ∧ key x = i :=
  (h i _).mp (Int.toNat_of_nonneg hi).symm

theorem set {k : ℕ} (hy : vec[k]? = some y)
    (hkey : key x = key y) : Indexes key index (vec.set k x) := by
  have hlt := (List.getElem?_eq_some_iff.mp hy).1
  intro i j
  rw [h i j]
  by_cases hj : k=j
  · subst hj
    rw [List.getElem?_set_self hlt,hy]
    simp [hkey]
  · rw [List.getElem?_set_ne hj]

theorem modify {f : α → α} (hf : ∀ x, key (f x) = key x) (k : ℕ) :
    Indexes key index (vec.modify k f) := by
  intro i j
  rw [h i j,List.getElem?_modify]
  cases vec[j]? with
  | none => simp
  | some x =>
    by_cases hk : k=j
    · simp [hk,hf]
    · simp [hk]

end

variable [DecidableEq ι]

theorem push (h : Indexes key index vec) {x : α} (hx : index (key x) < 0) :
    Indexes key (update index (key x) vec.length) (vec ++ [x]) := by
  have hnew := (h.neg_iff (key x)).mp hx
  intro i k
  by_cases hi : i = key x
  · subst hi
    rw [update_self]
    constructor
    · intro hk
      have hk' : vec.length=k := by omega
      exact ⟨x,by simp [← hk'],rfl⟩
    · rintro ⟨y,hy,hkey⟩
      rw [List.getElem?_append] at hy
      split_ifs at hy with hlt
      · exact absurd hkey (hnew y (mem_of_getElem? hy))
      · have hk := (List.getElem?_eq_some_iff.mp hy).1
        simp at hk
        omega
  · rw [update_of_ne hi,h i k]
    constructor
    · rintro ⟨y,hy,hkey⟩
      have hlt := (List.getElem?_eq_some_iff.mp hy).1
      exact ⟨y,by rw [List.getElem?_append_left hlt,hy],hkey⟩
    · rintro ⟨y,hy,hkey⟩
      rw [List.getElem?_append] at hy
      split_ifs at hy with hlt
      · exact ⟨y,hy,hkey⟩
      · have hmem := mem_of_getElem? hy
        rw [mem_singleton] at hmem
        exact absurd (hmem ▸ hkey).symm hi

theorem pop {x : α} (h : Indexes key index (vec ++ [x])) :
    Indexes key (update index (key x) (-1)) vec := by
  have hlast : (vec ++ [x])[vec.length]? = some x := by simp
  intro i k
  by_cases hi : i = key x
  · subst hi
    rw [update_self]
    refine iff_of_false (by omega) ?_
    rintro ⟨y,hy,hkey⟩
    have hlt := (List.getElem?_eq_some_iff.mp hy).1
    rw [← List.getElem?_append_left hlt] at hy
    have hsame := h.pos_eq hy hlast hkey
    omega
  · rw [update_of_ne hi,h i k]
    constructor
    · rintro ⟨y,hy,hkey⟩
      rw [List.getElem?_append] at hy
      split_ifs at hy with hlt
      · exact ⟨y,hy,hkey⟩
      · have hmem := mem_of_getElem? hy
        rw [mem_singleton] at hmem
        exact absurd (hmem ▸ hkey).symm hi
    · rintro ⟨y,hy,hkey⟩
      have hlt := (List.getElem?_eq_some_iff.mp hy).1
      exact ⟨y,by rw [List.getElem?_append_left hlt,hy],hkey⟩

theorem moveLast {k : ℕ} (h : Indexes key index (vec ++ [y])) (hx : vec[k]? = some x) :
    Indexes key (update (update index (key x) (-1)) (key y) k) (vec.set k y) := by
  have hlt := (List.getElem?_eq_some_iff.mp hx).1
  have hx' : (vec ++ [y])[k]? = some x := by rw [List.getElem?_append_left hlt,hx]
  have hlast : (vec ++ [y])[vec.length]? = some y := by simp
  intro i j
  by_cases hy : i = key y
  · subst hy
    rw [update_self]
    constructor
    · intro hj
      have hj' : k=j := by omega
      exact ⟨y,by rw [← hj',List.getElem?_set_self hlt],rfl⟩
    · rintro ⟨z,hz,hkey⟩
      by_cases hj : k=j
      · rw [hj]
      · rw [List.getElem?_set_ne hj] at hz
        have hzlt := (List.getElem?_eq_some_iff.mp hz).1
        rw [← List.getElem?_append_left hzlt] at hz
        have hsame := h.pos_eq hz hlast hkey
        omega
  · rw [update_of_ne hy]
    by_cases hi : i = key x
    · subst hi
      rw [update_self]
      refine iff_of_false (by omega) ?_
      rintro ⟨z,hz,hkey⟩
      by_cases hj : k=j
      · subst hj
        rw [List.getElem?_set_self hlt,Option.some.injEq] at hz
        exact hy (hz ▸ hkey.symm)
      · rw [List.getElem?_set_ne hj] at hz
        have hzlt := (List.getElem?_eq_some_iff.mp hz).1
        rw [← List.getElem?_append_left hzlt] at hz
        exact hj (h.pos_eq hx' hz hkey.symm)
    · rw [update_of_ne hi,h i j]
      constructor
      · rintro ⟨z,hz,hkey⟩
        have hne : k≠j := by
          rintro rfl
          rw [hx',Option.some.injEq] at hz
          exact hi (hz ▸ hkey.symm)
        rw [List.getElem?_append] at hz
        split_ifs at hz with hzlt
        · exact ⟨z,by rw [List.getElem?_set_ne hne,hz],hkey⟩
        · have hmem := mem_of_getElem? hz
          rw [mem_singleton] at hmem
          exact absurd (hmem ▸ hkey).symm hy
      · rintro ⟨z,hz,hkey⟩
        have hne : k≠j := by
          rintro rfl
          rw [List.getElem?_set_self hlt,Option.some.injEq] at hz
          exact hy (hz ▸ hkey.symm)
        rw [List.getElem?_set_ne hne] at hz
        have hzlt := (List.getElem?_eq_some_iff.mp hz).1
        exact ⟨z,by rw [List.getElem?_append_left hzlt,hz],hkey⟩

end Indexes

/-- Moving the last element into a place takes out the one that was there. -/
theorem perm_set_of_append {vec : List α} {x y : α} {k : ℕ} (hx : vec[k]? = some x) :
    (vec ++ [y]).Perm (x :: vec.set k y) := by
  obtain ⟨hlt,hget⟩ := List.getElem?_eq_some_iff.mp hx
  have hsplit : vec = vec.take k ++ x :: vec.drop (k+1) := by
    rw [← hget,getElem_cons_drop,take_append_drop]
  rw [set_eq_take_append_cons_drop,if_pos hlt]
  nth_rewrite 1 [hsplit]
  calc vec.take k ++ x :: vec.drop (k+1) ++ [y]
      _ = vec.take k ++ (x :: (vec.drop (k+1) ++ [y])) := by simp
      List.Perm _ (vec.take k ++ (x :: y :: vec.drop (k+1))) :=
        (((perm_append_singleton y _).cons x).append_left _)
      List.Perm _ (x :: (vec.take k ++ y :: vec.drop (k+1))) := perm_middle

end P2Streaming.IndexedVectors
