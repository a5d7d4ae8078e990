import P2Streaming.SerialNumbers

/-!
# Segments that lie side by side on a ring of positions

A segment has a position, which is a word, and a size. A list of segments is
contiguous from a start when each begins where the one before it ends; positions
wrap around with the words.
-/
namespace P2Streaming.ContiguousSegments
open SerialNumbers

variable {α β : Type*} {w : ℕ} {pos : α → BitVec w} {size : α → ℕ}

/-- The sizes of a list of segments together. -/
def total (size : α → ℕ) (l : List α) : ℕ := (l.map size).sum

@[simp] theorem total_nil : total size [] = 0 := rfl

@[simp] theorem total_cons (a : α) (l : List α) : total size (a::l) = size a + total size l := by
  simp [total]

@[simp] theorem total_append (l l' : List α) : total size (l++l') = total size l + total size l' := by
  simp [total]

@[simp] theorem total_map (f : β → α) (l : List β) :
    total size (l.map f) = total (fun b => size (f b)) l := by
  simp [total,Function.comp_def]

theorem total_take_add_total_drop (l : List α) (n : ℕ) :
    total size (l.take n) + total size (l.drop n) = total size l := by
  rw [← total_append,List.take_append_drop]

theorem total_take_le (l : List α) (n : ℕ) : total size (l.take n) ≤ total size l := by
  have h : total size (l.take n) + total size (l.drop n) = total size l :=
    total_take_add_total_drop l n
  omega

variable {l l' : List α}

theorem total_le_of_prefix (h : l <+: l') : total size l ≤ total size l' := by
  obtain ⟨t,rfl⟩ := h
  simp

/-- Each segment begins where the one before it ends. -/
def Contiguous (pos : α → BitVec w) (size : α → ℕ) : BitVec w → List α → Prop
  | _, [] => True
  | start, a :: l => pos a = start ∧ Contiguous pos size (start + BitVec.ofNat w (size a)) l

variable {start : BitVec w}

theorem contiguous_append : Contiguous pos size start (l++l') ↔
      Contiguous pos size start l ∧ Contiguous pos size (place start (total size l)) l' := by
  induction l generalizing start with
  | nil => simp [Contiguous]
  | cons a l ih =>
    have hplace : place (start + BitVec.ofNat w (size a)) (total size l) =
        place start (size a + total size l) := by
      simp only [place,BitVec.ofNat_add]
      ring
    rw [List.cons_append,Contiguous,Contiguous,ih,total_cons,hplace,and_assoc]

theorem contiguous_map {f : β → α} {l : List β} : Contiguous pos size start (l.map f) ↔
      Contiguous (fun b => pos (f b)) (fun b => size (f b)) start l := by
  induction l generalizing start with
  | nil => simp [Contiguous]
  | cons a l ih => rw [List.map_cons,Contiguous,Contiguous,ih]

/-- The position of a segment is found by adding up what lies before it. -/
theorem Contiguous.pos_eq {a : α}
    (h : Contiguous pos size start (l ++ a :: l')) : pos a = place start (total size l) :=
  (contiguous_append.mp h).2.1

end P2Streaming.ContiguousSegments
