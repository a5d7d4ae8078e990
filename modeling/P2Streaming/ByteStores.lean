import Mathlib.Data.List.Basic

/-!
# Stores addressed by offset

A store is a function from offsets to cells. Writing a list of cells at an offset changes
the cells it covers and no others, so a read gets back what was written last there.
-/
namespace P2Streaming.ByteStores

variable {α : Type*}

def write (f : ℕ → α) (offset : ℕ) (cells : List α) : ℕ → α :=
  fun a => if offset≤a then (cells[a - offset]?).getD (f a) else f a

def read (f : ℕ → α) (offset len : ℕ) : List α := (List.range len).map fun i => f (offset+i)

variable {f : ℕ → α} {offset len : ℕ}

@[simp] theorem length_read : (read f offset len).length = len := by simp [read]

theorem read_congr {g : ℕ → α} (h : ∀ a, offset≤a → a<offset+len → f a = g a) :
    read f offset len = read g offset len := by
  refine List.map_congr_left fun i hi => h _ (by omega) ?_
  have := List.mem_range.mp hi
  omega

theorem read_append {m n : ℕ} : read f offset (m+n) = read f offset m ++ read f (offset+m) n := by
  simp [read,List.range_add,Function.comp_def,Nat.add_assoc]

variable {cells : List α}

theorem read_write_of_disjoint {offset' : ℕ} (h : offset+len≤offset' ∨ offset'+cells.length≤offset) :
    read (write f offset' cells) offset len = read f offset len := by
  refine read_congr fun a hlo hhi => ?_
  unfold write
  split_ifs with hle
  · rw [List.getElem?_eq_none (by omega),Option.getD_none]
  · rfl

theorem read_write_self : read (write f offset cells) offset cells.length = cells := by
  refine List.ext_getElem (by simp) fun i hi hi' => ?_
  simp [read,write,hi']

theorem take_read_write (h : cells.length≤len) :
    (read (write f offset cells) offset len).take cells.length = cells := by
  obtain ⟨n,rfl⟩ := Nat.exists_eq_add_of_le h
  rw [read_append,List.take_append_of_le_length (by simp),read_write_self,List.take_length]

end P2Streaming.ByteStores
