import Mathlib.Data.Finset.Max

/-! Walking round a finite set of ordered keys: from a key to the next greater one, and from
the greatest back to the first. A walk that avoids marked keys comes to an unmarked one, since
the distance to it decreases. -/
namespace P2Streaming.CircularWalks

variable {α : Type*} [LinearOrder α]

def first (s : Finset α) : Option α := if h : s.Nonempty then some (s.min' h) else none

def next (s : Finset α) (a : α) : Option α := first (s.filter (a < ·))

/-- The key after `a`, the first one where `a` is the last. -/
def around (s : Finset α) (a : α) : Option α := (next s a).or (first s)

variable {s : Finset α}

theorem mem_of_first {a : α} (h : first s = some a) : a∈s := by
  unfold first at h
  split_ifs at h with hs
  obtain rfl := Option.some.inj h
  exact s.min'_mem hs

variable {a b : α}

theorem first_le (h : first s = some a) (hb : b∈s) : a≤b := by
  unfold first at h
  split_ifs at h with hs
  obtain rfl := Option.some.inj h
  exact s.min'_le b hb

theorem first_eq_none : first s = none ↔ s = ∅ := by
  unfold first
  split_ifs with hs
  · simp [hs.ne_empty]
  · simpa using Finset.not_nonempty_iff_eq_empty.mp hs

theorem next_eq_none {a : α} : next s a = none ↔ ∀ b∈s, b≤a := by
  unfold next
  rw [first_eq_none,Finset.filter_eq_empty_iff]
  simp

theorem next_spec (h : next s a = some b) : b∈s ∧ a<b ∧ ∀ c∈s, a<c → b ≤ c := by
  have hb := Finset.mem_filter.mp (mem_of_first h)
  exact ⟨hb.1,hb.2,fun c hc hac => first_le h (Finset.mem_filter.mpr ⟨hc,hac⟩)⟩

theorem around_cases (h : around s a = some b) :
    next s a = some b ∨ ((∀ c∈s, c≤a) ∧ first s = some b) := by
  unfold around at h
  cases hn : next s a with
  | none =>
    rw [hn,Option.none_or] at h
    exact Or.inr ⟨next_eq_none.mp hn,h⟩
  | some c =>
    rw [hn,Option.some_or] at h
    exact Or.inl h

theorem mem_of_around (h : around s a = some b) : b∈s := by
  rcases around_cases h with h | ⟨-,h⟩
  · exact (next_spec h).1
  · exact mem_of_first h

/-- The keys from `a` on. -/
def ahead (s : Finset α) (a : α) : Finset α := s.filter (a ≤ ·)

/-- How far `a` is from the next key of `u`, as an upper bound: the keys from `a` to the end,
and the whole round besides where `u` has no key from `a` on. -/
def distance (s u : Finset α) (a : α) : ℕ :=
  if (ahead u a).Nonempty then (ahead s a).card else (ahead s a).card + s.card

theorem ahead_ssubset (ha : a∈s) (h : a<b) : ahead s b ⊂ ahead s a := by
  unfold ahead
  refine Finset.ssubset_iff_subset_ne.mpr ⟨?_,?_⟩
  · exact Finset.monotone_filter_right s fun c _ hc => h.le.trans hc
  · intro heq
    have : a ∈ s.filter (b ≤ ·) := heq ▸ Finset.mem_filter.mpr ⟨ha,le_rfl⟩
    exact absurd (Finset.mem_filter.mp this).2 (not_le.mpr h)

theorem ahead_first {s u : Finset α} {b : α} (hu : u ⊆ s) (h : first s = some b) : ahead u b = u :=
  Finset.filter_true_of_mem fun _ hc => first_le h (hu hc)

/-- Going round from a key outside `u` comes nearer to `u`. -/
theorem distance_around_lt {s u : Finset α} (hu : u ⊆ s) (hne : u.Nonempty)
    (ha : a∈s) (hau : a ∉ u) (h : around s a = some b) : distance s u b < distance s u a := by
  rcases around_cases h with h | ⟨hlast,h⟩
  · obtain ⟨-,hab,hleast⟩ := next_spec h
    -- The keys of `u` from `a` on are those from `b` on.
    have hahead : ahead u b = ahead u a := by
      refine Finset.filter_congr fun c hc => ⟨fun hbc => hab.le.trans hbc,fun hac => ?_⟩
      refine hleast c (hu hc) (lt_of_le_of_ne hac ?_)
      rintro rfl
      exact hau hc
    have hcard := Finset.card_lt_card (ahead_ssubset ha hab)
    unfold distance
    rw [hahead]
    split_ifs <;> omega
  · have hnone : ¬ (ahead u a).Nonempty := by
      rintro ⟨c,hc⟩
      obtain ⟨hcu,hac⟩ := Finset.mem_filter.mp hc
      have : c=a := le_antisymm (hlast c (hu hcu)) hac
      exact hau (this ▸ hcu)
    have hpos : 0 < (ahead s a).card :=
      Finset.card_pos.mpr ⟨a,Finset.mem_filter.mpr ⟨ha,le_rfl⟩⟩
    unfold distance
    rw [if_neg hnone,ahead_first hu h,if_pos hne,ahead_first subset_rfl h]
    omega

end P2Streaming.CircularWalks
