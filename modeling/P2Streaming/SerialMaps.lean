import P2Streaming.WrappableInteger

/-!
# Ordered maps over serial numbers

A `std::map` with `wrappable_less` is the list of its elements in their order. The modular
order is no order on the whole ring; a map behaves as one as long as its keys lie within half
the ring above a common origin, its `Window`.
-/
namespace P2Streaming.SerialMaps
open WrappableInteger List

variable {α : Type*} {w : ℕ} (key : α → BitVec (w+1))

/-- `std::map::insert`; a key that is there keeps its value. -/
def insert (x : α) : List α → List α
  | [] => [x]
  | y :: rest =>
      if wrappableLess (key y) (key x) then y :: insert x rest
      else if wrappableLess (key x) (key y) then x :: y :: rest
      else y :: rest

def find (k : BitVec (w+1)) : List α → Option α
  | [] => none
  | y :: rest =>
      if wrappableLess (key y) k then find k rest
      else if wrappableLess k (key y) then none
      else some y

/-- `std::map::erase` of a key. -/
def erase (k : BitVec (w+1)) : List α → List α
  | [] => []
  | y :: rest =>
      if wrappableLess (key y) k then y :: erase k rest
      else if wrappableLess k (key y) then y :: rest
      else rest

/-- The way up from an origin. -/
def ahead (o k : BitVec (w+1)) : ℕ := (k - o).toNat

@[simp] theorem ahead_self (o : BitVec (w+1)) : ahead o o = 0 := by simp [ahead]

theorem ahead_eq_zero {o k : BitVec (w+1)} : ahead o k = 0 ↔ k=o := by
  constructor
  · intro h
    have h0 : k - o = 0 := BitVec.eq_of_toNat_eq h
    calc k = k - o + o := by ring
      _ = o := by rw [h0]; simp
  · rintro rfl
    exact ahead_self _

theorem ahead_lt (o k : BitVec (w+1)) : ahead o k < 2^(w+1) := (k - o).isLt

/-- Seen from a place between, the way up is shorter by the way to that place. -/
theorem ahead_of_ahead_le {o p k : BitVec (w+1)} (h : ahead o p ≤ ahead o k) :
    ahead p k = ahead o k - ahead o p := by
  have hk := ahead_lt o k
  have hsub : k - p = k - o - (p - o) := by ring
  rw [ahead,hsub,BitVec.toNat_sub]
  unfold ahead at h hk ⊢
  have hs : 2^(w+1) - (p - o).toNat + (k - o).toNat =
      (k - o).toNat - (p - o).toNat + 2^(w+1) := by omega
  rw [hs,Nat.add_mod_right,Nat.mod_eq_of_lt (by omega)]

theorem ahead_inj {o a b : BitVec (w+1)} (h : ahead o a = ahead o b) : a=b := by
  have h0 : ahead a b = 0 := by
    rw [ahead_of_ahead_le h.le,h,Nat.sub_self]
  exact (ahead_eq_zero.mp h0).symm

theorem ahead_add_one {o k : BitVec (w+1)} (h : ahead o k + 1 < 2^(w+1)) :
    ahead o (k+1) = ahead o k + 1 := by
  have hk : k + 1 - o = k - o + 1 := by ring
  have h1 : (1 : BitVec (w+1)).toNat = 1 := by
    simp
  unfold ahead at h ⊢
  rw [hk,BitVec.toNat_add,h1,Nat.mod_eq_of_lt h]

theorem wrappableLess_iff_ahead_lt {o a b : BitVec (w+1)} (ha : ahead o a < 2^w)
    (hb : ahead o b < 2^w) : wrappableLess a b = true ↔ ahead o a < ahead o b := by
  have hsub : a - b = a - o - (b - o) := by ring
  rw [wrappableLess_iff,hsub,BitVec.toNat_sub]
  unfold ahead at ha hb ⊢
  rcases Nat.lt_or_ge (a - o).toNat (b - o).toNat with h | h
  · rw [Nat.mod_eq_of_lt (by omega)]
    omega
  · have hs : 2^(w+1) - (b - o).toNat + (a - o).toNat =
        (a - o).toNat - (b - o).toNat + 2^(w+1) := by omega
    rw [hs,Nat.add_mod_right,Nat.mod_eq_of_lt (by omega)]
    omega

/-- The origin is at most as large as whatever lies up to half the ring above it. -/
theorem wrappableLess_origin (o k : BitVec (w+1)) :
    wrappableLess k o = true ↔ 2^w < ahead o k := wrappableLess_iff k o

variable {l : List α}

theorem mem_insert {x y : α} (h : y ∈ insert key x l) : y=x ∨ y∈l := by
  induction l with
  | nil => simpa [insert] using h
  | cons z rest ih =>
    rw [insert] at h
    split_ifs at h
    · rcases mem_cons.mp h with rfl | h
      · exact .inr mem_cons_self
      · exact (ih h).imp id (mem_cons_of_mem z)
    · rcases mem_cons.mp h with rfl | h
      · exact .inl rfl
      · exact .inr h
    · exact .inr h

theorem length_insert_le (x : α) (l : List α) : (insert key x l).length ≤ l.length+1 := by
  induction l with
  | nil => simp [insert]
  | cons y rest ih =>
    rw [insert]
    split_ifs
    · simpa using ih
    · simp
    · simp

theorem mem_insert_of_mem {x y : α} (h : y∈l) : y ∈ insert key x l := by
  induction l with
  | nil => cases h
  | cons z rest ih =>
    rw [insert]
    split_ifs
    · rcases mem_cons.mp h with rfl | h
      · exact mem_cons_self
      · exact mem_cons_of_mem z (ih h)
    · exact mem_cons_of_mem x h
    · exact h

theorem insert_perm (x : α) (l : List α) : insert key x l = l ∨ (insert key x l).Perm (x::l) := by
  induction l with
  | nil => exact .inr (.refl _)
  | cons y rest ih =>
    rw [insert]
    split_ifs
    · rcases ih with h | h
      · rw [h]
        exact .inl rfl
      · exact .inr ((h.cons y).trans (.swap x y rest))
    · exact .inr (.refl _)
    · exact .inl rfl

theorem erase_sublist (k : BitVec (w+1)) (l : List α) : (erase key k l).Sublist l := by
  induction l with
  | nil => exact .slnil
  | cons y rest ih =>
    rw [erase]
    split_ifs
    · exact ih.cons_cons y
    · exact .refl _
    · exact sublist_cons_self y rest

/-- What a key finds is neither below nor above it: it has this key, or the one half the ring
away. -/
theorem find_eq_some {k : BitVec (w+1)} {y : α} (h : find key k l = some y) :
    y∈l ∧ (key y = k ∨ ahead k (key y) = 2^w) := by
  induction l with
  | nil => cases h
  | cons z rest ih =>
    rw [find] at h
    split_ifs at h with h1 h2
    · exact (ih h).imp (mem_cons_of_mem z) id
    · cases h
      refine ⟨mem_cons_self,?_⟩
      rw [wrappableLess_iff] at h1 h2
      have hneg : k - key y = -(key y - k) := by ring
      rw [hneg,BitVec.toNat_neg] at h2
      by_cases h0 : ahead k (key y) = 0
      · exact .inl (ahead_eq_zero.mp h0)
      · right
        have hw : 2^(w+1) = 2 * 2^w := by ring
        unfold ahead at h0 ⊢
        rw [Nat.mod_eq_of_lt (by omega)] at h2
        omega

theorem mem_erase_of_find {k : BitVec (w+1)} {x : α} (hx : x∈l)
    (hne : find key k l ≠ some x) : x ∈ erase key k l := by
  induction l with
  | nil => cases hx
  | cons z rest ih =>
    rw [find] at hne
    rw [erase]
    split_ifs at hne ⊢ with h1 h2
    · rcases mem_cons.mp hx with rfl | hx
      · exact mem_cons_self
      · exact mem_cons_of_mem z (ih hx hne)
    · exact hx
    · exact (mem_cons.mp hx).resolve_left fun he => hne (he ▸ rfl)

/-- The keys rise and stay below `b` steps above the origin. -/
structure Window (o : BitVec (w+1)) (b : ℕ) (l : List α) : Prop where
  sorted : l.Pairwise fun x y => ahead o (key x) < ahead o (key y)
  bounded : ∀ x∈l, ahead o (key x) < b

namespace Window

variable {key} {o : BitVec (w+1)} {b : ℕ} {l : List α}

theorem nil : Window key o b ([] : List α) := ⟨.nil,by simp⟩

variable {rest : List α} {y : α}

theorem tail (h : Window key o b (y::rest)) : Window key o b rest :=
  ⟨(pairwise_cons.mp h.sorted).2,fun x hx => h.bounded x (mem_cons_of_mem y hx)⟩

variable {x : α}

theorem head_lt (h : Window key o b (y::rest)) (hx : x∈rest) : ahead o (key y) < ahead o (key x) :=
  (pairwise_cons.mp h.sorted).1 x hx

theorem head_le (h : Window key o b (y::rest)) (hx : x ∈ y::rest) :
    ahead o (key y) ≤ ahead o (key x) := by
  rcases mem_cons.mp hx with rfl | hx
  · exact Nat.le_refl _
  · exact (h.head_lt hx).le

section
variable (h : Window key o b l)
include h

theorem insert (hb : b≤2^w) (hx : ahead o (key x) < b) :
    Window key o b (SerialMaps.insert key x l) := by
  have hbounded : ∀ y ∈ SerialMaps.insert key x l, ahead o (key y) < b := by
    intro y hy
    rcases mem_insert key hy with rfl | hy
    · exact hx
    · exact h.bounded y hy
  refine ⟨?_,hbounded⟩
  induction l with
  | nil => simp [SerialMaps.insert]
  | cons y rest ih =>
    have hy := h.bounded y mem_cons_self
    rw [SerialMaps.insert] at hbounded ⊢
    split_ifs with h1 h2
    · rw [if_pos h1] at hbounded
      have hlt := (wrappableLess_iff_ahead_lt (o := o) (by omega) (by omega)).mp h1
      refine pairwise_cons.mpr ⟨fun z hz => ?_,ih h.tail fun z hz =>
        hbounded z (mem_cons_of_mem y hz)⟩
      rcases mem_insert key hz with rfl | hz
      · exact hlt
      · exact h.head_lt hz
    · have hlt := (wrappableLess_iff_ahead_lt (o := o) (by omega) (by omega)).mp h2
      refine pairwise_cons.mpr ⟨fun z hz => ?_,h.sorted⟩
      rcases mem_cons.mp hz with rfl | hz
      · exact hlt
      · exact hlt.trans (h.head_lt hz)
    · exact h.sorted

theorem sublist {l' : List α} (hs : l'.Sublist l) : Window key o b l' :=
  ⟨h.sorted.sublist hs,fun x hx => h.bounded x (hs.subset hx)⟩

theorem mem_insert_self (hb : b≤2^w)
    (hx : ahead o (key x) < b) : ∃ y ∈ SerialMaps.insert key x l, key y = key x := by
  induction l with
  | nil => exact ⟨x,by simp [SerialMaps.insert],rfl⟩
  | cons z rest ih =>
    have hz := h.bounded z mem_cons_self
    rw [SerialMaps.insert]
    split_ifs with h1 h2
    · obtain ⟨y,hy,he⟩ := ih h.tail
      exact ⟨y,mem_cons_of_mem z hy,he⟩
    · exact ⟨x,mem_cons_self,rfl⟩
    · rw [wrappableLess_iff_ahead_lt (o := o) (by omega) (by omega)] at h1 h2
      exact ⟨z,mem_cons_self,ahead_inj (o := o) (by omega)⟩

theorem insert_of_mem_key (hb : b≤2^w)
    (hx : key x ∈ l.map key) : SerialMaps.insert key x l = l := by
  obtain ⟨y,hy,heq⟩ := mem_map.mp hx
  induction l with
  | nil => cases hy
  | cons z rest ih =>
    have hyb := h.bounded y hy
    rw [SerialMaps.insert,← heq]
    rcases mem_cons.mp hy with rfl | hy
    · simp
    · have hlt := h.head_lt hy
      have hless : wrappableLess (key z) (key y) = true :=
        (wrappableLess_iff_ahead_lt (o := o) (by omega) (by omega)).mpr hlt
      rw [if_pos hless,ih h.tail (heq ▸ mem_map_of_mem hy) hy]

theorem find_key (hb : b≤2^w) {k : BitVec (w+1)} (hk : ahead o k < b) (hf : find key k l = some y) :
    key y = k := by
  obtain ⟨hy,he | hfar⟩ := find_eq_some key hf
  · exact he
  have hyb := h.bounded y hy
  have hw : 2^(w+1) = 2 * 2^w := by ring
  rcases Nat.le_total (ahead o k) (ahead o (key y)) with hle | hle
  · rw [ahead_of_ahead_le hle] at hfar
    omega
  · have hback := ahead_of_ahead_le hle
    have hsub : key y - k = -(k - key y) := by ring
    rw [ahead,hsub,BitVec.toNat_neg,← ahead,hback] at hfar
    by_cases h0 : ahead o k - ahead o (key y) = 0
    · exact ahead_inj (o := o) (by omega)
    · rw [Nat.mod_eq_of_lt (by omega)] at hfar
      omega

end

variable {p : BitVec (w+1)}

/-- The origin may move down as long as the window does not close around the ring. -/
theorem retreat (h : Window key o b l) (hp : ahead p o + b ≤ 2^(w+1)) :
    Window key p (ahead p o + b) l := by
  have hup : ∀ x∈l, ahead p (key x) = ahead p o + ahead o (key x) := by
    intro x hx
    have hlt := h.bounded x hx
    have hsum : key x - p = o - p + (key x - o) := by ring
    unfold ahead at *
    rw [hsum,BitVec.toNat_add,Nat.mod_eq_of_lt (by omega)]
  refine ⟨h.sorted.imp_of_mem fun hx hy hlt => ?_,fun x hx => ?_⟩
  · rw [hup _ hx,hup _ hy]
    omega
  · have := h.bounded x hx
    rw [hup x hx]
    omega

/-- The origin may move up to the smallest key. -/
theorem advance (h : Window key o b l) (hp : ∀ x∈l, ahead o p ≤ ahead o (key x)) : Window key p b l := by
  refine ⟨?_,fun x hx => ?_⟩
  · refine h.sorted.imp_of_mem fun hx hy hlt => ?_
    rw [ahead_of_ahead_le (hp _ hx),ahead_of_ahead_le (hp _ hy)]
    have := hp _ hx
    omega
  · rw [ahead_of_ahead_le (hp x hx)]
    have := h.bounded x hx
    omega

section
variable (h : Window key o b (y::rest))
include h

theorem advance_to_head : Window key (key y) b (y::rest) :=
  h.advance fun _ => h.head_le

/-- Once the first element is taken out, the origin may move right behind it. -/
theorem advance_behind_head (hb : b≤2^w) : Window key (key y + 1) b rest := by
  have hy := h.bounded y mem_cons_self
  refine h.tail.advance fun x hx => ?_
  rw [ahead_add_one (by omega)]
  exact h.head_lt hx

theorem insert_origin (hb : b≤2^w) (hx : key x = o) (hy : key y ≠ o) :
    SerialMaps.insert key x (y::rest) = x :: y :: rest := by
  have hylt := h.bounded y mem_cons_self
  have hpos : 0 < ahead o (key y) := Nat.pos_of_ne_zero fun h0 => hy (ahead_eq_zero.mp h0)
  have hx0 : ahead o (key x) = 0 := ahead_eq_zero.mpr hx
  have h1 : ¬ wrappableLess (key y) (key x) = true := by
    rw [wrappableLess_iff_ahead_lt (o := o) (by omega) (by omega)]
    omega
  have h2 : wrappableLess (key x) (key y) = true :=
    (wrappableLess_iff_ahead_lt (o := o) (by omega) (by omega)).mpr (by omega)
  rw [SerialMaps.insert,if_neg h1,if_pos h2]

end

/-- A key that is not below the first one leaves it in its place. -/
theorem insert_behind_head (hb : b≤2^w) (hx : ahead o (key x) < b)
    (hle : ahead o (key y) ≤ ahead o (key x)) :
    ∃ rest', SerialMaps.insert key x (y::rest) = y :: rest' := by
  have h2 : ¬ wrappableLess (key x) (key y) = true := by
    rw [wrappableLess_iff_ahead_lt (o := o) (by omega) (by omega)]
    omega
  rw [SerialMaps.insert,if_neg h2]
  split_ifs
  · exact ⟨_,rfl⟩
  · exact ⟨_,rfl⟩

section
variable (h : Window key o b l)
include h

theorem length_le : l.length≤b := by
  have hnodup : (l.map fun x => ahead o (key x)).Nodup :=
    List.Pairwise.map _ (fun _ _ hlt => Nat.ne_of_lt hlt) h.sorted
  have hsub : (l.map fun x => ahead o (key x)) ⊆ List.range b := by
    intro k hk
    obtain ⟨x,hx,rfl⟩ := mem_map.mp hk
    exact mem_range.mpr (h.bounded x hx)
  simpa using (hnodup.subperm hsub).length_le

/-- The origin may move up once the elements below are dropped. -/
theorem dropWhile (hp : ahead o p < b)
    {below : α → Bool} (hbelow : ∀ x∈l, below x = true ↔ ahead o (key x) < ahead o p) :
    Window key p (b - ahead o p) (l.dropWhile below) := by
  induction l with
  | nil => exact .nil
  | cons y rest ih =>
    rw [dropWhile_cons]
    split_ifs with hlt
    · exact ih h.tail fun x hx => hbelow x (mem_cons_of_mem y hx)
    · have hy : ahead o p ≤ ahead o (key y) := by
        rw [hbelow y mem_cons_self] at hlt
        omega
      have hle : ∀ x ∈ y :: rest, ahead o p ≤ ahead o (key x) := by
        intro x hx
        rcases mem_cons.mp hx with rfl | hx
        · exact hy
        · exact hy.trans (h.head_lt hx).le
      refine ⟨(h.advance hle).sorted,fun x hx => ?_⟩
      have := h.bounded x hx
      rw [ahead_of_ahead_le (hle x hx)]
      omega

/-- Any origin will do that has the keys less than half the ring above it. -/
theorem rebase (hb : b≤2^w)
    (hp : ∀ x∈l, ahead p (key x) < 2^w) : Window key p (2^w) l := by
  refine ⟨h.sorted.imp_of_mem fun {x y} hx hy hlt => ?_,hp⟩
  have hyb := h.bounded y hy
  apply (wrappableLess_iff_ahead_lt (hp x hx) (hp y hy)).mp
  exact (wrappableLess_iff_ahead_lt (o := o) (by omega) (by omega)).mpr hlt

theorem find_of_mem (hb : b≤2^w) (hx : x∈l) : find key (key x) l = some x := by
  induction l with
  | nil => cases hx
  | cons y rest ih =>
    have hyb := h.bounded y mem_cons_self
    have hxb := h.bounded x hx
    rw [find]
    rcases mem_cons.mp hx with rfl | hx
    · simp
    · have hless : wrappableLess (key y) (key x) = true :=
        (wrappableLess_iff_ahead_lt (o := o) (by omega) (by omega)).mpr (h.head_lt hx)
      rw [if_pos hless]
      exact ih h.tail hx

theorem not_mem_erase (hb : b≤2^w) (hx : x∈l) : x ∉ erase key (key x) l := by
  induction l with
  | nil => cases hx
  | cons y rest ih =>
    have hyb := h.bounded y mem_cons_self
    have hxb := h.bounded x hx
    have hnot : ∀ {z}, z∈rest → y≠z := fun hz he => by
      have hlt := h.head_lt hz
      rw [he] at hlt
      exact Nat.lt_irrefl _ hlt
    rw [erase]
    rcases mem_cons.mp hx with rfl | hx
    · simpa using fun hmem => hnot hmem rfl
    · have hless : wrappableLess (key y) (key x) = true :=
        (wrappableLess_iff_ahead_lt (o := o) (by omega) (by omega)).mpr (h.head_lt hx)
      rw [if_pos hless,mem_cons,not_or]
      exact ⟨fun he => hnot hx he.symm,ih h.tail hx⟩

end

end Window
end P2Streaming.SerialMaps
