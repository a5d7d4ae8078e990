import Mathlib.Data.List.Nodup

/-!
# Sets and maps whose elements expire

A keeper holds elements until their time is out. Expired elements are removed by the next
operation, so an operation sees exactly the elements that are alive at its time. Two
elements count as the same when their keys are equal.
-/
namespace P2Streaming.TimedKeepers
open List

/-- A kind of keeper: the key of an element, and whether one with a given `outTime` is alive. -/
structure Keeper (δ κ : Type*) where
  key : δ → κ
  Alive (now outTime : ℕ) : Prop
  [decAlive : ∀ now outTime, Decidable (Alive now outTime)]
  alive_of_lt {now outTime : ℕ} : now<outTime → Alive now outTime
  earlier {now now' outTime : ℕ} : now≤now' → Alive now' outTime → Alive now outTime

attribute [instance] Keeper.decAlive

variable {δ κ : Type*}

/-- In a `timed_keeper_set` an element is gone at its `outTime`. -/
abbrev timedKeeperSet (key : δ → κ) : Keeper δ κ where
  key
  Alive now outTime := now<outTime
  alive_of_lt h := h
  earlier := Nat.lt_of_le_of_lt

/-- In a `timed_keeper_map` an element is still there at its `outTime`. -/
abbrev timedKeeperMap : Keeper (κ × δ) κ where
  key := Prod.fst
  Alive now outTime := now≤outTime
  alive_of_lt := Nat.le_of_lt
  earlier := Nat.le_trans

variable [DecidableEq κ] (c : Keeper δ κ)

structure Element (δ : Type*) where
  data : δ
  outTime : ℕ
  deriving DecidableEq

def clearTimeout (now : ℕ) (s : List (Element δ)) : List (Element δ) :=
  s.filter fun e => c.Alive now e.outTime

def find (now : ℕ) (k : κ) (s : List (Element δ)) : Option δ :=
  ((clearTimeout c now s).find? fun e => c.key e.data = k).map Element.data

/-- `try_keep` for a duration. -/
def tryKeep (now duration : ℕ) (d : δ) (s : List (Element δ)) : List (Element δ) × Bool :=
  let alive := clearTimeout c now s
  if alive.any fun e => c.key e.data = c.key d then (alive, false)
  else (⟨d,now+duration⟩ :: alive, true)

/-- `erase` by key. -/
def erase (now : ℕ) (k : κ) (s : List (Element δ)) : List (Element δ) :=
  (clearTimeout c now s).filter fun e => c.key e.data ≠ k

/-- An element with this key is alive. -/
def Keeps (now : ℕ) (k : κ) (s : List (Element δ)) : Prop :=
  ∃ e∈s, c.key e.data = k ∧ c.Alive now e.outTime

instance (now : ℕ) (k : κ) (s : List (Element δ)) : Decidable (Keeps c now k s) := by
  unfold Keeps
  infer_instance

variable {c} {now : ℕ} {s : List (Element δ)}

omit [DecidableEq κ] in
@[simp] theorem mem_clearTimeout {e : Element δ} :
    e ∈ clearTimeout c now s ↔ e∈s ∧ c.Alive now e.outTime := by simp [clearTimeout]

variable {k : κ}

theorem mem_of_find {d : δ} (h : find c now k s = some d) :
    c.key d = k ∧ ∃ e∈s, e.data=d ∧ c.Alive now e.outTime := by
  obtain ⟨e,he,rfl⟩ := Option.map_eq_some_iff.mp h
  have hmem := mem_clearTimeout.mp (mem_of_find?_eq_some he)
  have hkey := List.find?_some he
  exact ⟨of_decide_eq_true hkey,e,hmem.1,rfl,hmem.2⟩

theorem find_eq_none :
    find c now k s = none ↔ ∀ e∈s, c.Alive now e.outTime → c.key e.data ≠ k := by
  simp [find,List.find?_eq_none,and_imp]

theorem find_of_mem (hn : (s.map fun e => c.key e.data).Nodup) {e : Element δ} (he : e∈s)
    (alive : c.Alive now e.outTime) : find c now (c.key e.data) s = some e.data := by
  cases hf : find c now (c.key e.data) s with
  | none => exact absurd rfl (find_eq_none.mp hf e he alive)
  | some d =>
    obtain ⟨hkey,e',he',rfl,-⟩ := mem_of_find hf
    rw [inj_on_of_nodup_map hn he' he hkey]

variable {duration : ℕ}

theorem any_clearTimeout :
    ((clearTimeout c now s).any fun e => c.key e.data = k) = true ↔ Keeps c now k s := by
  simp only [any_eq_true,mem_clearTimeout,decide_eq_true_eq,Keeps]
  exact ⟨fun ⟨e,he,hkey⟩ => ⟨e,he.1,hkey,he.2⟩,fun ⟨e,he,hkey,halive⟩ => ⟨e,⟨he,halive⟩,hkey⟩⟩

theorem tryKeep_eq (d : δ) : tryKeep c now duration d s =
    if Keeps c now (c.key d) s then (clearTimeout c now s, false)
    else (⟨d,now+duration⟩ :: clearTimeout c now s, true) :=
  if_congr any_clearTimeout rfl rfl

theorem tryKeep_of_absent {d : δ} (h : ∀ e∈s, c.Alive now e.outTime → c.key e.data ≠ c.key d) :
    tryKeep c now duration d s = (⟨d,now+duration⟩ :: clearTimeout c now s, true) := by
  rw [tryKeep_eq,if_neg]
  rintro ⟨e,he,hkey,halive⟩
  exact h e he halive hkey

omit [DecidableEq κ] in
theorem nodup_clearTimeout (hn : (s.map fun e => c.key e.data).Nodup) :
    ((clearTimeout c now s).map fun e => c.key e.data).Nodup :=
  hn.sublist (filter_sublist.map _)

theorem nodup_tryKeep (hn : (s.map fun e => c.key e.data).Nodup) (duration : ℕ) (d : δ) :
    ((tryKeep c now duration d s).1.map fun e => c.key e.data).Nodup := by
  rw [tryKeep_eq]
  split_ifs with h
  · exact nodup_clearTimeout hn
  · refine nodup_cons.mpr ⟨fun hmem => h ?_,nodup_clearTimeout hn⟩
    obtain ⟨e,he,hk⟩ := mem_map.mp hmem
    exact ⟨e,(mem_clearTimeout.mp he).1,hk,(mem_clearTimeout.mp he).2⟩

/-- The elements with the given key. -/
def keyed (c : Keeper δ κ) (k : κ) (s : List (Element δ)) : List (Element δ) :=
  s.filter fun e => c.key e.data = k

theorem keyed_clearTimeout (k : κ) :
    keyed c k (clearTimeout c now s) = clearTimeout c now (keyed c k s) := by
  simp only [keyed,clearTimeout,filter_filter,Bool.and_comm]

theorem find_eq_head (k : κ) :
    find c now k s = ((clearTimeout c now (keyed c k s)).head?).map Element.data := by
  rw [← keyed_clearTimeout,keyed,List.head?_filter]
  rfl

theorem keyed_tryKeep_of_ne {d : δ} (h : c.key d ≠ k) :
    keyed c k (tryKeep c now duration d s).1 = clearTimeout c now (keyed c k s) := by
  rw [tryKeep_eq]
  split_ifs
  · exact keyed_clearTimeout k
  · rw [← keyed_clearTimeout,keyed,filter_cons_of_neg (by simpa using h)]
    rfl

theorem keyed_tryKeep (duration : ℕ) (d : δ) :
    keyed c (c.key d) (tryKeep c now duration d s).1 =
    if clearTimeout c now (keyed c (c.key d) s) = [] then [⟨d,now+duration⟩]
    else clearTimeout c now (keyed c (c.key d) s) := by
  have hany : Keeps c now (c.key d) s ↔ clearTimeout c now (keyed c (c.key d) s) ≠ [] := by
    rw [← any_clearTimeout,← keyed_clearTimeout,keyed,Ne,filter_eq_nil_iff,any_eq_true]
    push Not
    rfl
  rw [tryKeep_eq]
  split_ifs with h hnil hnil
  · exact absurd hnil (hany.mp h)
  · exact keyed_clearTimeout _
  · rw [keyed,filter_cons_of_pos (by simp),← keyed,keyed_clearTimeout,hnil]
  · exact absurd (hany.mpr hnil) h

theorem keyed_eq_nil : keyed c k s = [] ↔ ∀ e∈s, c.key e.data ≠ k := by
  simp [keyed,filter_eq_nil_iff]

omit [DecidableEq κ] in
theorem Keeps.earlier {now' : ℕ} (h : Keeps c now' k s) (hle : now≤now') : Keeps c now k s := by
  obtain ⟨e,he,hkey,halive⟩ := h
  exact ⟨e,he,hkey,c.earlier hle halive⟩

@[simp] theorem keeps_erase {k k' : κ} :
    Keeps c now k (erase c now k' s) ↔ k≠k' ∧ Keeps c now k s := by
  constructor
  · rintro ⟨e,he,rfl,halive⟩
    rw [erase,mem_filter,mem_clearTimeout] at he
    exact ⟨of_decide_eq_true he.2,e,he.1.1,rfl,halive⟩
  · rintro ⟨hne,e,he,rfl,halive⟩
    exact ⟨e,mem_filter.mpr ⟨mem_clearTimeout.mpr ⟨he,halive⟩,decide_eq_true hne⟩,rfl,halive⟩

theorem keeps_tryKeep {d : δ} (hpos : 0<duration) :
    Keeps c now k (tryKeep c now duration d s).1 ↔ k = c.key d ∨ Keeps c now k s := by
  have hclear : Keeps c now k (clearTimeout c now s) ↔ Keeps c now k s := by
    simp only [Keeps,mem_clearTimeout]
    exact ⟨fun ⟨e,he,h⟩ => ⟨e,he.1,h⟩,fun ⟨e,he,h⟩ => ⟨e,⟨he,h.2⟩,h⟩⟩
  rw [tryKeep_eq]
  split_ifs with hkept
  · rw [hclear]
    exact (or_iff_right_of_imp fun h => h ▸ hkept).symm
  · rw [← hclear]
    simp only [Keeps,mem_cons,exists_eq_or_imp]
    refine or_congr_left ⟨fun h => h.1.symm,fun h => ⟨h.symm,
      c.alive_of_lt (Nat.lt_add_of_pos_right hpos)⟩⟩

end P2Streaming.TimedKeepers
