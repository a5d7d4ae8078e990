import P2Streaming.WrappableInteger
import P2Streaming.TransitionRuns
import Mathlib.Algebra.Order.Ring.Int

/-!
# `timestamp_guess`

The time stamps of packets are kept in a ring with one slot for eight numbers, and the time stamp of
a number is guessed from an element near it. A slot is written again if the new number is nearer to
the middle of its group than the old one; but the distance that is compared is that of the slot, not
that of the new number. So what an earlier round has left may stay.
-/
namespace P2Streaming
open WrappableInteger TransitionRuns List BitVec

/-- `timestamp_element`, once it is initialised. -/
structure TimestampElement where
  seqno : BitVec 32
  timestamp : BitVec 32
  packetRate : BitVec 16

/-- `timestamp_guess_vector_`, with `TIMESTAMP_GUESS_SLOT_CNT` slots. -/
abbrev TimestampGuess := Fin 1024 → Option TimestampElement

namespace TimestampGuess

/-- The slot of a number; `TIMESTAMP_GUESS_PKT_CNT` is 8. -/
def slotOf (seqno : BitVec 32) : Fin 1024 := Fin.ofNat 1024 (seqno.toNat / 8)

/-- `abs_middle_distance`; the difference is unsigned, so there is nothing for `abs` to do. -/
def absMiddleDistance (seqno : BitVec 32) : BitVec 32 := (seqno &&& 7) - 4

variable (g : TimestampGuess)

def replaces (seqno : BitVec 32) : Bool :=
  (g (slotOf seqno)).all fun elem =>
    decide (absMiddleDistance (BitVec.ofNat 32 (slotOf seqno)) < absMiddleDistance elem.seqno)

def set (seqno packetRate timestamp : BitVec 32) : TimestampGuess :=
  if g.replaces seqno then
    Function.update g (slotOf seqno) (some ⟨seqno,timestamp,packetRate.setWidth 16⟩)
  else g

/-- The test of `get`; the absolute value of the least integer is itself. -/
def accepts (seqno : BitVec 32) (elem : TimestampElement) : Bool :=
  decide ((seqno - elem.seqno).abs.toInt ≤ 32)

/-- The slots `get` looks at. -/
def lookedAt (seqno : BitVec 32) : List (Fin 1024) :=
  (List.range 16).flatMap fun i =>
    [slotOf (seqno + BitVec.ofNat 32 (i*8)),slotOf (seqno - BitVec.ofNat 32 (i*8))]

/-- The element `get` uses. -/
def used (seqno : BitVec 32) : Option TimestampElement :=
  (lookedAt seqno).findSome? fun slot => (g slot).filter (accepts seqno)

/-- The time stamp and the packet rate `get` returns; without a result it has divided by zero. -/
def guess (seqno : BitVec 32) (elem : TimestampElement) : Option (BitVec 32 × BitVec 16) :=
  if elem.packetRate=0 then none
  else
    let seqnoDis := BitVec.ofInt 32 (wrappableMinus seqno elem.seqno * 1000)
    some (elem.timestamp + BitVec.ofInt 32 (seqnoDis.toInt.tdiv elem.packetRate.toNat), elem.packetRate)

/-- `get`; it returns false, divides by zero, or returns true with what it guesses. -/
def get (seqno : BitVec 32) : Option (Option (BitVec 32 × BitVec 16)) :=
  (g.used seqno).map (guess seqno)

/-- The number is at most `4 * TIMESTAMP_GUESS_PKT_CNT` away from that of the element. -/
def Near (seqno : BitVec 32) (elem : TimestampElement) : Prop :=
  (wrappableMinus seqno elem.seqno).natAbs ≤ 32

instance (seqno : BitVec 32) (elem : TimestampElement) : Decidable (Near seqno elem) :=
  inferInstanceAs (Decidable (_≤_))

/-- `get` returns true, uses an element near the number and does not divide by zero. -/
def Guesses (seqno : BitVec 32) : Prop :=
  ∃ elem, g.used seqno = some elem ∧ Near seqno elem ∧ ∃ r, g.get seqno = some (some r)

/-- A call of `set`. -/
structure Learned where
  seqno : BitVec 32
  packetRate : BitVec 32
  timestamp : BitVec 32

def step (e : Learned) : TimestampGuess := g.set e.seqno e.packetRate e.timestamp

/-- What `set` needs for its number to be guessed afterwards: a packet rate that is not zero in 16
bits if the slot takes the element; and otherwise an element near the number, while the one in the
slot is not just half the number range away. -/
def Guessable (e : Learned) : Prop :=
  if g.replaces e.seqno then e.packetRate.setWidth 16 ≠ 0
  else (∃ slot elem, g slot = some elem ∧ Near e.seqno elem) ∧
    ∀ elem ∈ g (slotOf e.seqno), e.seqno - elem.seqno ≠ BitVec.intMin 32

/-! ### Slots -/

theorem slotOf_val (seqno : BitVec 32) : (slotOf seqno).val = seqno.toNat / 8 % 1024 := rfl

theorem slotOf_sub_intMin (seqno : BitVec 32) : slotOf (seqno - BitVec.intMin 32) = slotOf seqno := by
  apply Fin.ext
  rw [slotOf_val,slotOf_val]
  have : (BitVec.intMin 32).toNat = 2147483648 := by decide
  rw [toNat_sub,this]
  omega

theorem accepts_iff (seqno : BitVec 32) (elem : TimestampElement) :
    accepts seqno elem = true ↔ Near seqno elem ∨ seqno - elem.seqno = BitVec.intMin 32 := by
  unfold accepts Near wrappableMinus
  rw [decide_eq_true_eq]
  generalize seqno - elem.seqno = d
  by_cases hd : d = BitVec.intMin 32
  · subst hd
    exact iff_of_true (by decide) (.inr rfl)
  · rw [toInt_abs_eq_natAbs_of_ne_intMin hd,or_iff_left hd]
    omega

variable {seqno : BitVec 32} {elem : TimestampElement}

theorem not_near_of_intMin (h : seqno - elem.seqno = BitVec.intMin 32) : ¬ Near seqno elem := by
  unfold Near wrappableMinus
  rw [h]
  decide

theorem near_iff : Near seqno elem ↔ (seqno - elem.seqno).toNat ≤ 32 ∨
    (elem.seqno - seqno).toNat ≤ 32 := by
  unfold Near wrappableMinus
  rw [toInt_eq_toNat_cond,toNat_sub,toNat_sub]
  split_ifs <;> omega

theorem slotOf_add_mem_lookedAt {i : ℕ} (hi : i<16) :
    slotOf (seqno + BitVec.ofNat 32 (i*8)) ∈ lookedAt seqno := by
  rw [lookedAt,mem_flatMap]
  exact ⟨i,mem_range.mpr hi,mem_cons_self⟩

theorem slotOf_sub_mem_lookedAt {i : ℕ} (hi : i<16) :
    slotOf (seqno - BitVec.ofNat 32 (i*8)) ∈ lookedAt seqno := by
  rw [lookedAt,mem_flatMap]
  exact ⟨i,mem_range.mpr hi,mem_cons_of_mem _ mem_cons_self⟩

theorem slotOf_mem_lookedAt (h : Near seqno elem) : slotOf elem.seqno ∈ lookedAt seqno := by
  have hs := seqno.isLt
  rcases near_iff.mp h with hle | hle
  · -- the element is below: as many groups down as the distance leads over
    have hi : ((seqno - elem.seqno).toNat + 7 - seqno.toNat % 8) / 8 < 16 := by omega
    have hslot : slotOf elem.seqno =
        slotOf (seqno - BitVec.ofNat 32 (((seqno - elem.seqno).toNat + 7 - seqno.toNat % 8) / 8 *
          8)) := by
      apply Fin.ext
      rw [slotOf_val,slotOf_val,toNat_sub,toNat_ofNat]
      rw [toNat_sub] at hle ⊢
      omega
    rw [hslot]
    exact slotOf_sub_mem_lookedAt hi
  · have hi : (seqno.toNat % 8 + (elem.seqno - seqno).toNat) / 8 < 16 := by omega
    have hslot : slotOf elem.seqno =
        slotOf (seqno + BitVec.ofNat 32 ((seqno.toNat % 8 + (elem.seqno - seqno).toNat) / 8 * 8)) := by
      apply Fin.ext
      rw [slotOf_val,slotOf_val,toNat_add,toNat_ofNat]
      rw [toNat_sub] at hle ⊢
      omega
    rw [hslot]
    exact slotOf_add_mem_lookedAt hi

/-! ### The element `get` uses -/

/-- Every element stands in the slot of its number and has a packet rate that is not zero. -/
def Sound : Prop :=
  ∀ slot elem, g slot = some elem → slotOf elem.seqno = slot ∧ elem.packetRate≠0

variable {g}

theorem used_eq_of_accepts (h : g (slotOf seqno) = some elem) (haccepts : accepts seqno elem = true) :
    g.used seqno = some elem := by
  have hfirst : lookedAt seqno = slotOf seqno :: (lookedAt seqno).tail := by
    unfold lookedAt
    rw [range_succ_eq_map,flatMap_cons]
    simp
  rw [used,hfirst,List.findSome?_cons,h,Option.filter_some,if_pos haccepts]

theorem used_spec (h : g.used seqno = some elem) :
    ∃ slot, g slot = some elem ∧ accepts seqno elem = true := by
  obtain ⟨slot,-,hslot⟩ := exists_of_findSome?_eq_some h
  rw [Option.filter_eq_some_iff] at hslot
  exact ⟨slot,hslot.1,hslot.2⟩

theorem exists_used {slot : Fin 1024}
    (hslot : slot ∈ lookedAt seqno) (h : g slot = some elem) (haccepts : accepts seqno elem = true) :
    ∃ elem', g.used seqno = some elem' := by
  rw [← Option.isSome_iff_exists,used,List.findSome?_isSome_iff]
  exact ⟨slot,hslot,by rw [h,Option.filter_some,if_pos haccepts]; rfl⟩

theorem Sound.guesses_iff (h : g.Sound) (seqno : BitVec 32) :
    g.Guesses seqno ↔ (∃ slot elem, g slot = some elem ∧ Near seqno elem) ∧
      ∀ elem ∈ g (slotOf seqno), seqno - elem.seqno ≠ BitVec.intMin 32 := by
  constructor
  · rintro ⟨elem,hused,hnear,-⟩
    obtain ⟨slot,hslot,-⟩ := used_spec hused
    refine ⟨⟨slot,elem,hslot,hnear⟩,fun other hother hfar => ?_⟩
    have hother' := used_eq_of_accepts hother ((accepts_iff seqno other).mpr (.inr hfar))
    rw [hused] at hother'
    cases hother'
    exact not_near_of_intMin hfar hnear
  · rintro ⟨⟨slot,elem,hslot,hnear⟩,hfar⟩
    have hlooked : slot ∈ lookedAt seqno := (h slot elem hslot).1 ▸ slotOf_mem_lookedAt hnear
    obtain ⟨elem',hused⟩ := exists_used hlooked hslot ((accepts_iff seqno elem).mpr (.inl hnear))
    obtain ⟨slot',hslot',haccepts⟩ := used_spec hused
    obtain ⟨hplace,hrate⟩ := h slot' elem' hslot'
    have hnear' : Near seqno elem' := by
      refine ((accepts_iff seqno elem').mp haccepts).resolve_right fun hmin => ?_
      -- half the number range away is in the same slot
      have hsame : slotOf seqno = slot' := by
        rw [← hplace,← slotOf_sub_intMin seqno,← hmin]
        congr 1
        bv_omega
      exact hfar elem' (hsame ▸ hslot') hmin
    refine ⟨elem',hused,hnear',?_⟩
    rw [get,hused,Option.map_some,guess,if_neg hrate]
    exact ⟨_,rfl⟩

theorem near_self (seqno timestamp : BitVec 32) (rate : BitVec 16) :
    Near seqno ⟨seqno,timestamp,rate⟩ := by
  simp [Near,wrappableMinus]

theorem set_of_replaces {e : Learned} (h : g.replaces e.seqno = true) :
    g.step e = Function.update g (slotOf e.seqno)
      (some ⟨e.seqno,e.timestamp,e.packetRate.setWidth 16⟩) := by
  rw [step,set,if_pos h]

theorem set_of_not_replaces {e : Learned} (h : ¬ g.replaces e.seqno = true) : g.step e = g := by
  rw [step,set,if_neg h]

theorem Sound.guesses_step_iff (h : g.Sound) (e : Learned) :
    (g.step e).Guesses e.seqno ↔ g.Guessable e := by
  unfold Guessable
  split_ifs with hreplaces
  · rw [set_of_replaces hreplaces]
    have hself := Function.update_self (slotOf e.seqno)
      (some (⟨e.seqno,e.timestamp,e.packetRate.setWidth 16⟩ : TimestampElement)) g
    have hnear := near_self e.seqno e.timestamp (e.packetRate.setWidth 16)
    have hused := used_eq_of_accepts hself ((accepts_iff e.seqno _).mpr (.inl hnear))
    constructor
    · rintro ⟨elem,helem,-,r,hr⟩ hzero
      rw [get,hused,Option.map_some,guess,if_pos hzero] at hr
      exact absurd hr (by simp)
    · intro hrate
      refine ⟨_,hused,hnear,?_⟩
      rw [get,hused,Option.map_some,guess,if_neg hrate]
      exact ⟨_,rfl⟩
  · rw [set_of_not_replaces hreplaces]
    exact h.guesses_iff e.seqno

theorem Sound.step (h : g.Sound) {e : Learned} (he : g.Guessable e) : (g.step e).Sound := by
  unfold Guessable at he
  split_ifs at he with hreplaces
  · rw [set_of_replaces hreplaces]
    intro slot elem hslot
    rw [Function.update_apply] at hslot
    split_ifs at hslot with heq
    · cases hslot
      exact ⟨heq.symm,he⟩
    · exact h slot elem hslot
  · rw [set_of_not_replaces hreplaces]
    exact h

/-- In every run of `set` from an empty ring each number is guessed right after it was set, just
when every call meets the condition. -/
theorem learned_guessed_iff (es : List Learned) :
    AlongRun step (fun g e => (g.step e).Guesses e.seqno) (fun _ => none) es ↔
      AlongRun step Guessable (fun _ => none) es := by
  have hsound : Sound fun _ => none := fun _ _ h => absurd h (Option.some_ne_none _).symm
  constructor
  · intro h
    exact h.imp_of_invariant Sound (fun g e hg he => hg.step ((hg.guesses_step_iff e).mp he))
      (fun g e hg => (hg.guesses_step_iff e).mp) hsound
  · intro h
    exact h.imp_of_invariant Sound (fun g e hg => hg.step)
      (fun g e hg => (hg.guesses_step_iff e).mpr) hsound

/-- Number 4 is learned, and one round of the ring later number 8192, which falls into the same
slot; the old element stays. -/
theorem old_element_stays :
    ¬ AlongRun step (fun g e => (g.step e).Guesses e.seqno) (fun _ => none) [⟨4,50,0⟩,⟨8192,50,20⟩] := by
  rintro ⟨-,⟨elem,hused,-⟩,-⟩
  have hnone : ((step (step (fun _ => none) ⟨4,50,0⟩) ⟨8192,50,20⟩).used 8192).isNone = true := by decide
  rw [hused] at hnone
  exact absurd hnone (by simp)

end TimestampGuess

end P2Streaming
