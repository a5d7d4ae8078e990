import Mathlib.Logic.Relation

/-!
# Runs of a transition relation under an invariant

A concrete operation that changes an abstract state in several small steps is
described by `Leads`: from every state that keeps the invariant, the small steps
reach the state the operation ends in. The invariant is kept on the way, so such
descriptions compose. Runs of a step function over a list of inputs are folds, and
`AlongRun` says that every step of one meets a condition.
-/
namespace P2Streaming.TransitionRuns
open Relation

variable {α : Type*} {Inv : α → Prop} {Step : α → α → Prop}

/-- What every step keeps holds at the end of every run from a state where it holds. -/
theorem invariant_of_steps (Inv : α → Prop) (keeps : ∀ a b, Step a b → Inv a → Inv b) {a b : α}
    (h : ReflTransGen Step a b) (ha : Inv a) : Inv b := by
  induction h with
  | refl => exact ha
  | tail _ hs ih => exact keeps _ _ hs ih

/-- From `a`, if it keeps the invariant, the steps reach `b`. -/
def Leads (Inv : α → Prop) (Step : α → α → Prop) (a b : α) : Prop :=
  Inv a → ReflTransGen Step a b

namespace Leads

theorem refl (a : α) : Leads Inv Step a a := fun _ => .refl

theorem of_eq {a b : α} (h : a=b) : Leads Inv Step a b := h ▸ refl a

theorem single {a b : α} (h : Inv a → Step a b) : Leads Inv Step a b := fun ha => .single (h ha)

theorem trans (keeps : ∀ a b, Step a b → Inv a → Inv b) {a b c : α}
    (h : Leads Inv Step a b) (h' : Leads Inv Step b c) : Leads Inv Step a c := by
  intro ha
  have hab := h ha
  exact hab.trans (h' (invariant_of_steps Inv keeps hab ha))

end Leads

variable {σ ε : Type*}

/-- Every step of the run meets the condition in the state it starts from. -/
def AlongRun (step : σ → ε → σ) (P : σ → ε → Prop) : σ → List ε → Prop
  | _, [] => True
  | s, e :: es => P s e ∧ AlongRun step P (step s e) es

instance AlongRun.decidable {step : σ → ε → σ} {P : σ → ε → Prop} [∀ s e, Decidable (P s e)] :
    ∀ (s : σ) (es : List ε), Decidable (AlongRun step P s es)
  | _, [] => .isTrue trivial
  | s, e :: es => @instDecidableAnd _ _ _ (AlongRun.decidable (step s e) es)

variable {step : σ → ε → σ} {P : σ → ε → Prop}

theorem alongRun_of_forall (h : ∀ s e, P s e) (s : σ) (es : List ε) : AlongRun step P s es := by
  induction es generalizing s with
  | nil => trivial
  | cons e es ih => exact ⟨h s e,ih _⟩

variable {s : σ} {es : List ε}

/-- What every step that meets the condition keeps holds in every state the run reaches. -/
theorem invariant_of_run (Inv : σ → Prop) (keeps : ∀ s e, P s e → Inv s → Inv (step s e))
    (h : AlongRun step P s es) (hs : Inv s) : Inv (es.foldl step s) := by
  induction es generalizing s with
  | nil => exact hs
  | cons e es ih => exact ih h.2 (keeps s e h.1 hs)

/-- Under an invariant the steps of a run meet whatever their condition implies there. -/
theorem AlongRun.imp_of_invariant {P Q : σ → ε → Prop} (Inv : σ → Prop)
    (keeps : ∀ s e, Inv s → P s e → Inv (step s e)) (imp : ∀ s e, Inv s → P s e → Q s e)
    (h : AlongRun step P s es) (hs : Inv s) : AlongRun step Q s es := by
  induction es generalizing s with
  | nil => trivial
  | cons e es ih => exact ⟨imp s e hs h.1,ih h.2 (keeps s e hs h.1)⟩

/-- The states of a run are good just when its steps meet the condition, if behind good ones a
step that meets it keeps the invariant and any other step leads to a state that is not good. -/
theorem alongRun_iff_of_invariant {P Q : σ → ε → Prop} (Inv Good : σ → Prop)
    (good : ∀ s, Inv s → Good s) (keeps : ∀ s e, Inv s → Q s e → P s e → Inv (step s e))
    (breaks : ∀ s e, Inv s → Q s e → Good (step s e) → P s e) (h : AlongRun step Q s es) (hs : Inv s) :
    (∀ n, Good ((es.take n).foldl step s)) ↔ AlongRun step P s es := by
  induction es generalizing s with
  | nil => simpa [AlongRun] using good s hs
  | cons e es ih =>
    constructor
    · intro hall
      have hP := breaks s e hs h.1 (hall 1)
      exact ⟨hP,(ih h.2 (keeps s e hs h.1 hP)).mp fun n => hall (n+1)⟩
    · rintro ⟨he,hrest⟩ n
      cases n with
      | zero => exact good s hs
      | succ n => exact (ih h.2 (keeps s e hs h.1 he)).mpr hrest n

/-- Where a step keeps the invariant just when it meets the condition, so does a whole run. -/
theorem alongRun_iff (Inv : σ → Prop)
    (keeps : ∀ s e, Inv s → (Inv (step s e) ↔ P s e)) (es : List ε) (hs : Inv s) :
    (∀ n, Inv ((es.take n).foldl step s)) ↔ AlongRun step P s es :=
  alongRun_iff_of_invariant Inv Inv (fun _ h => h) (fun s e h _ => (keeps s e h).mpr)
    (fun s e h _ => (keeps s e h).mp)
    (alongRun_of_forall (fun _ _ => trivial) s es : AlongRun step (fun _ _ => True) s es) hs

theorem AlongRun.and_mem (h : AlongRun step P s es) : AlongRun step (fun s e => P s e ∧ e∈es) s es := by
  have hall : ∀ (rest : List ε) (s : σ), rest ⊆ es → AlongRun step P s rest →
      AlongRun step (fun s e => P s e ∧ e∈es) s rest := by
    intro rest
    induction rest with
    | nil => exact fun _ _ _ => trivial
    | cons e rest ih =>
      intro s hsub h
      exact ⟨⟨h.1,hsub List.mem_cons_self⟩,ih _ (List.subset_of_cons_subset hsub) h.2⟩
  exact hall es s (fun _ he => he) h

theorem alongRun_append {es es' : List ε} : AlongRun step P s (es++es') ↔
      AlongRun step P s es ∧ AlongRun step P (es.foldl step s) es' := by
  induction es generalizing s with
  | nil => simp [AlongRun]
  | cons e es ih => simp [AlongRun,ih,and_assoc]

end P2Streaming.TransitionRuns
