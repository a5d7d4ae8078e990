import P2Streaming.UrdpFlowEventSteps

/-!
# Runs of one flow

A flow starts out as one of the two `create_for_` functions makes it. What the small
steps and the deliveries of messages keep holds along every run.
-/
namespace P2Streaming.Urdp
open Relation TransitionRuns

/-- As `create_for_active_connect` or `create_for_passive_connect` leaves it. -/
def Flow.Created (f : Flow) : Prop :=
  (∃ p now, f = .createForActiveConnect p now) ∨
    ∃ p remoteEdp now, f = .createForPassiveConnect p remoteEdp now

theorem Flow.Created.local {f : Flow} (h : f.Created) : f.core.Local := by
  rcases h with ⟨p,now,rfl⟩ | ⟨p,remoteEdp,now,rfl⟩
  · exact ⟨rfl,nofun,nofun,nofun,fun _ _ => rfl,nofun,nofun,nofun,(absurd rfl ·),
      fun _ => rfl,fun _ => Or.inl rfl⟩
  · exact ⟨rfl,nofun,nofun,fun _ => rfl,nofun,nofun,nofun,nofun,(absurd rfl ·),
      fun _ => rfl,nofun⟩

theorem Core.Delivery.local {c d : Core} {buf : List BigEndianBytes.Byte} (h : c.Delivery buf d)
    (hc : c.Local) : d.Local := by
  obtain ⟨-,-,_,_,_,-,-,-,-,rfl⟩ := h
  exact ⟨hc.1,hc.2,hc.3,hc.4,hc.5,hc.6,hc.7,hc.8,hc.9,hc.10,hc.11⟩

variable {strict trusted : Prop} {rx : Option Arrival}

theorem Move.keeps (Inv : Core → Prop)
    (micro : ∀ c d, c.Local → Micro strict trusted rx c d → Inv c → Inv d)
    (taken : ∀ c d buf, c.Local → c.Delivery buf d → Inv c → Inv d) {c d : Core}
    (h : Move strict trusted rx c d) (hl : c.Local) (hc : Inv c) : Inv d := by
  cases h with
  | micro h => exact micro _ _ hl h hc
  | handover hd quiet attached =>
    have hquiet := invariant_of_steps (fun c => c.Local ∧ Inv c)
      (fun a b h hab => ⟨h.local hab.1,micro a b hab.1 h hab.2⟩) quiet
      ⟨hd.local hl,taken _ _ _ hl hd hc⟩
    exact micro _ _ hquiet.1 (.note _ ⟨attached,rfl⟩) hquiet.2

theorem Flow.Moves.keeps {f g : Flow} (h : f.Moves strict trusted rx g) (Inv : Core → Prop)
    (micro : ∀ c d, c.Local → Micro strict trusted rx c d → Inv c → Inv d)
    (taken : ∀ c d buf, c.Local → c.Delivery buf d → Inv c → Inv d)
    (hl : f.core.Local) (hf : Inv f.core) : g.core.Local ∧ Inv g.core :=
  invariant_of_steps (fun c => c.Local ∧ Inv c)
    (fun _ _ h hc => ⟨h.local hc.1,h.keeps Inv micro taken hc.1 hc.2⟩) (h hl) ⟨hl,hf⟩

namespace Flow

theorem admits_loose (f : Flow) (env : Env) (ev : Event) : f.Admits False False env ev :=
  ⟨nofun,nofun,nofun,nofun⟩

theorem run_keeps {f : Flow} (Inv : Core → Prop)
    (micro : ∀ rx c d, c.Local → Micro False False rx c d → Inv c → Inv d)
    (taken : ∀ c d buf, c.Local → c.Delivery buf d → Inv c → Inv d)
    (hl : f.core.Local) (hf : Inv f.core) (evs : List (Env × Event)) : Inv (f.run evs).core :=
  (invariant_of_run (fun f : Flow => f.core.Local ∧ Inv f.core)
    (fun f e _ h => (step_moves e.1 (f.admits_loose e.1 e.2)).keeps Inv (micro _) taken h.1 h.2)
    (alongRun_of_forall (fun _ _ => trivial) f evs) ⟨hl,hf⟩).2

end Flow
end P2Streaming.Urdp
