import P2Streaming.UrdpReliableDelivery

/-!
# What an established `urdp_flow` may conclude about its peer

Datagrams may be lost, repeated and reordered, and either side may close, reset or give up at any time.
-/
namespace P2Streaming.Urdp.System
open TransitionRuns

variable {addr : Side → Endpoint} {s : System}

/-- What every step keeps. -/
structure Agreeing (addr : Side → Endpoint) (s : System) : Prop where
  locals : ∀ side, (s side).core.Local
  handshake : Handshake (addr .acceptor) (s .connector).core (s .acceptor).core

theorem Agreeing.met (h : s.Agreeing addr) (side : Side) :
    Met (addr .acceptor) side (s side).core (s side.peer).core := by
  cases side <;> exact h.handshake

theorem Agreeing.next (h : s.Agreeing addr) {side : Side} (env : Env) {ev : Event}
    (heard : ∀ x∈ev.arrival, Heard (s side.peer).log (addr side) (addr side.peer) x) :
    (s.next side env ev).Agreeing addr := by
  have hmoves := Flow.step_moves env ((s side).admits_loose env ev)
  obtain ⟨hlocal,hmet⟩ := hmoves.keeps (fun c => Met (addr .acceptor) side c (s side.peer).core)
    (fun c d hl hm h => h.step hl heard hm) (fun c d buf _ hd h => h.delivery hd)
    (h.locals side) (h.met side)
  refine ⟨next_forall h.locals hlocal,?_⟩
  rw [← s.next_self side env ev,← s.next_peer side env ev] at hmet
  cases side <;> exact hmet

theorem Agreeing.step (h : s.Agreeing addr) (e : SystemEvent) : (s.step addr e).Agreeing addr := by
  rcases s.step_cases e with heq | ⟨side,env,ev,heq,heard,-⟩
  · rwa [heq]
  · rw [heq]
    exact h.next env heard

/-- In every run of the two flows: if the connector is established, the acceptor has answered it and
listens no more; if the acceptor is established, the connector has taken that answer and said so;
and an acceptor that listens no more has been called by the connector at its address, or is closed. -/
theorem established_only_in_agreement (start : s.Start) (es : List SystemEvent) :
    let a := (s.run addr es .connector).core
    let b := (s.run addr es .acceptor).core
    (a.Live → b.Answered ∧ b.state ≠ .listen) ∧ (b.Live → a.Synced ∧ a.Spoke .connect ∧ b.Answered) ∧
      (b.state = .listen ∨ b.state = .closed ∨ a.Called (addr .acceptor)) := by
  intro a b
  have h := (invariant_of_run (P := fun _ _ => True) (Agreeing addr) (fun _ e _ h => h.step e)
    (alongRun_of_forall (fun _ _ => trivial) s es)
    ⟨fun side => (start.created side).local,Handshake.start start⟩).handshake
  change Handshake (addr .acceptor) a b at h
  refine ⟨fun ha => ?_,fun hb => ?_,?_⟩
  · have hanswered := h.answered (.inr ha)
    exact ⟨hanswered,fun hlisten => (h.listening hlisten).2.1 hanswered⟩
  · have hspoke := h.spoken (.inr (.inl hb))
    refine ⟨?_,hspoke,h.answered (.inl hspoke)⟩
    by_contra hsynced
    exact (h.silent hsynced).1 hspoke
  · by_contra hnone
    simp only [not_or] at hnone
    exact hnone.2.2 (h.called (.inr (.inr ⟨hnone.1,hnone.2.1⟩)))

/-- The connector is established first. -/
theorem greetings_agree : let s := twoFlows.run twoHosts greetings
    (s .connector).core.Live ∧ ¬(s .acceptor).core.Live ∧ (s .acceptor).core.Answered :=
  have hlive : (twoFlows.run twoHosts greetings .connector).core.Live := by
    refine ⟨?_,?_⟩ <;> decide +kernel
  ⟨hlive,fun h => absurd h.1 (by decide +kernel),
    ((established_only_in_agreement twoFlows_start greetings).1 hlive).1⟩

end P2Streaming.Urdp.System
