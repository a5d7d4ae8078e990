import P2Streaming.MediaDispatchOrder

/-!
# The dispatch calls of a run

A packet is dispatched by the text loop or by one of the media loops. The watch keeps all
packets `dispatch` was called with, in the order of the calls, and all packets that came,
from outside or by a recovery.
-/
namespace P2Streaming
open WrappableInteger BoundedLoops SerialMaps TransitionRuns List

namespace MediaDispatcher

variable {n : ℕ} {cfg : DispatchConfig}

/-- What `dispatch` calls the player and the service with. -/
def playerCalls (cfg : DispatchConfig) (minSeqno : BitVec 32) (orgPkt : MediaPacket) :
    List PlayerCall :=
  let pkt := SecurityPolicy.casMediapacket cfg.md5 orgPkt cfg.casString
  match dispatchRoute orgPkt with
  | .nothing => []
  | .systemLevelData => [.systemLevelData pkt.payload]
  | .media =>
      match cfg.vodMaxSeqno with
      | none => [.onRecvdMedia pkt.payload pkt.srcId32 pkt.channelId]
      | some maxSeqno => vodDispatchMediaPacket cfg.offset minSeqno maxSeqno pkt

def textLoop (d : MediaDispatcher n) : Event n → List MediaPacket
  | .timer env => if d.mediaPktToPlayerCache.isEmpty || !env.serviceLogic then [] else d.txtPktCache
  | _ => []

/-- What has been recorded since the first state, with the calls made on behalf of it. -/
structure Grown (cfg : DispatchConfig) (d d' : MediaDispatcher n) : Prop where
  minSeqno : d'.minSeqno=d.minSeqno
  recoveries : d.recoveries <+: d'.recoveries
  dispatched : ∃ pkts, d'.dispatched = d.dispatched ++ pkts ∧
    d'.calls = d.calls ++ pkts.flatMap (playerCalls cfg d.minSeqno)

theorem Grown.refl (cfg : DispatchConfig) (d : MediaDispatcher n) : Grown cfg d d :=
  ⟨rfl,prefix_refl _,[],by simp,by simp⟩

theorem Grown.trans {d d' d'' : MediaDispatcher n} (h : Grown cfg d d') (h' : Grown cfg d' d'') :
    Grown cfg d d'' := by
  obtain ⟨pkts,hpkts,hcalls⟩ := h.dispatched
  obtain ⟨pkts',hpkts',hcalls'⟩ := h'.dispatched
  refine ⟨h'.minSeqno.trans h.minSeqno,h.recoveries.trans h'.recoveries,pkts++pkts',?_,?_⟩
  · rw [hpkts',hpkts,append_assoc]
  · rw [hcalls',hcalls,h.minSeqno,flatMap_append,append_assoc]

variable (d : MediaDispatcher n) (pkt : MediaPacket)

theorem calls_push :
    (d.push cfg pkt).calls = d.calls ++ playerCalls cfg d.minSeqno pkt := by
  unfold push
  split_ifs <;> rfl

theorem grown_push : Grown cfg d (d.push cfg pkt) := by
  refine ⟨?_,by rw [push_recoveries],[pkt],push_dispatched d pkt,?_⟩
  · unfold push
    split_ifs <;> rfl
  · rw [calls_push,flatMap_singleton]

theorem doProcess_calls :
    (d.doProcessRecvdMediaPacket pkt).calls = d.calls := by
  unfold doProcessRecvdMediaPacket keepForPlayer
  dsimp only
  split_ifs <;> rfl

theorem grown_doProcess :
    Grown cfg d (d.doProcessRecvdMediaPacket pkt) := by
  have h := d.doProcess_progress pkt
  refine ⟨h.minSeqno,by rw [h.recoveries],[],?_,?_⟩
  · rw [h.dispatched,append_nil]
  · rw [doProcess_calls,flatMap_nil,append_nil]

theorem FecOutcome.grown {d d' : MediaDispatcher n} (h : FecOutcome d d') : Grown cfg d d' := by
  cases h with
  | nothing => exact .refl cfg d
  | recovered memory pkt =>
    have hnoted : Grown cfg d (d.noted memory pkt) :=
      ⟨rfl,prefix_append _ _,[],by simp [noted],by simp [noted]⟩
    exact hnoted.trans (grown_doProcess _ pkt)

theorem Progress.grown {s t : LoopState n} (h : Progress cfg s t) : Grown cfg s.d t.d := by
  cases h with
  | erase head older hd hf =>
    rw [hd]
    exact ⟨rfl,prefix_refl _,[],by simp,by simp⟩
  | retry head gap tries fec hf => exact fec.grown
  | skip head gap fec idle missing hd hf =>
    rw [hd]
    exact fec.grown.trans (grown_push _ _)
  | next head nogap hd hf =>
    rw [hd]
    exact grown_push _ _

theorem grown_loop {body : LoopState n → Turn (LoopState n)}
    (advances : ∀ s, Advances cfg s (body s)) (d : MediaDispatcher n) (env : CallEnv) :
    Grown cfg d (loop body d.turns (d.loopStart env)).d :=
  loop_keeps advances (Grown cfg d) (fun _ _ hp h => h.trans hp.grown) d env (.refl cfg d)

theorem dispatchTxt_eq (cfg : DispatchConfig) (d : MediaDispatcher n) :
    d.dispatchTxt cfg =
      { d with
        txtPktCache := []
        smallestTxtSeqnoICare :=
          (d.txtPktCache.getLast?.map MediaPacket.seqno).or d.smallestTxtSeqnoICare
        calls := d.calls ++ d.txtPktCache.flatMap (playerCalls cfg d.minSeqno) } := by
  have hfold : ∀ (pkts : List MediaPacket) (e : MediaDispatcher n),
      pkts.foldl (fun d pkt =>
        ({ d with smallestTxtSeqnoICare := some pkt.seqno }).dispatch cfg pkt) e =
      { e with
        smallestTxtSeqnoICare := (pkts.getLast?.map MediaPacket.seqno).or e.smallestTxtSeqnoICare
        calls := e.calls ++ pkts.flatMap (playerCalls cfg e.minSeqno) } := by
    intro pkts
    induction pkts with
    | nil =>
      intro e
      simp
    | cons pkt pkts ih =>
      intro e
      have hd : ({ e with smallestTxtSeqnoICare := some pkt.seqno } : MediaDispatcher n).dispatch
          cfg pkt =
          { e with
            smallestTxtSeqnoICare := some pkt.seqno
            calls := e.calls ++ playerCalls cfg e.minSeqno pkt } := by
        rfl
      rw [foldl_cons,hd,ih]
      congr 1
      · cases pkts with
        | nil => rfl
        | cons q qs =>
          rfl
      · rw [flatMap_cons,append_assoc]
  unfold dispatchTxt
  rw [hfold]

end MediaDispatcher

/-- A dispatcher, all packets it called `dispatch` with, and all packets that came. -/
structure DispatchWatch (n : ℕ) where
  d : MediaDispatcher n
  pushes : List MediaPacket
  came : List MediaPacket

namespace DispatchWatch
open MediaDispatcher

variable {n : ℕ} {cfg : DispatchConfig}

def received : Event n → List MediaPacket
  | .recvd pkt => [pkt]
  | _ => []

def recovered (cfg : DispatchConfig) (d : MediaDispatcher n) (e : Event n) : List Recovery :=
  (d.step cfg e).recoveries.drop d.recoveries.length

def mediaLoop (cfg : DispatchConfig) (d : MediaDispatcher n) (e : Event n) : List MediaPacket :=
  (d.step cfg e).dispatched.drop d.dispatched.length

def step (cfg : DispatchConfig) (w : DispatchWatch n) (e : Event n) : DispatchWatch n where
  d := w.d.step cfg e
  pushes := w.pushes ++ (textLoop w.d e ++ mediaLoop cfg w.d e)
  came := w.came ++ (received e ++ (recovered cfg w.d e).map Recovery.pkt)

end DispatchWatch

namespace MediaDispatcher

variable {n : ℕ} {cfg : DispatchConfig}

theorem step_grown (cfg : DispatchConfig) (d : MediaDispatcher n) (e : Event n) :
    ∃ d₀ : MediaDispatcher n, Grown cfg d₀ (d.step cfg e) ∧ d₀.dispatched=d.dispatched ∧
      d₀.recoveries = d.recoveries ∧
      d₀.calls = d.calls ++ (textLoop d e).flatMap (playerCalls cfg d.minSeqno) := by
  cases e with
  | recvd pkt => exact ⟨d,grown_doProcess d pkt,rfl,rfl,by simp [textLoop]⟩
  | memory cache => exact ⟨{ d with memoryPacketCache := cache },.refl cfg _,rfl,rfl,by simp [textLoop]⟩
  | setFlush flush => exact ⟨{ d with flush },.refl cfg _,rfl,rfl,by simp [textLoop]⟩
  | stop env =>
    refine ⟨d,?_,rfl,rfl,by simp [textLoop]⟩
    rw [step,MediaDispatcher.stop]
    split_ifs
    · exact grown_loop (flushTurn_advances env) d env
    · exact .refl cfg d
  | timer env =>
    rw [step,onDispatchTimer,textLoop]
    split_ifs with hidle
    · exact ⟨d,.refl cfg d,rfl,rfl,by simp⟩
    · dsimp only
      rw [dispatchTxt_eq]
      split_ifs with hstarted
      · exact ⟨_,grown_loop (timerTurn_advances env env.maxPush) _ env,rfl,rfl,rfl⟩
      · split
        · exact ⟨_,.refl cfg _,rfl,rfl,rfl⟩
        · rename_i d' hd'
          refine ⟨d',grown_loop (timerTurn_advances env 100) d' env,?_⟩
          rcases canPlayerStart_some hd' with rfl | ⟨pkt,rest,-,rfl⟩ <;> exact ⟨rfl,rfl,rfl⟩

theorem step_dispatched (cfg : DispatchConfig) (d : MediaDispatcher n) (e : Event n) :
    (d.step cfg e).dispatched = d.dispatched ++ DispatchWatch.mediaLoop cfg d e := by
  obtain ⟨d₀,hgrown,hdispatched,-,-⟩ := step_grown cfg d e
  obtain ⟨pkts,hpkts,-⟩ := hgrown.dispatched
  rw [DispatchWatch.mediaLoop,hpkts,hdispatched,drop_left]

end MediaDispatcher

end P2Streaming
