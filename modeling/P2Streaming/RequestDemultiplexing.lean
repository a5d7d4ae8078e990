import P2Streaming.SharedUdpLayer
import P2Streaming.TransitionRuns

/-!
# Which flow a connection request reaches

An id is either with a registered flow, waiting in `released_id_catch_`, or free, and it
waits at least 64 seconds after its flow has gone. A request is remembered for 60 seconds
after its flow was created. So within that time its id belongs to no other flow.
-/
namespace P2Streaming.Urdp
open BigEndianBytes TimedKeepers TransitionRuns SharedUdpLayer List

namespace LocalIdAllocator

theorem allocId_cases (a : LocalIdAllocator) :
    (∃ id rest, a.availIdSet = id :: rest ∧ a.allocId = ({ a with availIdSet := rest }, id)) ∨
      a.allocId = ({ a with tailId := a.tailId + 1 }, a.tailId) := by
  unfold allocId
  split
  · rename_i id rest h
    split_ifs
    · exact .inl ⟨id,rest,h,rfl⟩
    · exact .inr rfl
  · exact .inr rfl

end LocalIdAllocator

namespace SharedUdpLayer

variable (s : SharedUdpLayer)

def ids : List ℕ :=
  s.registered.map Prod.snd ++ (s.releasedIdCatch++s.idAllocator.availIdSet)

def Holds (c : Creation) : Prop :=
  (c.flow, c.flowId) ∈ s.registered ∨
    (c.flowId∈s.releasedIdCatch ∧
      ∃ e∈s.releasedIdKeeper, e.data=c.flowId ∧ c.time+64000≤e.outTime)

def Remembers (c : Creation) : Prop :=
  ∃ e∈s.requestUuidKeeper, e.data = (c.uuid, c.flowId) ∧ c.time+60000≤e.outTime

structure Inv (s : SharedUdpLayer) : Prop where
  nodup : s.ids.Nodup
  below : ∀ id∈s.ids, id<s.idAllocator.tailId
  valid : ∀ r∈s.registered, r.2 < invalidFlowId
  flows : ∀ id flow, s.flows id = some flow ↔ (flow, id) ∈ s.registered
  kept : ∀ e∈s.releasedIdKeeper, s.clock<e.outTime → e.data∈s.releasedIdCatch
  keys : (s.requestUuidKeeper.map fun e => e.data.1).Nodup
  young : ∀ c∈s.created, c.time ≤ s.clock
  holds : ∀ c∈s.created, s.clock<c.time+60000 → s.Holds c
  remembers : ∀ c∈s.created, s.clock<c.time+60000 → s.Remembers c

theorem inv_create (invalidDomain : List Byte) (acceptors : List (List Byte)) :
    (create invalidDomain acceptors).Inv where
  nodup := by simp [create,ids]
  below := by simp [create,ids]
  valid := by simp [create]
  flows := by simp [create]
  kept := by simp [create]
  keys := by simp [create]
  young := by simp [create]
  holds := by simp [create]
  remembers := by simp [create]

variable {s} {now : ℕ}

theorem Inv.tick (h : s.Inv) (hnow : s.clock≤now) : ({ s with clock := now } : SharedUdpLayer).Inv :=
  { h with
    kept := fun e he hlt => h.kept e he (by dsimp only at hlt; omega)
    young := fun c hc => (h.young c hc).trans hnow
    holds := fun c hc hlt => h.holds c hc (by dsimp only at hlt; omega)
    remembers := fun c hc hlt => h.remembers c hc (by dsimp only at hlt; omega) }

theorem Inv.clear (h : s.Inv) :
    ({ s with releasedIdKeeper := clearTimeout releasedIds s.clock s.releasedIdKeeper } :
      SharedUdpLayer).Inv :=
  { h with
    kept := fun e he hlt => h.kept e (mem_clearTimeout.mp he).1 hlt
    holds := by
      intro c hc hlt
      rcases h.holds c hc hlt with hreg | ⟨hcatch,e,he,hdata,hout⟩
      · exact .inl hreg
      · have hlt' : s.clock<c.time+60000 := hlt
        exact .inr ⟨hcatch,e,mem_clearTimeout.mpr ⟨he,by omega⟩,hdata,hout⟩ }

theorem isKeeped_iff {now id : ℕ} :
    s.isKeeped now id = true ↔ ∃ e∈s.releasedIdKeeper, now<e.outTime ∧ e.data=id := by
  simp [isKeeped]

theorem Inv.releaseId (h : s.Inv) {id : ℕ} {rest : List ℕ}
    (hcatch : s.releasedIdCatch = id :: rest) (hfree : ¬ s.isKeeped s.clock id = true) :
    ({ s with
      releasedIdCatch := rest
      idAllocator := s.idAllocator.releaseId id } : SharedUdpLayer).Inv := by
  have hmem : id∈s.ids := by simp [ids,hcatch]
  have hn := h.nodup
  rw [ids,hcatch] at hn
  have hnew : id ∉ s.idAllocator.availIdSet := by
    intro hin
    have := (nodup_append.mp (nodup_append.mp hn).2.1).2.2 id (by simp) id hin
    exact this rfl
  have hrel : s.idAllocator.releaseId id =
      { s.idAllocator with availIdSet := s.idAllocator.availIdSet ++ [id] } := by
    rw [LocalIdAllocator.releaseId,if_pos ⟨h.below id hmem,hnew⟩]
  have hperm : (s.registered.map Prod.snd ++ (rest ++ (s.idAllocator.availIdSet ++ [id]))).Perm
      (s.registered.map Prod.snd ++ (id :: rest ++ s.idAllocator.availIdSet)) := by
    refine List.Perm.append_left _ ?_
    rw [← append_assoc]
    exact perm_append_singleton id _
  rw [hrel]
  have hsub : ∀ e∈s.releasedIdKeeper, s.clock<e.outTime → e.data≠id := fun e he hlt heq =>
    hfree (isKeeped_iff.mpr ⟨e,he,hlt,heq⟩)
  refine { h with nodup := hperm.nodup_iff.mpr hn, below := ?_, kept := ?_, holds := ?_ }
  · intro x hx
    have hx' := hperm.mem_iff.mp hx
    rw [← hcatch] at hx'
    exact h.below x hx'
  · intro e he hlt
    have hin := h.kept e he hlt
    rw [hcatch] at hin
    exact (mem_cons.mp hin).resolve_left (hsub e he hlt)
  · intro c hc hlt
    rcases h.holds c hc hlt with hreg | ⟨hin,e,he,hdata,hout⟩
    · exact .inl hreg
    · have hlt' : s.clock<c.time+60000 := hlt
      rw [hcatch] at hin
      have hne : c.flowId≠id := hdata ▸ hsub e he (by omega)
      exact .inr ⟨(mem_cons.mp hin).resolve_left hne,e,he,hdata,hout⟩

theorem Inv.releaseLoop (h : s.Inv) (waiting : List ℕ)
    (hcatch : s.releasedIdCatch=waiting) : (releaseLoop s.clock waiting s).Inv := by
  induction waiting generalizing s with
  | nil =>
    have hs : ({ s with releasedIdCatch := [] } : SharedUdpLayer) = s := by rw [← hcatch]
    rw [releaseLoop,hs]
    exact h
  | cons id rest ih =>
    rw [releaseLoop]
    split_ifs with hk
    · have hs : ({ s with releasedIdCatch := id :: rest } : SharedUdpLayer) = s := by rw [← hcatch]
      rw [hs]
      exact h
    · exact ih (h.releaseId hcatch hk) rfl

structure SameTables (s t : SharedUdpLayer) : Prop where
  acceptors : t.acceptors=s.acceptors
  flows : t.flows=s.flows
  registered : t.registered=s.registered
  created : t.created=s.created
  requestUuidKeeper : t.requestUuidKeeper=s.requestUuidKeeper
  releasedIdKeeper : t.releasedIdKeeper=s.releasedIdKeeper
  nextFlow : t.nextFlow=s.nextFlow
  clock : t.clock=s.clock

theorem sameTables_releaseLoop (now : ℕ) (waiting : List ℕ) (s : SharedUdpLayer) :
    SameTables s (releaseLoop now waiting s) := by
  induction waiting generalizing s with
  | nil => exact ⟨rfl,rfl,rfl,rfl,rfl,rfl,rfl,rfl⟩
  | cons id rest ih =>
    rw [releaseLoop]
    split_ifs
    · exact ⟨rfl,rfl,rfl,rfl,rfl,rfl,rfl,rfl⟩
    · obtain ⟨h1,h2,h3,h4,h5,h6,h7,h8⟩ := ih { s with
        releasedIdCatch := rest
        idAllocator := s.idAllocator.releaseId id }
      exact ⟨h1,h2,h3,h4,h5,h6,h7,h8⟩

theorem Inv.swept (h : s.Inv) (hnow : s.clock≤now) : (s.swept now).Inv :=
  (h.tick hnow).clear.releaseLoop s.releasedIdCatch rfl

theorem Inv.allocId (h : s.Inv) : s.idAllocator.allocId.2 ∉ s.registered.map Prod.snd ∧
      s.idAllocator.allocId.2 ∉ s.releasedIdCatch ∧
      (s.registered.map Prod.snd ++ (s.releasedIdCatch++s.idAllocator.allocId.1.availIdSet)).Nodup ∧
      s.idAllocator.allocId.2 ∉ s.idAllocator.allocId.1.availIdSet ∧
      s.idAllocator.allocId.2 < s.idAllocator.allocId.1.tailId ∧
      s.idAllocator.tailId ≤ s.idAllocator.allocId.1.tailId ∧
      s.idAllocator.allocId.1.availIdSet ⊆ s.idAllocator.availIdSet := by
  have hn := h.nodup
  rw [ids] at hn
  rcases s.idAllocator.allocId_cases with ⟨id,rest,havail,halloc⟩ | halloc
  · rw [halloc]
    rw [havail,← append_assoc] at hn
    have hmid := (nodup_middle.mp hn)
    have hnot : id ∉ s.registered.map Prod.snd ++ s.releasedIdCatch ++ rest :=
      (nodup_cons.mp hmid).1
    simp only [mem_append,not_or] at hnot
    refine ⟨hnot.1.1,hnot.1.2,?_,hnot.2,h.below id (by simp [ids,havail]),Nat.le_refl _,?_⟩
    · rw [← append_assoc]
      exact (nodup_cons.mp hmid).2
    · rw [havail]
      exact subset_cons_self id rest
  · rw [halloc]
    have hnot : ∀ x∈s.ids, x≠s.idAllocator.tailId := fun x hx => Nat.ne_of_lt (h.below x hx)
    refine ⟨fun hin => hnot _ (by simp [ids,hin]) rfl,fun hin => hnot _ (by simp [ids,hin]) rfl,hn,
      fun hin => hnot _ (by simp [ids,hin]) rfl,Nat.lt_succ_self _,Nat.le_succ _,fun x hx => hx⟩

theorem Inv.registerFlow {s t : SharedUdpLayer} (h : s.Inv) {now flow id : ℕ} (hnow : s.clock≤now)
    (ht : s.registerFlow now = some (t, flow, id)) :
    t.Inv ∧ (flow, id) ∈ t.registered ∧ t.clock=now ∧ id < invalidFlowId ∧
      t.created = s.created ∧ t.requestUuidKeeper=s.requestUuidKeeper := by
  have hs := h.swept hnow
  obtain ⟨-,-,-,hcreated,hkeeper,-,-,hclock⟩ := sameTables_releaseLoop now s.releasedIdCatch
    { s with clock := now, releasedIdKeeper := clearTimeout releasedIds now s.releasedIdKeeper }
  obtain ⟨hreg,hcatch,hnodup,havail,htail,hle,hsub⟩ := hs.allocId
  unfold SharedUdpLayer.registerFlow at ht
  dsimp only at ht
  split_ifs at ht with hid
  obtain ⟨rfl,rfl,rfl⟩ : _ ∧ _ ∧ _ := by simpa using ht
  refine ⟨?_,mem_cons_self,hclock,Nat.lt_of_not_le hid,hcreated,hkeeper⟩
  constructor
  case nodup =>
    refine nodup_cons.mpr ⟨fun hin => ?_,hnodup⟩
    rcases mem_append.mp hin with hin | hin
    · exact hreg hin
    · exact (mem_append.mp hin).elim hcatch havail
  case below =>
    intro x hx
    rcases mem_cons.mp hx with rfl | hx
    · exact htail
    · refine Nat.lt_of_lt_of_le (hs.below x ?_) hle
      rcases mem_append.mp hx with hx | hx
      · exact mem_append_left _ hx
      · refine mem_append_right _ (mem_append.mpr ?_)
        exact (mem_append.mp hx).imp id fun hx => hsub hx
  case valid =>
    intro r hr
    rcases mem_cons.mp hr with rfl | hr
    · exact Nat.lt_of_not_le hid
    · exact hs.valid r hr
  case flows =>
    intro x f
    dsimp only
    by_cases hx : x = (s.swept now).idAllocator.allocId.2
    · subst hx
      have hno : (f, (s.swept now).idAllocator.allocId.2) ∉ (s.swept now).registered := fun hin =>
        hreg (mem_map.mpr ⟨_,hin,rfl⟩)
      simp only [Function.update_self,Option.some.injEq,mem_cons,Prod.mk.injEq,and_true,hno,
        or_false]
      exact eq_comm
    · rw [Function.update_of_ne hx,hs.flows]
      simp [hx]
  case kept => exact hs.kept
  case keys => exact hs.keys
  case young => exact hs.young
  case holds =>
    intro c hc hlt
    exact (hs.holds c hc hlt).imp (mem_cons_of_mem _) id
  case remembers => exact hs.remembers

theorem Inv.unregister (h : s.Inv) {flow id : ℕ}
    (hmem : (flow, id) ∈ s.registered) :
    ({ s with
      registered := s.registered.erase (flow, id)
      flows := Function.update s.flows id none
      releasedIdCatch := s.releasedIdCatch ++ [id]
      releasedIdKeeper :=
        (tryKeep releasedIds s.clock 64000 id s.releasedIdKeeper).1 } : SharedUdpLayer).Inv := by
  have hperm : ((s.registered.erase (flow, id)).map Prod.snd ++
      (s.releasedIdCatch ++ [id] ++ s.idAllocator.availIdSet)).Perm s.ids := by
    have hout : ((s.registered.erase (flow, id)).map Prod.snd ++
        (s.releasedIdCatch ++ [id] ++ s.idAllocator.availIdSet)) =
        (s.registered.erase (flow, id)).map Prod.snd ++ s.releasedIdCatch ++
          id :: s.idAllocator.availIdSet := by simp
    have hin : (id :: (s.registered.erase (flow, id)).map Prod.snd).Perm
        (s.registered.map Prod.snd) := ((perm_cons_erase hmem).map Prod.snd).symm
    rw [hout,ids,← append_assoc]
    exact perm_middle.trans ((hin.append_right _).append_right _)
  have hn := hperm.nodup_iff.mpr h.nodup
  have hgone : id ∉ (s.registered.erase (flow, id)).map Prod.snd := fun hin =>
    (nodup_append.mp hn).2.2 id hin id (by simp) rfl
  have hreg : id ∈ s.registered.map Prod.snd := mem_map.mpr ⟨_,hmem,rfl⟩
  have hnotWaiting : id ∉ s.releasedIdCatch := fun hin =>
    (nodup_append.mp h.nodup).2.2 id hreg id (mem_append_left _ hin) rfl
  -- the keeper has forgotten the id since it was released the last time
  have hkeep : tryKeep releasedIds s.clock 64000 id s.releasedIdKeeper =
      (⟨id,s.clock+64000⟩ :: clearTimeout releasedIds s.clock s.releasedIdKeeper, true) :=
    tryKeep_of_absent fun e he hlt (heq : e.data=id) => hnotWaiting (heq ▸ h.kept e he hlt)
  rw [hkeep]
  constructor
  case nodup => exact hn
  case below => exact fun x hx => h.below x (hperm.mem_iff.mp hx)
  case valid => exact fun r hr => h.valid r (mem_of_mem_erase hr)
  case flows =>
    intro x f
    dsimp only
    by_cases hx : x=id
    · subst hx
      rw [Function.update_self]
      exact iff_of_false nofun fun hin => hgone (mem_map.mpr ⟨_,hin,rfl⟩)
    · have hne : (f, x) ≠ (flow, id) := fun heq => hx (Prod.mk.inj heq).2
      rw [Function.update_of_ne hx,h.flows,mem_erase_of_ne hne]
  case kept =>
    intro e he hlt
    rcases mem_cons.mp he with rfl | he
    · exact mem_append_right _ (mem_singleton.mpr rfl)
    · exact mem_append_left _ (h.kept e (mem_clearTimeout.mp he).1 hlt)
  case keys => exact h.keys
  case young => exact h.young
  case holds =>
    intro c hc hlt
    have hyoung := h.young c hc
    rcases h.holds c hc hlt with hin | ⟨hin,e,he,hdata,hout⟩
    · by_cases heq : (c.flow, c.flowId) = (flow, id)
      · obtain rfl : c.flowId=id := (Prod.mk.inj heq).2
        exact .inr ⟨by simp,_,mem_cons_self,rfl,by dsimp only; omega⟩
      · exact .inl ((mem_erase_of_ne heq).mpr hin)
    · have hlt' : s.clock<c.time+60000 := hlt
      exact .inr ⟨mem_append_left _ hin,e,
        mem_cons_of_mem _ (mem_clearTimeout.mpr ⟨he,by omega⟩),hdata,hout⟩
  case remembers => exact h.remembers

theorem Inv.unregisterFlow (h : s.Inv) (hnow : s.clock≤now)
    (flow id : ℕ) : (s.unregisterFlow now flow id).Inv := by
  unfold SharedUdpLayer.unregisterFlow
  split_ifs with hmem
  · exact ((h.tick hnow).unregister hmem).releaseLoop _ rfl
  · exact h

theorem Inv.find (h : s.Inv) {c : Creation} (hc : c∈s.created)
    (hnow : s.clock≤now) (hlt : now<c.time+60000) :
    TimedKeepers.find requestUuids now c.uuid s.requestUuidKeeper =
      some (c.uuid, c.flowId) := by
  obtain ⟨e,he,hdata,hout⟩ := h.remembers c hc (by omega)
  have hf : TimedKeepers.find requestUuids now e.data.1 s.requestUuidKeeper =
      some e.data := find_of_mem h.keys he (by omega)
  rw [hdata] at hf
  exact hf

theorem Inv.verdictFor (h : s.Inv) {c : Creation} (hc : c∈s.created) (hlt : s.clock<c.time+60000) :
    s.verdictFor .connect c.flowId =
      if (c.flow, c.flowId) ∈ s.registered then .delivered c.flow else .refused := by
  unfold SharedUdpLayer.verdictFor
  by_cases hreg : (c.flow, c.flowId) ∈ s.registered
  · have hv : c.flowId≠invalidFlowId := Nat.ne_of_lt (h.valid _ hreg)
    rw [if_pos hv,(h.flows _ _).mpr hreg,if_pos hreg]
  · have hnone : s.flows c.flowId = none := by
      cases hf : s.flows c.flowId with
      | none => rfl
      | some f =>
        have hin := (h.flows _ _).mp hf
        obtain ⟨hwait,-⟩ := (h.holds c hc hlt).resolve_left hreg
        exact absurd rfl ((nodup_append.mp h.nodup).2.2 c.flowId
          (mem_map.mpr ⟨_,hin,rfl⟩) c.flowId (mem_append_left _ hwait))
    rw [hnone,ite_self,if_neg hreg]
    rfl

theorem Inv.request (h : s.Inv) {now keepNow : ℕ} (hnow : s.clock≤now)
    (hkeep : now≤keepNow) (uuid : RequestUuid) : (s.request now keepNow uuid).1.Inv := by
  unfold SharedUdpLayer.request
  split
  · exact h.tick hnow
  · rename_i hnone
    split
    · exact h.tick hnow
    · rename_i t flow id ht
      obtain ⟨hinv,hmem,hclock,-,-,hsame⟩ := h.registerFlow hnow ht
      have hinv' : ({ t with clock := keepNow } : SharedUdpLayer).Inv := hinv.tick (by omega)
      have habsent : ∀ e∈t.requestUuidKeeper, keepNow<e.outTime → e.data.1≠uuid := by
        rw [hsame]
        exact fun e he hlt => find_eq_none.mp hnone e he (by omega)
      have hnew : tryKeep requestUuids keepNow 60000 (uuid, id) t.requestUuidKeeper =
          (⟨(uuid, id),keepNow+60000⟩ :: clearTimeout requestUuids keepNow t.requestUuidKeeper, true) :=
        tryKeep_of_absent habsent
      refine { hinv' with keys := ?_, young := ?_, holds := ?_, remembers := ?_ }
      · exact nodup_tryKeep (c := requestUuids) hinv'.keys 60000 (uuid, id)
      · intro c hc
        rcases mem_cons.mp hc with rfl | hc
        · exact hkeep
        · exact hinv'.young c hc
      · intro c hc hlt
        rcases mem_cons.mp hc with rfl | hc
        · exact .inl hmem
        · exact hinv'.holds c hc hlt
      · intro c hc hlt
        rw [hnew]
        rcases mem_cons.mp hc with rfl | hc
        · exact ⟨_,mem_cons_self,rfl,by dsimp only; omega⟩
        · obtain ⟨e,he,hdata,hout⟩ := hinv'.remembers c hc hlt
          have hlt' : keepNow<c.time+60000 := hlt
          exact ⟨e,mem_cons_of_mem _ (mem_clearTimeout.mpr ⟨he,by omega⟩),hdata,hout⟩

/-- The clock never goes back, and fewer than `INVALID_FLOWID` ids have come into use. -/
def Timely (s : SharedUdpLayer) (e : LayerEvent) : Prop :=
  s.idAllocator.tailId < invalidFlowId ∧
    match e with
    | .register now => s.clock ≤ now
    | .unregister now _ _ => s.clock ≤ now
    | .received now keepNow _ _ => s.clock ≤ now ∧ now≤keepNow

instance (s : SharedUdpLayer) (e : LayerEvent) : Decidable (s.Timely e) := by
  unfold Timely
  cases e <;> exact inferInstanceAs (Decidable (_ ∧ _))

theorem Inv.doHandleReceived (h : s.Inv) {now keepNow : ℕ}
    (hnow : s.clock≤now) (hkeep : now≤keepNow) (buffer : List Byte) (sender : Endpoint) :
    (s.doHandleReceived now keepNow buffer sender).1.Inv := by
  unfold SharedUdpLayer.doHandleReceived SharedUdpLayer.doHandleReceivedUrdpMsg
  dsimp only
  split_ifs
  · exact h.tick hnow
  · exact h.request hnow hkeep _
  · exact { h.tick hnow with }
  · exact h.tick hnow

theorem Inv.step (s : SharedUdpLayer) (e : LayerEvent) (ht : s.Timely e) (h : s.Inv) :
    (s.step e).Inv := by
  cases e with
  | register now =>
    rw [SharedUdpLayer.step]
    split
    · exact h.tick ht.2
    · rename_i hreg
      exact (h.registerFlow ht.2 hreg).1
  | unregister now flow id => exact h.unregisterFlow ht.2 flow id
  | received now keepNow buffer sender => exact h.doHandleReceived ht.2.1 ht.2.2 buffer sender

end SharedUdpLayer
end P2Streaming.Urdp
