import P2Streaming.DispatchWatch

/-!
# Text broadcasts on their way to the player

A text packet is kept in the map of the player like any other packet, and in a map of its own
besides. Both are dispatched, and the test in `dispatch` that should leave the first one out
decides nothing, so a text packet that enters both maps reaches the player twice. One that
enters a single map reaches it once at most.
-/
namespace P2Streaming
open WrappableInteger BoundedLoops SerialMaps TransitionRuns MediaDispatcher List

def MediaPacket.IsText (p : MediaPacket) : Prop :=
  p.level = .userLevel ∧ p.channelId=txtBroadcastChannel

instance (p : MediaPacket) : Decidable p.IsText := inferInstanceAs (Decidable (_ ∧ _))

def textNumbers (pkts : List MediaPacket) : List (BitVec 32) :=
  (pkts.filter (·.IsText)).map MediaPacket.seqno

@[simp] theorem textNumbers_nil : textNumbers [] = [] := rfl

@[simp] theorem textNumbers_append (a b : List MediaPacket) :
    textNumbers (a++b) = textNumbers a ++ textNumbers b := by
  simp [textNumbers]

theorem textNumbers_cons (p : MediaPacket) (l : List MediaPacket) :
    textNumbers (p::l) = textNumbers [p] ++ textNumbers l := textNumbers_append [p] l

theorem textNumbers_singleton {p : MediaPacket} (h : p.IsText) : textNumbers [p] = [p.seqno] := by
  simp [textNumbers,h]

theorem textNumbers_singleton_of_not {p : MediaPacket} (h : ¬ p.IsText) : textNumbers [p] = [] := by
  simp [textNumbers,h]

theorem textNumbers_of_forall {l : List MediaPacket} (h : ∀ p∈l, p.IsText) :
    textNumbers l = l.map MediaPacket.seqno := by
  rw [textNumbers,filter_eq_self.mpr (by simpa using h)]

theorem textNumbers_insert (p : MediaPacket) (l : List MediaPacket) :
    textNumbers (SerialMaps.insert MediaPacket.seqno p l) = textNumbers l ∨
      (textNumbers (SerialMaps.insert MediaPacket.seqno p l)).Perm
        (textNumbers [p] ++ textNumbers l) := by
  rcases SerialMaps.insert_perm MediaPacket.seqno p l with h | h
  · exact .inl (congrArg textNumbers h)
  · right
    rw [← textNumbers_cons]
    exact (h.filter _).map _

/-! The books: no number is listed twice, and every number listed has come. -/

structure Booked (came numbers : List (BitVec 32)) : Prop where
  nodup : numbers.Nodup
  known : numbers ⊆ came

namespace Booked

variable {came came' numbers numbers' : List (BitVec 32)}

theorem perm (h : Booked came numbers) (hp : numbers'.Perm numbers) : Booked came numbers' :=
  ⟨hp.nodup_iff.mpr h.nodup,fun _ hs => h.known (hp.mem_iff.mp hs)⟩

theorem mono (h : Booked came numbers) (hc : came ⊆ came') : Booked came' numbers :=
  ⟨h.nodup,fun _ hs => hc (h.known hs)⟩

theorem cons {s : BitVec 32} (h : Booked came numbers) (hs : s ∉ came) :
    Booked (came ++ [s]) (s::numbers) := by
  refine ⟨nodup_cons.mpr ⟨fun hm => hs (h.known hm),h.nodup⟩,fun x hx => ?_⟩
  rcases mem_cons.mp hx with rfl | hx
  · simp
  · exact mem_append_left _ (h.known hx)

end Booked

namespace MediaDispatcher

variable {n : ℕ} {cfg : DispatchConfig}

/-- The map of the player takes numbers that are not below its cursor. -/
def takesForPlayer (d : MediaDispatcher n) (seqno : BitVec 32) : Bool :=
  wrappableGreaterEqual seqno d.smallestSeqnoICare

/-- The map of the text broadcasts takes numbers above its cursor. -/
def takesAsText (cursor : Option (BitVec 32)) (seqno : BitVec 32) : Bool :=
  cursor.all fun s => wrappableLess s seqno

/-- The cursor of the text broadcasts once the text loop of an event is through. -/
def textCursor (d : MediaDispatcher n) (e : Event n) : Option (BitVec 32) :=
  ((textLoop d e).getLast?.map MediaPacket.seqno).or d.smallestTxtSeqnoICare

/-- `reset` and then `set_smallest_seqno_i_care`, with new records. -/
def resetTo (d : MediaDispatcher n) (seq : BitVec 32) : MediaDispatcher n :=
  { d with
    mediaPktToPlayerCache := []
    fecMediaPktCache := []
    txtPktCache := []
    isPlayerStarted := false
    smallestSeqnoICare := seq
    smallestTxtSeqnoICare := none
    dispatched := []
    recoveries := []
    calls := [] }

section Receipt
variable (d : MediaDispatcher n) (pkt : MediaPacket)

theorem keepForPlayer_texts : (d.keepForPlayer pkt).txtPktCache = d.txtPktCache ∧
    (d.keepForPlayer pkt).smallestTxtSeqnoICare = d.smallestTxtSeqnoICare := by
  unfold keepForPlayer
  split_ifs <;> exact ⟨rfl,rfl⟩

theorem doProcess_texts_of_not (h : ¬ (pkt.IsText ∧ takesAsText d.smallestTxtSeqnoICare pkt.seqno =
    true)) : (d.doProcessRecvdMediaPacket pkt).txtPktCache = d.txtPktCache ∧
      (d.doProcessRecvdMediaPacket pkt).smallestTxtSeqnoICare = d.smallestTxtSeqnoICare := by
  obtain ⟨htxt,hcursor⟩ := d.keepForPlayer_texts pkt
  unfold doProcessRecvdMediaPacket
  dsimp only
  rw [hcursor]
  have hno : ¬ (pkt.level = .userLevel ∧ pkt.channelId=txtBroadcastChannel ∧
      (d.smallestTxtSeqnoICare.all fun s => wrappableLess s pkt.seqno) = true) :=
    fun ⟨hl,hc,ht⟩ => h ⟨⟨hl,hc⟩,ht⟩
  split_ifs
  · exact ⟨htxt,rfl⟩
  · exact ⟨htxt,hcursor⟩

theorem doProcess_texts (ht : pkt.IsText) (h : takesAsText d.smallestTxtSeqnoICare pkt.seqno = true) :
    (d.doProcessRecvdMediaPacket pkt).txtPktCache =
        SerialMaps.insert MediaPacket.seqno pkt d.txtPktCache ∧
      (d.doProcessRecvdMediaPacket pkt).smallestTxtSeqnoICare =
        some (d.smallestTxtSeqnoICare.getD pkt.seqno) := by
  obtain ⟨htxt,hcursor⟩ := d.keepForPlayer_texts pkt
  unfold doProcessRecvdMediaPacket
  dsimp only
  rw [hcursor,if_pos ⟨ht.1,ht.2,h⟩,htxt]
  exact ⟨rfl,rfl⟩

theorem doProcess_media : (d.doProcessRecvdMediaPacket pkt).mediaPktToPlayerCache =
    if d.takesForPlayer pkt.seqno then SerialMaps.insert MediaPacket.seqno pkt d.mediaPktToPlayerCache
    else d.mediaPktToPlayerCache :=
  (d.doProcess_cache pkt).trans (d.keepForPlayer_cache pkt)

end Receipt

end MediaDispatcher

namespace DispatchWatch

variable {n : ℕ} {cfg : DispatchConfig} (w : DispatchWatch n)

/-- The numbers of the text broadcasts: those handed to the player and those that wait in either
map. -/
def numbers : List (BitVec 32) :=
  textNumbers w.pushes ++ (w.d.txtPktCache.map MediaPacket.seqno ++
    textNumbers w.d.mediaPktToPlayerCache)

/-- A text broadcast that comes for the first time enters one map at most. One that comes again
enters none: it is not above the cursor of a map unless it still waits there. -/
def OneWay (seqno : BitVec 32) : Prop :=
  if (textNumbers w.came).contains seqno then
    (takesAsText w.d.smallestTxtSeqnoICare seqno = true →
      seqno ∈ w.d.txtPktCache.map MediaPacket.seqno) ∧
    (w.d.takesForPlayer seqno = true → seqno ∈ w.d.mediaPktToPlayerCache.map MediaPacket.seqno)
  else
    ¬ (takesAsText w.d.smallestTxtSeqnoICare seqno = true ∧ w.d.takesForPlayer seqno = true)

instance (seqno : BitVec 32) : Decidable (w.OneWay seqno) :=
  inferInstanceAs (Decidable (ite _ _ _))

/-- A recovered text broadcast comes for the first time and is not above the cursor of the text
map. -/
def RecoveredOneWay (came : List MediaPacket) (cursor : Option (BitVec 32)) (rs : List Recovery) :
    Prop :=
  (∀ r∈rs, r.Harmless) ∧ (textNumbers (rs.map Recovery.pkt)).Nodup ∧
    ∀ r∈rs, r.pkt.IsText →
      r.pkt.seqno ∉ textNumbers came ∧ takesAsText cursor r.pkt.seqno = false

instance (came : List MediaPacket) (cursor : Option (BitVec 32)) (rs : List Recovery) :
    Decidable (RecoveredOneWay came cursor rs) :=
  inferInstanceAs (Decidable (_ ∧ _ ∧ _))

/-- Every text broadcast comes one way, numbers in use lie within half the ring, and recoveries
are harmless. -/
def Orderly (cfg : DispatchConfig) (w : DispatchWatch n) (e : Event n) : Prop :=
  w.d.Given e ∧ (∀ pkt ∈ received e, pkt.IsText → w.OneWay pkt.seqno) ∧
    RecoveredOneWay w.came (textCursor w.d e) (recovered cfg w.d e)

instance (cfg : DispatchConfig) (w : DispatchWatch n) (e : Event n) :
    Decidable (Orderly cfg w e) :=
  inferInstanceAs (Decidable (_ ∧ _ ∧ _))

/-- The text map is a map, as far as the modular order goes: its cursor is below all of it. -/
def TextWindow (d : MediaDispatcher n) : Prop :=
  d.txtPktCache=[] ∨
    ∃ c, d.smallestTxtSeqnoICare = some c ∧ Window MediaPacket.seqno c (2^31) d.txtPktCache

structure Single (w : DispatchWatch n) : Prop where
  harmless : ∀ r∈w.d.recoveries, r.Harmless
  sound : Sound w.d
  texts : ∀ p∈w.d.txtPktCache, p.IsText
  window : TextWindow w.d
  booked : Booked (textNumbers w.came) w.numbers

/-! A packet that comes in. -/

theorem TextWindow.doProcess {d : MediaDispatcher n} (h : TextWindow d) (pkt : MediaPacket) :
    TextWindow (d.doProcessRecvdMediaPacket pkt) := by
  by_cases htakes : pkt.IsText ∧ takesAsText d.smallestTxtSeqnoICare pkt.seqno = true
  · obtain ⟨htxt,hcursor⟩ := d.doProcess_texts pkt htakes.1 htakes.2
    right
    refine ⟨_,hcursor,?_⟩
    rw [htxt]
    have hahead : ahead (d.smallestTxtSeqnoICare.getD pkt.seqno) pkt.seqno < 2^31 := by
      cases hc : d.smallestTxtSeqnoICare with
      | none => simp
      | some c =>
        have hless : wrappableLess c pkt.seqno = true := by simpa [takesAsText,hc] using htakes.2
        rw [wrappableLess_iff (w := 31)] at hless
        simp only [Option.getD_some,ahead]
        bv_omega
    have hwindow : Window MediaPacket.seqno (d.smallestTxtSeqnoICare.getD pkt.seqno) (2^31)
        d.txtPktCache := by
      rcases h with hnil | ⟨c,hc,hw⟩
      · rw [hnil]
        exact .nil
      · rw [hc]
        exact hw
    exact hwindow.insert (Nat.le_refl _) hahead
  · obtain ⟨htxt,hcursor⟩ := d.doProcess_texts_of_not pkt htakes
    rcases h with hnil | ⟨c,hc,hw⟩
    · exact .inl (htxt.trans hnil)
    · exact .inr ⟨c,hcursor.trans hc,htxt ▸ hw⟩

theorem textNumbers_doProcess_media (d : MediaDispatcher n) (pkt : MediaPacket) :
    textNumbers (d.doProcessRecvdMediaPacket pkt).mediaPktToPlayerCache =
        textNumbers d.mediaPktToPlayerCache ∨
      d.takesForPlayer pkt.seqno = true ∧
        (textNumbers (d.doProcessRecvdMediaPacket pkt).mediaPktToPlayerCache).Perm
          (textNumbers [pkt] ++ textNumbers d.mediaPktToPlayerCache) := by
  rw [doProcess_media]
  split_ifs with htakes
  · exact (textNumbers_insert pkt _).imp_right fun h => ⟨htakes,h⟩
  · exact .inl rfl

theorem doProcess_txt_cases (d : MediaDispatcher n) (pkt : MediaPacket) :
    (d.doProcessRecvdMediaPacket pkt).txtPktCache = d.txtPktCache ∨
      (pkt.IsText ∧ takesAsText d.smallestTxtSeqnoICare pkt.seqno = true ∧
        (d.doProcessRecvdMediaPacket pkt).txtPktCache.Perm (pkt::d.txtPktCache)) := by
  by_cases htakes : pkt.IsText ∧ takesAsText d.smallestTxtSeqnoICare pkt.seqno = true
  · rw [(d.doProcess_texts pkt htakes.1 htakes.2).1]
    exact (SerialMaps.insert_perm _ _ _).imp_right fun h => ⟨htakes.1,htakes.2,h⟩
  · exact .inl (d.doProcess_texts_of_not pkt htakes).1

variable {w}

theorem Single.doProcess_repeated (h : Single w) {pkt : MediaPacket} (ht : pkt.IsText)
    (htext : takesAsText w.d.smallestTxtSeqnoICare pkt.seqno = true →
      pkt.seqno ∈ w.d.txtPktCache.map MediaPacket.seqno) (hmedia : w.d.takesForPlayer pkt.seqno = true →
      pkt.seqno ∈ w.d.mediaPktToPlayerCache.map MediaPacket.seqno) :
    (w.d.doProcessRecvdMediaPacket pkt).txtPktCache = w.d.txtPktCache ∧
      (w.d.doProcessRecvdMediaPacket pkt).mediaPktToPlayerCache = w.d.mediaPktToPlayerCache := by
  constructor
  · by_cases htakes : takesAsText w.d.smallestTxtSeqnoICare pkt.seqno = true
    · rw [(w.d.doProcess_texts pkt ht htakes).1]
      rcases h.window with hnil | ⟨c,-,hw⟩
      · rw [hnil] at htext
        exact absurd (htext htakes) (not_mem_nil)
      · exact hw.insert_of_mem_key (Nat.le_refl _) (htext htakes)
    · exact (w.d.doProcess_texts_of_not pkt fun hh => htakes hh.2).1
  · rw [doProcess_media]
    split_ifs with htakes
    · exact h.sound.window.insert_of_mem_key (by decide) (hmedia htakes)
    · rfl

theorem Single.booked_doProcess (h : Single w) {pkt : MediaPacket}
    (hone : pkt.IsText → w.OneWay pkt.seqno) : Booked (textNumbers w.came ++ textNumbers [pkt])
      (textNumbers w.pushes ++
        ((w.d.doProcessRecvdMediaPacket pkt).txtPktCache.map MediaPacket.seqno ++
          textNumbers (w.d.doProcessRecvdMediaPacket pkt).mediaPktToPlayerCache)) := by
  by_cases ht : pkt.IsText
  · rw [textNumbers_singleton ht]
    have hway := hone ht
    unfold OneWay at hway
    split_ifs at hway with hcame
    · obtain ⟨htxt,hmedia⟩ := h.doProcess_repeated ht hway.1 hway.2
      rw [htxt,hmedia]
      exact h.booked.mono (subset_append_left _ _)
    -- It comes for the first time and so is in no list.
    · have hnew := h.booked.cons (mt contains_iff_mem.mpr hcame)
      have hmedia := textNumbers_doProcess_media w.d pkt
      rw [textNumbers_singleton ht] at hmedia
      rcases doProcess_txt_cases w.d pkt with htxt | ⟨-,htakes,htxt⟩
      · rw [htxt]
        rcases hmedia with hsame | ⟨-,hperm⟩
        · rw [hsame]
          exact h.booked.mono (subset_append_left _ _)
        · refine hnew.perm ((((hperm.append_left _).append_left _)).trans ?_)
          unfold numbers
          rw [perm_iff_count]
          intro a
          simp only [count_append,count_cons,count_nil]
          omega
      · have hsame := hmedia.resolve_right fun hh => hway ⟨htakes,hh.1⟩
        rw [hsame]
        refine hnew.perm (((((htxt.map MediaPacket.seqno).append_right _)).append_left _).trans ?_)
        unfold numbers
        rw [perm_iff_count]
        intro a
        simp only [map_cons,count_append,count_cons]
        omega
  · rw [textNumbers_singleton_of_not ht,append_nil]
    have htxt := (doProcess_txt_cases w.d pkt).resolve_right fun hh => ht hh.1
    rw [htxt]
    rcases textNumbers_doProcess_media w.d pkt with hsame | ⟨-,hperm⟩
    · rw [hsame]
      exact h.booked
    · rw [textNumbers_singleton_of_not ht,nil_append] at hperm
      exact h.booked.perm ((hperm.append_left _).append_left _)

/-! The media loops. -/

theorem RecoveredOneWay.of_append {came : List MediaPacket} {cursor : Option (BitVec 32)}
    {rs more : List Recovery} (h : RecoveredOneWay came cursor (rs++more)) :
    RecoveredOneWay came cursor rs := by
  obtain ⟨hharmless,hnodup,hnew⟩ := h
  rw [map_append,textNumbers_append] at hnodup
  exact ⟨fun x hx => hharmless x (mem_append_left _ hx),hnodup.of_append_left,
    fun x hx => hnew x (mem_append_left _ hx)⟩

section Loops
variable (came : List MediaPacket) (handed : List (BitVec 32)) (d₀ : MediaDispatcher n)

/-- What holds in a media loop that was entered in `d₀` after the numbers `handed` had been handed
to the player and the packets `came` had come, if the packets `rs` were recovered since. -/
structure Looping (d : MediaDispatcher n) (rs : List Recovery) : Prop where
  sound : Sound d
  texts : d.txtPktCache=d₀.txtPktCache
  cursor : d.smallestTxtSeqnoICare=d₀.smallestTxtSeqnoICare
  booked : ∃ pkts, d.dispatched = d₀.dispatched ++ pkts ∧
    Booked (textNumbers came ++ textNumbers (rs.map Recovery.pkt))
      (handed ++ textNumbers pkts ++ (d₀.txtPktCache.map MediaPacket.seqno ++
        textNumbers d.mediaPktToPlayerCache))

def KeptSingle (d : MediaDispatcher n) : Prop :=
  d.isPlayerStarted=true ∧ ∃ rs, d.recoveries = d₀.recoveries ++ rs ∧
    (RecoveredOneWay came d₀.smallestTxtSeqnoICare rs → Looping came handed d₀ d rs)

variable {came handed d₀} {d : MediaDispatcher n}

theorem Looping.push {rs : List Recovery}
    (h : Looping came handed d₀ d rs) (started : d.isPlayerStarted=true) {p : MediaPacket}
    {rest : List MediaPacket} (head : d.mediaPktToPlayerCache = p :: rest) :
    Looping came handed d₀ (d.push cfg p) rs := by
  have hsame : (d.push cfg p).txtPktCache = d.txtPktCache ∧
      (d.push cfg p).smallestTxtSeqnoICare = d.smallestTxtSeqnoICare := by
    unfold MediaDispatcher.push
    split_ifs <;> exact ⟨rfl,rfl⟩
  refine ⟨h.sound.push started head,hsame.1.trans h.texts,hsame.2.trans h.cursor,?_⟩
  obtain ⟨pkts,hpkts,hbooked⟩ := h.booked
  refine ⟨pkts ++ [p],by rw [push_dispatched,hpkts,append_assoc],hbooked.perm ?_⟩
  rw [push_cache,head,tail_cons,textNumbers_append,textNumbers_cons p rest,
    perm_iff_count]
  intro a
  simp only [count_append]
  omega

theorem Looping.recovered {rs : List Recovery}
    (h : Looping came handed d₀ d rs) (memory : PacketBuffer n) {pkt : MediaPacket}
    (hone : RecoveredOneWay came d₀.smallestTxtSeqnoICare (rs ++ [d.recoveryOf pkt])) :
    Looping came handed d₀ (d.recovered memory pkt) (rs ++ [d.recoveryOf pkt]) := by
  obtain ⟨hharmless,hnodup,hnew⟩ := hone
  have hmem : d.recoveryOf pkt ∈ rs ++ [d.recoveryOf pkt] := by simp
  have hrecovery : textNumbers ([d.recoveryOf pkt].map Recovery.pkt) = textNumbers [pkt] := rfl
  rw [map_append,textNumbers_append,hrecovery] at hnodup
  have hno : ¬ (pkt.IsText ∧ takesAsText d.smallestTxtSeqnoICare pkt.seqno = true) := by
    rintro ⟨ht,htakes⟩
    have : takesAsText d₀.smallestTxtSeqnoICare pkt.seqno = false := (hnew _ hmem ht).2
    rw [← h.cursor,htakes] at this
    cases this
  obtain ⟨htxt,hcursor⟩ := (d.noted memory pkt).doProcess_texts_of_not pkt hno
  refine ⟨h.sound.recovered memory (hharmless _ hmem),htxt.trans h.texts,hcursor.trans h.cursor,?_⟩
  obtain ⟨pkts,hpkts,hbooked⟩ := h.booked
  refine ⟨pkts,((doProcess_progress _ pkt).dispatched).trans hpkts,?_⟩
  rw [map_append,textNumbers_append,hrecovery,← append_assoc]
  rcases textNumbers_doProcess_media (d.noted memory pkt) pkt with hsame | ⟨-,hperm⟩
  · refine (hbooked.mono (subset_append_left _ _)).perm (.of_eq ?_)
    exact congrArg (fun l => _ ++ (_++l)) hsame
  by_cases ht : pkt.IsText
  · rw [textNumbers_singleton ht] at hnodup hperm ⊢
    have hfresh : pkt.seqno ∉ textNumbers came ++ textNumbers (rs.map Recovery.pkt) := by
      rw [mem_append,not_or]
      refine ⟨(hnew _ hmem ht).1,fun hm => ?_⟩
      exact (nodup_append.mp hnodup).2.2 _ hm _ (mem_singleton_self _) rfl
    refine (hbooked.cons hfresh).perm (((hperm.append_left _).append_left _).trans ?_)
    rw [perm_iff_count]
    intro a
    simp only [noted,count_append,count_cons,count_nil]
    omega
  · rw [textNumbers_singleton_of_not ht] at hperm ⊢
    rw [append_nil]
    exact hbooked.perm ((hperm.append_left _).append_left _)

theorem KeptSingle.fec {d d' : MediaDispatcher n} (h : KeptSingle came handed d₀ d)
    (fec : FecOutcome d d') : KeptSingle came handed d₀ d' := by
  cases fec with
  | nothing => exact h
  | recovered memory pkt inTime =>
    obtain ⟨started,rs,hrs,hloop⟩ := h
    refine ⟨((doProcess_progress _ pkt).isPlayerStarted).trans started,rs ++ [d.recoveryOf pkt],?_,
      fun hone => (hloop hone.of_append).recovered memory hone⟩
    rw [recovered_recoveries,hrs,append_assoc]

theorem KeptSingle.push (h : KeptSingle came handed d₀ d) {p : MediaPacket}
    (head : ∀ rs, d.recoveries = d₀.recoveries ++ rs →
      RecoveredOneWay came d₀.smallestTxtSeqnoICare rs →
      ∃ rest, d.mediaPktToPlayerCache = p :: rest) : KeptSingle came handed d₀ (d.push cfg p) := by
  obtain ⟨started,rs,hrs,hloop⟩ := h
  refine ⟨(push_started d p).trans started,rs,(push_recoveries d p).trans hrs,fun hone => ?_⟩
  obtain ⟨rest,hhead⟩ := head rs hrs hone
  exact (hloop hone).push started hhead

theorem KeptSingle.progress (h₀ : ∀ r∈d₀.recoveries, r.Harmless) {s t : LoopState n}
    (hp : Progress cfg s t) (h : KeptSingle came handed d₀ s.d) : KeptSingle came handed d₀ t.d := by
  cases hp with
  | @erase p rest head older hd =>
    obtain ⟨started,rs,hrs,hloop⟩ := h
    rw [hd]
    refine ⟨started,rs,hrs,fun hone => ?_⟩
    -- in a sound state nothing in the map is below the cursor
    have hp := (hloop hone).sound.window.bounded p (by simp [head])
    rw [wrappableLess_origin (w := 31)] at older
    omega
  | retry head gap tries fec => exact h.fec fec
  | @skip p rest d head gap fec idle missing hd =>
    rw [hd]
    refine (h.fec fec).push fun rs hrs hone => ?_
    have harmless : ∀ r∈d.recoveries, r.Harmless := by
      rw [hrs]
      exact fun r hr => (mem_append.mp hr).elim (h₀ r) (hone.1 r)
    obtain ⟨started,rs',hrs',hloop⟩ := h
    have hgrown : Grown cfg s.d d := fec.grown
    obtain ⟨more,hmore⟩ := hgrown.recoveries
    obtain rfl : rs' ++ more = rs := by
      rw [hrs',hrs,append_assoc] at hmore
      exact append_cancel_left hmore
    exact fec.head_stays harmless (hloop hone.of_append).sound started head gap missing
  | next head nogap hd =>
    rw [hd]
    exact h.push fun _ _ _ => ⟨_,head⟩

end Loops

theorem Single.loop {d : MediaDispatcher n} {pushes came : List MediaPacket}
    (h : Single ⟨d,pushes,came⟩) (started : d.isPlayerStarted=true)
    {body : LoopState n → Turn (LoopState n)} (advances : ∀ s, Advances cfg s (body s)) (env : CallEnv)
    {d' : MediaDispatcher n} (hd' : (BoundedLoops.loop body d.turns (d.loopStart env)).d = d')
    (hone : RecoveredOneWay came d.smallestTxtSeqnoICare (d'.recoveries.drop d.recoveries.length)) :
    Single ⟨d',pushes ++ d'.dispatched.drop d.dispatched.length,
      came ++ (d'.recoveries.drop d.recoveries.length).map Recovery.pkt⟩ := by
  have hentry : KeptSingle came (textNumbers pushes) d d := by
    refine ⟨started,[],(append_nil _).symm,fun _ => ⟨h.sound,rfl,rfl,[],by simp,?_⟩⟩
    simpa [numbers] using h.booked
  obtain ⟨-,rs,hrs,hloop⟩ := loop_keeps advances (KeptSingle came (textNumbers pushes) d)
    (fun _ _ hp hk => hk.progress h.harmless hp) d env hentry
  rw [hd'] at hrs hloop
  rw [hrs,drop_left] at hone ⊢
  obtain ⟨hsound,htexts,hcursor,pkts,hpkts,hbooked⟩ := hloop hone
  refine ⟨?_,hsound,?_,?_,?_⟩
  · rw [hrs]
    exact fun r hr => (mem_append.mp hr).elim (h.harmless r) (hone.1 r)
  · rw [htexts]
    exact h.texts
  · rcases h.window with hnil | ⟨c,hc,hw⟩
    · exact .inl (htexts.trans hnil)
    · exact .inr ⟨c,hcursor.trans hc,htexts ▸ hw⟩
  · simp only [numbers,hpkts,drop_left,textNumbers_append,htexts]
    exact hbooked

theorem Single.dispatchTxt (h : Single w) (cfg : DispatchConfig) :
    Single ⟨w.d.dispatchTxt cfg,w.pushes++w.d.txtPktCache,w.came⟩ := by
  rw [dispatchTxt_eq]
  refine ⟨h.harmless,⟨h.sound.window,h.sound.rising,h.sound.cursor,h.sound.idle⟩,
    by simp,.inl rfl,?_⟩
  simpa [numbers,textNumbers_of_forall h.texts] using h.booked

theorem Single.canPlayerStart {d d' : MediaDispatcher n} {pushes came : List MediaPacket}
    (h : Single ⟨d,pushes,came⟩) (idle : d.isPlayerStarted=false) {env : CallEnv}
    (hd : d.canPlayerStart cfg env = some d') :
    Single ⟨d',pushes,came⟩ ∧ d'.dispatched=d.dispatched ∧ d'.recoveries=d.recoveries ∧
      d'.isPlayerStarted = true ∧ d'.smallestTxtSeqnoICare=d.smallestTxtSeqnoICare := by
  have hsound := h.sound.start idle hd
  rcases canPlayerStart_some hd with rfl | ⟨pkt,rest,-,rfl⟩ <;>
    exact ⟨⟨h.harmless,hsound,h.texts,h.window,h.booked⟩,rfl,rfl,rfl,rfl⟩

theorem step_eq {e : Event n} {d' : MediaDispatcher n} (h : w.d.step cfg e = d') :
    w.step cfg e = ⟨d',w.pushes ++ (textLoop w.d e ++ d'.dispatched.drop w.d.dispatched.length),
      w.came ++ (received e ++ (d'.recoveries.drop w.d.recoveries.length).map Recovery.pkt)⟩ := by
  subst h
  rfl

theorem Single.of_same (h : Single w) {e : Event n} {d' : MediaDispatcher n} (hd : w.d.step cfg e = d')
    (hr : received e = []) (ht : textLoop w.d e = []) (same : SameProgress w.d d')
    (hm : d'.mediaPktToPlayerCache=w.d.mediaPktToPlayerCache) (htxt : d'.txtPktCache=w.d.txtPktCache)
    (hcursor : d'.smallestTxtSeqnoICare=w.d.smallestTxtSeqnoICare) : Single (w.step cfg e) := by
  rw [step_eq hd,hr,ht,same.dispatched,same.recoveries,drop_length,drop_length]
  refine ⟨same.recoveries ▸ h.harmless,h.sound.of_same same hm,htxt ▸ h.texts,?_,?_⟩
  · unfold TextWindow
    rw [htxt,hcursor]
    exact h.window
  · simpa [numbers,hm,htxt] using h.booked

theorem Single.timer (h : Single w) (env : CallEnv)
    (hone : RecoveredOneWay w.came (textCursor w.d (.timer env)) (recovered cfg w.d (.timer env))) :
    Single (w.step cfg (.timer env)) := by
  by_cases hidle : (w.d.mediaPktToPlayerCache.isEmpty || !env.serviceLogic) = true
  · exact h.of_same (if_pos hidle) rfl (if_pos hidle) ⟨rfl,rfl,rfl,rfl,rfl⟩ rfl rfl rfl
  have htext : textLoop w.d (.timer env) = w.d.txtPktCache := if_neg hidle
  have hentry := h.dispatchTxt cfg
  have hcursor : (w.d.dispatchTxt cfg).smallestTxtSeqnoICare = textCursor w.d (.timer env) := by
    rw [dispatchTxt_eq,textCursor,htext]
  have hsame := (w.d.dispatchTxt_progress cfg).1
  unfold recovered at hone
  by_cases hstarted : (w.d.dispatchTxt cfg).isPlayerStarted = true
  · have hstep : w.d.step cfg (.timer env) = (w.d.dispatchTxt cfg).dispatchMedia cfg env env.maxPush := by
      rw [MediaDispatcher.step,onDispatchTimer,if_neg hidle]
      exact if_pos hstarted
    rw [hstep,← hcursor,← hsame.recoveries] at hone
    rw [step_eq hstep,htext,← hsame.dispatched,← hsame.recoveries,← append_assoc]
    exact hentry.loop hstarted (timerTurn_advances env env.maxPush) env rfl hone
  have hnot := Bool.eq_false_of_not_eq_true hstarted
  cases hstart : (w.d.dispatchTxt cfg).canPlayerStart cfg env with
  | none =>
    have hstep : w.d.step cfg (.timer env) = w.d.dispatchTxt cfg := by
      rw [MediaDispatcher.step,onDispatchTimer,if_neg hidle]
      rw [if_neg hstarted,hstart]
    rw [step_eq hstep,htext,hsame.dispatched,hsame.recoveries,drop_length,drop_length]
    simpa [received] using hentry
  | some d' =>
    have hstep : w.d.step cfg (.timer env) = d'.dispatchMedia cfg env 100 := by
      rw [MediaDispatcher.step,onDispatchTimer,if_neg hidle]
      dsimp only
      rw [if_neg hstarted,hstart]
    obtain ⟨hsingle,hdispatched,hrecoveries,hstarted',hcursor'⟩ :=
      hentry.canPlayerStart hnot hstart
    rw [hstep,← hcursor,← hcursor',← hsame.recoveries,← hrecoveries] at hone
    rw [step_eq hstep,htext,← hsame.dispatched,← hsame.recoveries,← hdispatched,← hrecoveries,
      ← append_assoc]
    exact hsingle.loop hstarted' (timerTurn_advances env 100) env rfl hone

theorem Single.step {e : Event n} (hone : Orderly cfg w e) (h : Single w) : Single (w.step cfg e) := by
  obtain ⟨hgiven,hreceived,hrecovered⟩ := hone
  cases e with
  | recvd pkt =>
    have hprogress := w.d.doProcess_progress pkt
    have hstep : w.d.step cfg (.recvd pkt) = w.d.doProcessRecvdMediaPacket pkt := rfl
    rw [step_eq hstep,hprogress.dispatched,hprogress.recoveries,drop_length,drop_length]
    refine ⟨?_,h.sound.doProcess hgiven,?_,h.window.doProcess pkt,?_⟩
    · rw [hprogress.recoveries]
      exact h.harmless
    · intro p hp
      rcases doProcess_txt_cases w.d pkt with htxt | ⟨ht,-,htxt⟩
      · exact h.texts p (htxt ▸ hp)
      · rcases mem_cons.mp (htxt.mem_iff.mp hp) with rfl | hp
        · exact ht
        · exact h.texts p hp
    · have hbooked := h.booked_doProcess (hreceived pkt (by simp [received]))
      simpa [numbers,received,textLoop] using hbooked
  | memory cache => exact h.of_same rfl rfl rfl ⟨rfl,rfl,rfl,rfl,rfl⟩ rfl rfl rfl
  | setFlush flush => exact h.of_same rfl rfl rfl ⟨rfl,rfl,rfl,rfl,rfl⟩ rfl rfl rfl
  | timer env => exact h.timer env hrecovered
  | stop env =>
    by_cases hflush : (w.d.flush && w.d.isPlayerStarted && env.serviceLogic) = true
    · have started : w.d.isPlayerStarted=true := by
        simp only [Bool.and_eq_true] at hflush
        exact hflush.1.2
      have hstep : w.d.step cfg (.stop env) =
          (BoundedLoops.loop (flushTurn cfg env) w.d.turns (w.d.loopStart env)).d := if_pos hflush
      unfold recovered at hrecovered
      rw [hstep] at hrecovered
      rw [step_eq hstep]
      exact h.loop started (flushTurn_advances env) env rfl hrecovered
    · exact h.of_same (if_neg hflush) rfl rfl ⟨rfl,rfl,rfl,rfl,rfl⟩ rfl rfl rfl

def fresh (d : MediaDispatcher n) (seq : BitVec 32) : DispatchWatch n := ⟨d.resetTo seq,[],[]⟩

theorem single_fresh (d : MediaDispatcher n) (seq : BitVec 32) : Single (fresh d seq) where
  harmless := nofun
  sound := ⟨.nil,.nil,nofun,fun _ => rfl⟩
  texts := nofun
  window := .inl rfl
  booked := ⟨.nil,fun _ h => h⟩

/-- In every run from a reset on, live or vod, with any packets, timers and flushes: if every text
broadcast comes one way, numbers in use lie within half the ring and the recoveries are harmless,
no text broadcast is handed to the player twice. -/
theorem text_broadcast_handed_once (cfg : DispatchConfig) (d : MediaDispatcher n) (seq : BitVec 32)
    (es : List (Event n)) (orderly : AlongRun (step cfg) (Orderly cfg) (fresh d seq) es) :
    (textNumbers (es.foldl (step cfg) (fresh d seq)).pushes).Nodup := by
  have h : Single (es.foldl (step cfg) (fresh d seq)) :=
    invariant_of_run Single (fun _ _ he hs => hs.step he) orderly (single_fresh d seq)
  exact h.booked.nodup.of_append_left

def textPacket (seqno : BitVec 32) : MediaPacket :=
  { signedPacket seqno with level := .userLevel, channelId := txtBroadcastChannel }

/-- The text broadcast 0 and the media packets 1 to 50 come, and the player starts. -/
def textRun : List (Event 5) :=
  .recvd (textPacket 0) ::
    ((List.range 50).map fun i => .recvd (signedPacket (BitVec.ofNat 32 (i+1)))) ++
    [.timer calmEnv]

/-- With the cursor at 0 the text broadcast enters both maps, and the timer hands it over twice. -/
theorem text_broadcast_handed_twice :
    AlongRun (MediaDispatcher.step liveConfig) Given (playing.resetTo 0) textRun ∧
    (textRun.foldl (step liveConfig) (fresh playing 0)).d.recoveries.length = 0 ∧
    textNumbers (textRun.foldl (step liveConfig) (fresh playing 0)).pushes = [0,0] :=
  ⟨by decide +kernel,by decide +kernel,by decide +kernel⟩

/-- With the cursor at 1 it enters the text map only. -/
theorem late_text_broadcast_handed_once :
    textNumbers (textRun.foldl (step liveConfig) (fresh playing 1)).pushes = [0] ∧
    (textNumbers (textRun.foldl (step liveConfig) (fresh playing 1)).pushes).Nodup :=
  ⟨by decide +kernel,
    text_broadcast_handed_once liveConfig playing 1 textRun (by decide +kernel)⟩

end DispatchWatch

end P2Streaming
