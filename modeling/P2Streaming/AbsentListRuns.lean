import P2Streaming.AbsentPacketList
import P2Streaming.TransitionRuns

/-!
# Runs of `absent_packet_list`

The two sets, the ring of infos and the smallest absent number that is published in the client's
parameters, over any sequence of calls. A number that is entered takes the slot of whatever number
lies a multiple of the capacity away, and the range that is admitted is one number wider than the
ring. The published number is set where a number enters or the list is trimmed; where a number is
erased it is compared the wrong way.
-/
namespace P2Streaming
open WrappableInteger SerialMaps TransitionRuns AbsentPacketList List

namespace AbsentPacketList

variable (l : AbsentPacketList)

def clear : AbsentPacketList :=
  { (l.notRequestingPackets++l.requestingPackets).foldl delete l with
    notRequestingPackets := []
    requestingPackets := [] }

/-- The element of a set that `erase` takes out. -/
def found (seqno : BitVec 32) : Option (BitVec 32) :=
  (find id seqno l.notRequestingPackets).or (find id seqno l.requestingPackets)

def numbers : List (BitVec 32) := l.notRequestingPackets ++ l.requestingPackets

theorem mem_numbers {l : AbsentPacketList} {x : BitVec 32} : x∈l.numbers ↔ l.Listed x :=
  mem_append

end AbsentPacketList

/-- `absent_packet_list` with `smallest_seqno_absenct` of the client's parameters. -/
structure PublishedAbsents where
  list : AbsentPacketList
  smallestSeqnoAbsenct : BitVec 32

inductive AbsentEvent where
  | justKnown (seqno smallestSeqnoICare now : BitVec 32)
  | setRequesting (seqno : BitVec 32)
  | requestFailed (seqno : BitVec 32)
  | recvd (seqno now : BitVec 32)
  | erase (seqno now : BitVec 32)
  | trim (smallestSeqnoICare : BitVec 32) (maxRangeCnt : ℤ)
  | clear

def AbsentEvent.number : AbsentEvent → Option (BitVec 32)
  | justKnown seqno _ _ | setRequesting seqno | requestFailed seqno | recvd seqno _ | erase seqno _ =>
      some seqno
  | trim _ _ | clear => none

namespace PublishedAbsents

variable (t : PublishedAbsents)

def justKnown (seqno smallestSeqnoICare now : BitVec 32) : PublishedAbsents :=
  match t.list.justKnown seqno smallestSeqnoICare now with
  | (_, false) => t
  | (l, true) =>
      if t.list.isEmpty || wrappableLess seqno t.smallestSeqnoAbsenct then ⟨l,seqno⟩
      else ⟨l,t.smallestSeqnoAbsenct⟩

/-- `erase`; the test on the published number is made once the number is out. -/
def erase (seqno now : BitVec 32) : PublishedAbsents :=
  let l := t.list.erase seqno now
  match t.list.found seqno with
  | none => ⟨l,t.smallestSeqnoAbsenct⟩
  | some found =>
      if wrappableLess found t.smallestSeqnoAbsenct && !l.isEmpty then
        ⟨l,l.minSeqno.getD t.smallestSeqnoAbsenct⟩
      else ⟨l,t.smallestSeqnoAbsenct⟩

def trim (smallestSeqnoICare : BitVec 32) (maxRangeCnt : ℤ) : PublishedAbsents :=
  let l := t.list.trim smallestSeqnoICare maxRangeCnt
  ⟨l,if l.isEmpty then smallestSeqnoICare else l.minSeqno.getD smallestSeqnoICare⟩

def step : AbsentEvent → PublishedAbsents
  | .justKnown seqno smallestSeqnoICare now => t.justKnown seqno smallestSeqnoICare now
  | .setRequesting seqno => ⟨t.list.setRequesting seqno,t.smallestSeqnoAbsenct⟩
  | .requestFailed seqno => ⟨t.list.requestFailed seqno,t.smallestSeqnoAbsenct⟩
  | .recvd seqno now => t.erase seqno now
  | .erase seqno now => t.erase seqno now
  | .trim smallestSeqnoICare maxRangeCnt => t.trim smallestSeqnoICare maxRangeCnt
  | .clear => ⟨t.list.clear,t.smallestSeqnoAbsenct⟩

def create (smallestSeqnoAbsenct : BitVec 32) : PublishedAbsents := ⟨.empty,smallestSeqnoAbsenct⟩

@[simp] theorem list_erase (seqno now : BitVec 32) :
    (t.erase seqno now).list = t.list.erase seqno now := by
  unfold erase
  dsimp only
  split
  · rfl
  · split_ifs <;> rfl

@[simp] theorem list_justKnown (seqno o now : BitVec 32) :
    (t.justKnown seqno o now).list = (t.list.justKnown seqno o now).1 := by
  unfold justKnown
  split
  · rename_i heq
    rw [justKnown_refused (by rw [heq]; exact Bool.false_ne_true)]
  · rename_i l heq
    split_ifs <;> rw [heq]

end PublishedAbsents

/-- The words lie less than half the ring above one of them, so that the order of the sets is an
order on them. -/
def HalfRing (xs : List (BitVec 32)) : Prop :=
  (xs.any fun o => xs.all fun x => decide (ahead o x < 2^31)) = true

instance (xs : List (BitVec 32)) : Decidable (HalfRing xs) := inferInstanceAs (Decidable (_=true))

theorem HalfRing.exists_origin {xs : List (BitVec 32)} (h : HalfRing xs) :
    ∃ o, ∀ x∈xs, ahead o x < 2^31 := by
  obtain ⟨o,-,ho⟩ := any_eq_true.mp h
  exact ⟨o,fun x hx => of_decide_eq_true (all_eq_true.mp ho x hx)⟩

/-- The number of the call can be compared with the numbers in the sets. -/
def PublishedAbsents.Comparable (t : PublishedAbsents) (e : AbsentEvent) : Prop :=
  match e.number with
  | some seqno => HalfRing (seqno::t.list.numbers)
  | none => True

instance (t : PublishedAbsents) (e : AbsentEvent) : Decidable (t.Comparable e) := by
  unfold PublishedAbsents.Comparable
  cases e.number <;> infer_instance

namespace AbsentPacketList

variable {l : AbsentPacketList}

def Ordered (l : AbsentPacketList) : Prop :=
  ∃ o, Window id o (2^31) l.notRequestingPackets ∧ Window id o (2^31) l.requestingPackets

theorem ordered_empty : empty.Ordered := ⟨0,.nil,.nil⟩

variable {l' : AbsentPacketList}

theorem Ordered.sublist (h : l.Ordered) (hn : l'.notRequestingPackets.Sublist l.notRequestingPackets)
    (hr : l'.requestingPackets.Sublist l.requestingPackets) : l'.Ordered := by
  obtain ⟨o,hwn,hwr⟩ := h
  exact ⟨o,hwn.sublist hn,hwr.sublist hr⟩

variable {seqno : BitVec 32}

theorem Ordered.rebase (h : l.Ordered) (hs : HalfRing (seqno::l.numbers)) :
    ∃ o, Window id o (2^31) l.notRequestingPackets ∧ Window id o (2^31) l.requestingPackets ∧
      ahead o seqno < 2^31 := by
  obtain ⟨o,hwn,hwr⟩ := h
  obtain ⟨p,hp⟩ := hs.exists_origin
  have hlisted : ∀ x, l.Listed x → ahead p x < 2^31 := fun x hx =>
    hp x (mem_cons_of_mem _ (mem_numbers.mpr hx))
  refine ⟨p,hwn.rebase (Nat.le_refl _) fun x hx => hlisted x (.inl hx),?_,hp seqno mem_cons_self⟩
  exact hwr.rebase (Nat.le_refl _) fun x hx => hlisted x (.inr hx)

section Members
variable {o seqno : BitVec 32} {lst : List (BitVec 32)} {x : BitVec 32}

section
variable (h : Window id o (2^31) lst) (hs : ahead o seqno < 2^31)
include h hs

theorem mem_insert_iff :
    x ∈ SerialMaps.insert id seqno lst ↔ x=seqno ∨ x∈lst := by
  constructor
  · exact mem_insert id
  · rintro (rfl | hx)
    · obtain ⟨y,hy,rfl⟩ := h.mem_insert_self (Nat.le_refl _) hs
      exact hy
    · exact mem_insert_of_mem id hx

theorem find_iff :
    find id seqno lst = some x ↔ x=seqno ∧ x∈lst := by
  constructor
  · intro hf
    exact ⟨h.find_key (Nat.le_refl _) hs hf,(find_eq_some id hf).1⟩
  · rintro ⟨rfl,hx⟩
    exact h.find_of_mem (Nat.le_refl _) hx

theorem mem_erase_iff :
    x ∈ SerialMaps.erase id seqno lst ↔ x∈lst ∧ x≠seqno := by
  constructor
  · intro hx
    have hmem := (erase_sublist id _ _).subset hx
    refine ⟨hmem,?_⟩
    rintro rfl
    exact h.not_mem_erase (Nat.le_refl _) hmem hx
  · rintro ⟨hx,hne⟩
    apply mem_erase_of_find id hx
    rw [Ne,find_iff h hs]
    exact fun hf => hne hf.1

end

end Members

/-- The sets are disjoint and the slot of every listed number tells of that number. -/
structure Agrees (l : AbsentPacketList) : Prop where
  disjoint : ∀ x∈l.notRequestingPackets, x ∉ l.requestingPackets
  slots : ∀ x, l.Listed x → ∃ info, l.getPacketInfo x = some info ∧ info.seqno=x

theorem agrees_empty : empty.Agrees :=
  ⟨fun _ h => (not_mem_nil h).elim,fun _ h => (h.elim not_mem_nil not_mem_nil).elim⟩

theorem Agrees.eq_of_slot_eq (h : l.Agrees) {x y : BitVec 32} (hx : l.Listed x) (hy : l.Listed y)
    (heq : slot x = slot y) : x=y := by
  obtain ⟨info,hinfo,rfl⟩ := h.slots x hx
  obtain ⟨info',hinfo',rfl⟩ := h.slots y hy
  have hsame : some info = some info' := by
    rw [← hinfo,← hinfo',getPacketInfo,getPacketInfo,heq]
  cases hsame
  rfl

theorem getPacketInfo_delete_of_ne {x y : BitVec 32} (h : slot x ≠ slot y) :
    (l.delete y).getPacketInfo x = l.getPacketInfo x :=
  Function.update_of_ne h _ _

theorem getPacketInfo_foldl_delete {cut : List (BitVec 32)} {x : BitVec 32}
    (h : ∀ y∈cut, slot x ≠ slot y) : (cut.foldl delete l).getPacketInfo x = l.getPacketInfo x := by
  induction cut generalizing l with
  | nil => rfl
  | cons y cut ih =>
    rw [foldl_cons,ih fun z hz => h z (mem_cons_of_mem y hz)]
    exact getPacketInfo_delete_of_ne (h y mem_cons_self)

section
variable (h : l.Agrees)
include h

theorem Agrees.of_kept (hn : l'.notRequestingPackets.Sublist l.notRequestingPackets)
    (hr : l'.requestingPackets.Sublist l.requestingPackets)
    (hslots : ∀ x, l'.Listed x → l'.getPacketInfo x = l.getPacketInfo x) : l'.Agrees := by
  constructor
  · exact fun x hx hx' => h.disjoint x (hn.subset hx) (hr.subset hx')
  · intro x hx
    rw [hslots x hx]
    exact h.slots x (hx.imp (hn.subset ·) (hr.subset ·))

theorem Agrees.delete {y : BitVec 32}
    (hn : l'.notRequestingPackets.Sublist l.notRequestingPackets)
    (hr : l'.requestingPackets.Sublist l.requestingPackets)
    (hv : l'.mediaPacketInfoVector=l.mediaPacketInfoVector)
    (hy : l.Listed y) (hleft : ¬ l'.Listed y) : (l'.delete y).Agrees := by
  refine h.of_kept ?_ ?_ fun x hx => ?_
  · exact hn
  · exact hr
  have hlisted : l'.Listed x := hx
  rw [getPacketInfo_delete_of_ne,getPacketInfo,hv,getPacketInfo]
  intro hslot
  have hsame := h.eq_of_slot_eq (hlisted.imp (hn.subset ·) (hr.subset ·)) hy hslot
  exact hleft (hsame ▸ hlisted)

theorem Agrees.erase (ho : l.Ordered)
    (hs : HalfRing (seqno::l.numbers)) (now : BitVec 32) : (l.erase seqno now).Agrees := by
  obtain ⟨o,hwn,hwr,hso⟩ := ho.rebase hs
  unfold AbsentPacketList.erase
  cases hn : find id seqno l.notRequestingPackets with
  | some found =>
    obtain ⟨rfl,hmem⟩ := (find_iff hwn hso).mp hn
    refine h.delete (erase_sublist id _ _) (.refl _) rfl (.inl hmem) ?_
    rintro (hx | hx)
    · exact ((mem_erase_iff hwn hso).mp hx).2 rfl
    · exact h.disjoint _ hmem hx
  | none =>
    cases hr : find id seqno l.requestingPackets with
    | some found =>
      obtain ⟨rfl,hmem⟩ := (find_iff hwr hso).mp hr
      refine h.delete (.refl _) (erase_sublist id _ _) rfl (.inr hmem) ?_
      rintro (hx | hx)
      · exact h.disjoint _ hx hmem
      · exact ((mem_erase_iff hwr hso).mp hx).2 rfl
    | none =>
      split_ifs with hthis
      · -- the slot tells of the number, so it is not the slot of a listed one
        obtain ⟨info,hinfo,hsame⟩ := (Option.any_eq_true _ _).mp hthis
        have hseqno : info.seqno=seqno := by
          exact of_decide_eq_true (Bool.and_eq_true_iff.mp hsame).1
        have hunlisted : ¬ l.Listed seqno := by
          rintro (hx | hx)
          · rw [(find_iff hwn hso).mpr ⟨rfl,hx⟩] at hn
            cases hn
          · rw [(find_iff hwr hso).mpr ⟨rfl,hx⟩] at hr
            cases hr
        refine h.of_kept ?_ ?_ fun x hx => ?_
        · exact .refl _
        · exact .refl _
        replace hx : l.Listed x := hx
        apply getPacketInfo_delete_of_ne
        intro hslot
        obtain ⟨info',hinfo',rfl⟩ := h.slots x hx
        rw [getPacketInfo,hslot,← getPacketInfo,hinfo] at hinfo'
        cases hinfo'
        exact hunlisted (hseqno ▸ hx)
      · exact h

theorem Agrees.setRequesting (ho : l.Ordered)
    (hs : HalfRing (seqno::l.numbers)) (hlisted : l.Listed seqno) : (l.setRequesting seqno).Agrees := by
  obtain ⟨o,hwn,hwr,hso⟩ := ho.rebase hs
  constructor
  · intro x hx hx'
    obtain ⟨hmem,hne⟩ := (mem_erase_iff hwn hso).mp hx
    exact ((mem_insert_iff hwr hso).mp hx').elim hne (h.disjoint x hmem)
  · rintro x (hx | hx)
    · exact h.slots x (.inl ((mem_erase_iff hwn hso).mp hx).1)
    · rcases (mem_insert_iff hwr hso).mp hx with rfl | hx
      · exact h.slots x hlisted
      · exact h.slots x (.inr hx)

theorem Agrees.requestFailed (ho : l.Ordered)
    (hs : HalfRing (seqno::l.numbers)) (hlisted : l.Listed seqno) : (l.requestFailed seqno).Agrees := by
  obtain ⟨o,hwn,hwr,hso⟩ := ho.rebase hs
  unfold AbsentPacketList.requestFailed
  split_ifs
  · constructor
    · intro x hx hx'
      obtain ⟨hmem,hne⟩ := (mem_erase_iff hwr hso).mp hx'
      exact ((mem_insert_iff hwn hso).mp hx).elim hne fun hx => h.disjoint x hx hmem
    · rintro x (hx | hx)
      · rcases (mem_insert_iff hwn hso).mp hx with rfl | hx
        · exact h.slots x hlisted
        · exact h.slots x (.inl hx)
      · exact h.slots x (.inr ((mem_erase_iff hwr hso).mp hx).1)
  · exact h

end

theorem mem_of_mem_trimmings {p x : BitVec 32} {range : ℤ} {lst : List (BitVec 32)}
    (h : x ∈ trimmings p range lst) : x∈lst := by
  rw [trimmings,mem_append,mem_reverse] at h
  rcases h with h | h
  · rw [List.rtakeWhile,mem_reverse] at h
    exact mem_reverse.mp ((takeWhile_sublist _).subset h)
  · exact ( rdropWhile_prefix _ _).subset ((takeWhile_sublist _).subset h)

theorem not_mem_trimmings {p x : BitVec 32} {range : ℤ} {lst : List (BitVec 32)} (h : lst.Nodup)
    (hx : x ∈ trimmed p range lst) : x ∉ trimmings p range lst := by
  have htail : lst.rdropWhile (beyond p range) ++ lst.rtakeWhile (beyond p range) = lst := by
    rw [List.rdropWhile,List.rtakeWhile,← reverse_append,takeWhile_append_dropWhile,
      reverse_reverse]
  have hparts := nodup_append.mp (htail ▸ h)
  have hhead := hparts.1
  rw [← takeWhile_append_dropWhile (p := (wrappableLess · p))
    (l := lst.rdropWhile (beyond p range))] at hhead
  rw [trimmings,mem_append,mem_reverse]
  rintro (hcut | hcut)
  · exact hparts.2.2 x ((dropWhile_sublist _).subset hx) x hcut rfl
  · exact (nodup_append.mp hhead).2.2 x hcut x hx rfl

theorem Agrees.trim (h : l.Agrees) (ho : l.Ordered) (p : BitVec 32) (range : ℤ) :
    (l.trim p range).Agrees := by
  obtain ⟨o,hwn,hwr⟩ := ho
  have hnodup : ∀ {lst : List (BitVec 32)}, Window id o (2^31) lst → lst.Nodup := fun hw =>
    hw.sorted.imp fun {a b} hlt (he : a=b) => Nat.lt_irrefl _ (he ▸ hlt)
  have hn := trim_notRequestingPackets l p range
  have hr := trim_requestingPackets l p range
  apply h.of_kept
  · rw [hn]
    exact trimmed_sublist p range _
  · rw [hr]
    exact trimmed_sublist p range _
  · intro x hx
    have hkept : x ∈ trimmed p range l.notRequestingPackets ∨
      x ∈ trimmed p range l.requestingPackets := by
      rw [← hn,← hr]
      exact hx
    have hlisted : l.Listed x :=
      hkept.imp ((trimmed_sublist p range _).subset ·) ((trimmed_sublist p range _).subset ·)
    apply getPacketInfo_foldl_delete
    intro y hy hslot
    rcases mem_append.mp hy with hy | hy
    · have hsame := h.eq_of_slot_eq hlisted (.inl (mem_of_mem_trimmings hy)) hslot
      subst hsame
      rcases hkept with hk | hk
      · exact not_mem_trimmings (hnodup hwn) hk hy
      · exact h.disjoint x (mem_of_mem_trimmings hy) ((trimmed_sublist p range _).subset hk)
    · have hsame := h.eq_of_slot_eq hlisted (.inr (mem_of_mem_trimmings hy)) hslot
      subst hsame
      rcases hkept with hk | hk
      · exact h.disjoint x ((trimmed_sublist p range _).subset hk) (mem_of_mem_trimmings hy)
      · exact not_mem_trimmings (hnodup hwr) hk hy

theorem agrees_clear (l : AbsentPacketList) : l.clear.Agrees :=
  ⟨fun _ h => (not_mem_nil h).elim,fun _ h => (h.elim not_mem_nil not_mem_nil).elim⟩

/-- The tests of `just_known` on the range. -/
def inRange (seqno smallestSeqnoICare : BitVec 32) : Bool :=
  !wrappableGreater smallestSeqnoICare seqno && decide (wrappableMinus seqno smallestSeqnoICare ≤ 2^15)

/-- The slot of the number tells of it, and not since too long a time. -/
def isKnown (l : AbsentPacketList) (seqno now : BitVec 32) : Bool :=
  (l.getPacketInfo seqno).any (·.isThis seqno now)

theorem justKnown_eq (l : AbsentPacketList) (seqno o now : BitVec 32) : l.justKnown seqno o now =
      if inRange seqno o = true ∧ l.isKnown seqno now = false then (l.enter seqno now, true)
      else (l, false) := by
  unfold justKnown inRange isKnown
  by_cases hgreater : wrappableGreater o seqno = true
  · simp [hgreater]
  rw [if_neg hgreater]
  by_cases hfar : 2^15 < wrappableMinus seqno o
  · rw [if_pos hfar,if_neg]
    rintro ⟨hin,-⟩
    exact not_le.mpr hfar (of_decide_eq_true (Bool.and_eq_true_iff.mp hin).2)
  · have hin : (!wrappableGreater o seqno && decide (wrappableMinus seqno o ≤ 2^15)) = true := by
      rw [Bool.eq_false_of_not_eq_true hgreater,decide_eq_true (not_lt.mp hfar)]
      rfl
    rw [if_neg hfar]
    cases hthis : (l.getPacketInfo seqno).any (·.isThis seqno now) with
    | true => rw [if_pos rfl,if_neg fun h => Bool.noConfusion h.2]
    | false => rw [if_neg Bool.false_ne_true,if_pos ⟨hin,rfl⟩]

section
variable (h : l.Ordered)
include h

section
variable (hs : HalfRing (seqno::l.numbers))
include hs

theorem Ordered.enter (now : BitVec 32) : (l.enter seqno now).Ordered := by
  obtain ⟨o,hwn,hwr,hso⟩ := h.rebase hs
  exact ⟨o,hwn.insert (Nat.le_refl _) hso,hwr⟩

theorem Ordered.setRequesting : (l.setRequesting seqno).Ordered := by
  obtain ⟨o,hwn,hwr,hso⟩ := h.rebase hs
  exact ⟨o,hwn.sublist (erase_sublist id _ _),hwr.insert (Nat.le_refl _) hso⟩

theorem Ordered.requestFailed : (l.requestFailed seqno).Ordered := by
  obtain ⟨o,hwn,hwr,hso⟩ := h.rebase hs
  unfold AbsentPacketList.requestFailed
  split_ifs
  · exact ⟨o,hwn.insert (Nat.le_refl _) hso,hwr.sublist (erase_sublist id _ _)⟩
  · exact ⟨o,hwn,hwr⟩

end

theorem Ordered.erase (seqno now : BitVec 32) : (l.erase seqno now).Ordered := by
  unfold AbsentPacketList.erase
  split
  · apply h.sublist
    · exact erase_sublist id _ _
    · exact .refl _
  · split
    · apply h.sublist
      · exact .refl _
      · exact erase_sublist id _ _
    · split_ifs
      · exact h.sublist (.refl _) (.refl _)
      · exact h

theorem Ordered.trim (p : BitVec 32) (range : ℤ) : (l.trim p range).Ordered := by
  apply h.sublist
  · rw [trim_notRequestingPackets]
    exact trimmed_sublist p range _
  · rw [trim_requestingPackets]
    exact trimmed_sublist p range _

end

theorem ordered_clear (l : AbsentPacketList) : l.clear.Ordered := ⟨0,.nil,.nil⟩

theorem agrees_enter_iff (h : l.Agrees) (ho : l.Ordered)
    (hs : HalfRing (seqno::l.numbers)) (now : BitVec 32) : (l.enter seqno now).Agrees ↔
      seqno ∉ l.requestingPackets ∧ ∀ x, l.Listed x → slot x = slot seqno → x=seqno := by
  obtain ⟨o,hwn,hwr,hso⟩ := ho.rebase hs
  have hself : seqno ∈ (l.enter seqno now).notRequestingPackets := (mem_insert_iff hwn hso).mpr (.inl rfl)
  have hslot : ∀ x, slot x = slot seqno → (l.enter seqno now).getPacketInfo x = some ⟨seqno,now⟩ := by
    intro x hx
    rw [getPacketInfo,hx]
    exact Function.update_self _ _ _
  constructor
  · intro hagrees
    refine ⟨hagrees.disjoint seqno hself,fun x hx hsame => ?_⟩
    obtain ⟨info,hinfo,rfl⟩ := hagrees.slots x (listed_enter seqno now hx)
    rw [hslot _ hsame] at hinfo
    cases hinfo
    rfl
  · rintro ⟨hfree,hown⟩
    constructor
    · intro x hx
      rcases (mem_insert_iff hwn hso).mp hx with rfl | hx
      · exact hfree
      · exact h.disjoint x hx
    · intro x hx
      by_cases hsame : slot x = slot seqno
      · have hlisted : x=seqno := by
          rcases hx with hx | hx
          · exact ((mem_insert_iff hwn hso).mp hx).elim id fun hx => hown x (.inl hx) hsame
          · exact hown x (.inr hx) hsame
        exact ⟨_,hslot x hsame,hlisted.symm⟩
      · have hlisted : l.Listed x := by
          refine hx.imp_left fun hx => ((mem_insert_iff hwn hso).mp hx).resolve_left ?_
          rintro rfl
          exact hsame rfl
        obtain ⟨info,hinfo,heq⟩ := h.slots x hlisted
        refine ⟨info,?_,heq⟩
        rw [← hinfo]
        exact Function.update_of_ne hsame _ _

end AbsentPacketList
namespace PublishedAbsents

variable {t : PublishedAbsents} {e : AbsentEvent}

theorem ordered_step (h : t.list.Ordered) (he : t.Comparable e) : (t.step e).list.Ordered := by
  cases e with
  | justKnown seqno o now =>
    rw [step,list_justKnown,justKnown_eq]
    split_ifs
    · exact h.enter he now
    · exact h
  | setRequesting seqno => exact h.setRequesting he
  | requestFailed seqno => exact h.requestFailed he
  | recvd seqno now =>
    rw [step,list_erase]
    exact h.erase seqno now
  | erase seqno now =>
    rw [step,list_erase]
    exact h.erase seqno now
  | trim p range => exact h.trim p range
  | clear => exact t.list.ordered_clear

def AboutListed (t : PublishedAbsents) : AbsentEvent → Prop
  | .setRequesting seqno | .requestFailed seqno => t.list.Listed seqno
  | _ => True

instance (t : PublishedAbsents) : (e : AbsentEvent) → Decidable (t.AboutListed e)
  | .setRequesting seqno | .requestFailed seqno => inferInstanceAs (Decidable (t.list.Listed seqno))
  | .justKnown _ _ _ | .recvd _ _ | .erase _ _ | .trim _ _ | .clear => instDecidableTrue

/-- A number that is in range and not known is not being requested, and no other listed number lies
a multiple of the capacity away. -/
def OwnSlot (t : PublishedAbsents) : AbsentEvent → Prop
  | .justKnown seqno smallestSeqnoICare now =>
      inRange seqno smallestSeqnoICare = true ∧ t.list.isKnown seqno now = false →
        seqno ∉ t.list.requestingPackets ∧
          (t.list.numbers.all fun x => decide (slot x = slot seqno → x=seqno)) = true
  | _ => True

instance (t : PublishedAbsents) : (e : AbsentEvent) → Decidable (t.OwnSlot e)
  | .justKnown _ _ _ => inferInstanceAs (Decidable (_ ∧ _ → _ ∧ _))
  | .setRequesting _ | .requestFailed _ | .recvd _ _ | .erase _ _ | .trim _ _ | .clear =>
    instDecidableTrue

theorem agrees_step_iff (h : t.list.Agrees) (ho : t.list.Ordered) (he : t.Comparable e)
    (hlisted : t.AboutListed e) : (t.step e).list.Agrees ↔ t.OwnSlot e := by
  cases e with
  | justKnown seqno o now =>
    rw [step,list_justKnown,justKnown_eq,OwnSlot]
    split_ifs with henters
    · rw [agrees_enter_iff h ho he,imp_iff_right henters,all_eq_true]
      simp only [decide_eq_true_eq,mem_numbers]
    · exact iff_of_true h fun hin => absurd hin henters
  | setRequesting seqno => exact iff_of_true (h.setRequesting ho he hlisted) trivial
  | requestFailed seqno => exact iff_of_true (h.requestFailed ho he hlisted) trivial
  | recvd seqno now =>
    rw [step,list_erase]
    exact iff_of_true (h.erase ho he now) trivial
  | erase seqno now =>
    rw [step,list_erase]
    exact iff_of_true (h.erase ho he now) trivial
  | trim p range => exact iff_of_true (h.trim ho p range) trivial
  | clear => exact iff_of_true t.list.agrees_clear trivial

/-- Over a run of calls the sets and the ring agree just as long as every number that enters finds
a slot of its own. -/
theorem sets_agree_with_ring_iff (smallestSeqnoAbsenct : BitVec 32) (es : List AbsentEvent)
    (h : AlongRun step (fun t e => t.Comparable e ∧ t.AboutListed e) (create smallestSeqnoAbsenct) es) :
    (∀ n, let l := ((es.take n).foldl step (create smallestSeqnoAbsenct)).list
      l.Agrees ∧ ∀ x y, l.Listed x → l.Listed y →
        slot x = slot y → x=y) ↔
      AlongRun step OwnSlot (create smallestSeqnoAbsenct) es := by
  refine alongRun_iff_of_invariant (fun t => t.list.Ordered ∧ t.list.Agrees)
    (fun t => t.list.Agrees ∧ ∀ x y, t.list.Listed x → t.list.Listed y →
      slot x = slot y → x=y)
    (fun t ht => ⟨ht.2,fun x y hx hy => ht.2.eq_of_slot_eq hx hy⟩) ?_ ?_ h
    ⟨ordered_empty,agrees_empty⟩
  · intro t e ht he hown
    exact ⟨ordered_step ht.1 he.1,(agrees_step_iff ht.2 ht.1 he.1 he.2).mpr hown⟩
  · intro t e ht he hgood
    exact (agrees_step_iff ht.2 ht.1 he.1 he.2).mp hgood.1

def threeNumbers : List AbsentEvent :=
  [.justKnown 7 5 1,.justKnown 8 5 1,.setRequesting 7,.justKnown 32772 6 2,.requestFailed 7,
    .recvd 8 3,.trim 8 2048]

theorem threeNumbers_agree : (threeNumbers.foldl step (create 0)).list.Agrees :=
  ((sets_agree_with_ring_iff 0 threeNumbers (by decide)).mpr (by decide) 7).1

/-- Both numbers are in range, and the second takes the slot of the first. -/
theorem slot_taken :
    let es := [AbsentEvent.justKnown 0 0 1,.justKnown 32768 0 1]
    let l := (es.foldl step (create 0)).list
    AlongRun step (fun t e => t.Comparable e ∧ t.AboutListed e) (create 0) es ∧
      l.Listed 0 ∧ l.getPacketInfo 0 = some ⟨32768,1⟩ ∧ ¬ l.Agrees := by
  intro es l
  have hlisted : l.Listed 0 := by decide
  have htaken : l.getPacketInfo 0 = some ⟨32768,1⟩ := by decide
  refine ⟨by decide,hlisted,htaken,fun h => ?_⟩
  obtain ⟨info,hinfo,heq⟩ := h.slots 0 hlisted
  cases hinfo
  exact absurd heq (by decide)

end PublishedAbsents
end P2Streaming
