import P2Streaming.OwnerMap
import P2Streaming.ShrinkingCrowds

/-!
# `owner_map::random_select`

`random_select` draws positions of the vector and hands them to `select`, which takes them for local
ids. So it searches the ids below the number of owners, which goes down as dead owners are found; an
owner with a greater id is not looked at. The search is one in a crowd of the ids that are
connected and the ids that are not.
-/
namespace P2Streaming.OwnerMap
open ShrinkingCrowds (Missed Droppable SweepsMeet CanMiss size)

variable {Conn : Type*} {cnt : ℕ} (alive : Conn → Bool) (m : OwnerMap Conn cnt)

def available : Finset ℕ :=
  ((m.ownerVec.filter fun o => alive o.conn).map fun o => o.id.val).toFinset

def gone : Finset ℕ :=
  ((m.ownerVec.filter fun o => !alive o.conn).map fun o => o.id.val).toFinset

/-- A result is right: a connection of an owner that can be selected, and nothing only if there is
no such owner. -/
def SelectsAvailable : Option Conn → Prop
  | some c => ∃ o∈m.ownerVec, o.conn=c ∧ alive c ∧ 0 ≤ (o.requestDeadline.toNat : ℤ)
  | none => ∀ o∈m.ownerVec, ¬ (alive o.conn ∧ 0 ≤ (o.requestDeadline.toNat : ℤ))

variable {alive m} {i : ℕ}

theorem mem_available : i ∈ available alive m ↔ ∃ o∈m.ownerVec, alive o.conn = true ∧ o.id.val=i := by
  simp [available,and_assoc]

theorem mem_gone : i ∈ gone alive m ↔ ∃ o∈m.ownerVec, alive o.conn = false ∧ o.id.val=i := by
  simp [gone,and_assoc]

theorem selectsAvailable_none_iff : SelectsAvailable alive m none ↔ available alive m = ∅ := by
  rw [SelectsAvailable,Finset.eq_empty_iff_forall_notMem]
  constructor
  · intro h i hi
    obtain ⟨o,ho,halive,-⟩ := mem_available.mp hi
    exact h o ho ⟨halive,by omega⟩
  · intro h o ho halive
    exact h o.id (mem_available.mpr ⟨o,ho,halive.1,rfl⟩)

theorem selectsAvailable_some {o : Owner Conn cnt} (ho : o∈m.ownerVec) (h : alive o.conn = true) :
    SelectsAvailable alive m (some o.conn) :=
  ⟨o,ho,rfl,h,by omega⟩

theorem Consistent.size_eq (h : m.Consistent) :
    size (available alive m) (gone alive m) = m.ownerVec.length := by
  have hnodup : (m.ownerVec.map fun o => o.id.val).Nodup := by
    have := h.nodup.map Fin.val_injective
    rwa [List.map_map] at this
  have hcard : ∀ p : Owner Conn cnt → Bool,
      ((m.ownerVec.filter p).map fun o => o.id.val).toFinset.card = (m.ownerVec.filter p).length := by
    intro p
    rw [List.toFinset_card_of_nodup,List.length_map]
    exact hnodup.sublist (List.filter_sublist.map _)
  rw [size,available,gone,hcard,hcard]
  have := List.length_eq_length_filter_add (l := m.ownerVec) fun o => alive o.conn
  omega

theorem Consistent.disjoint (h : m.Consistent) : Disjoint (available alive m) (gone alive m) := by
  rw [Finset.disjoint_left]
  intro i hi hi'
  obtain ⟨o,ho,halive,hid⟩ := mem_available.mp hi
  obtain ⟨o',ho',hgone,hid'⟩ := mem_gone.mp hi'
  have heq := h.eq_of_key_eq ho ho' (Fin.ext (hid.trans hid'.symm))
  rw [heq,hgone] at halive
  exact absurd halive (by decide)

/-- What the search leaves of a map: the owners that can be selected and some of the others. -/
structure LeftOf (alive : Conn → Bool) (m m' : OwnerMap Conn cnt) : Prop where
  consistent : m'.Consistent
  subset : m'.ownerVec ⊆ m.ownerVec
  available_eq : available alive m' = available alive m

theorem LeftOf.refl (h : m.Consistent) : LeftOf alive m m := ⟨h,List.Subset.refl _,rfl⟩

theorem LeftOf.trans {m₁ m₂ m₃ : OwnerMap Conn cnt} (h : LeftOf alive m₁ m₂) (h' : LeftOf alive m₂ m₃) :
    LeftOf alive m₁ m₃ :=
  ⟨h'.consistent,List.Subset.trans h'.subset h.subset,h'.available_eq.trans h.available_eq⟩

theorem LeftOf.selectsAvailable {m' : OwnerMap Conn cnt} (h : LeftOf alive m m') {rst : Option Conn}
    (hrst : SelectsAvailable alive m' rst) : SelectsAvailable alive m rst := by
  cases rst with
  | none =>
    rw [selectsAvailable_none_iff] at hrst ⊢
    rwa [← h.available_eq]
  | some c =>
    obtain ⟨o,ho,hc⟩ := hrst
    exact ⟨o,h.subset ho,hc⟩

theorem select_of_mem_available (h : m.Consistent) (hi : i ∈ available alive m) :
    (m.select alive i).1 = m ∧ ∃ c, (m.select alive i).2 = some c ∧
    SelectsAvailable alive m (some c) := by
  obtain ⟨o,ho,halive,rfl⟩ := mem_available.mp hi
  rw [select_of_mem alive h ho,if_pos halive]
  exact ⟨rfl,o.conn,rfl,selectsAvailable_some ho halive⟩

theorem select_of_notMem_available (h : m.Consistent) (hcnt : cnt≤127) (hi : i ∉ available alive m) :
    (m.select alive i).2 = none ∧ LeftOf alive m (m.select alive i).1 ∧
      gone alive (m.select alive i).1 = (gone alive m).erase i := by
  by_cases hid : ∀ o∈m.ownerVec, o.id.val≠i
  · rw [select_of_absent alive h hid]
    refine ⟨rfl,LeftOf.refl h,(Finset.erase_eq_of_notMem fun hmem => ?_).symm⟩
    obtain ⟨o,ho,-,heq⟩ := mem_gone.mp hmem
    exact hid o ho heq
  · push Not at hid
    obtain ⟨o,ho,rfl⟩ := hid
    have hdead : alive o.conn = false := by
      by_contra halive
      exact hi (mem_available.mpr ⟨o,ho,by simpa using halive,rfl⟩)
    have huuid : ∀ u ∈ (none : Option (BitVec 32)), u=o.uuid := by simp
    obtain ⟨hcons,hperm⟩ := eraseOwner_spec h hcnt ho huuid
    have hmem : ∀ o', o'∈m.ownerVec ↔ o'=o ∨ o' ∈ (m.eraseOwner o.id none).ownerVec := by
      intro o'
      rw [hperm.mem_iff,List.mem_cons]
    have hnot : ∀ o' ∈ (m.eraseOwner o.id none).ownerVec, o'.id≠o.id := by
      intro o' ho' heq
      have hnodup := (hperm.map Owner.id).nodup_iff.mp h.nodup
      rw [List.map_cons,List.nodup_cons] at hnodup
      have hmem := List.mem_map_of_mem (f := Owner.id) ho'
      rw [heq] at hmem
      exact hnodup.1 hmem
    rw [select_of_mem alive h ho,if_neg (by simp [hdead])]
    refine ⟨rfl,⟨hcons,fun o' ho' => (hmem o').mpr (.inr ho'),?_⟩,?_⟩
    · ext i
      simp only [mem_available,hmem]
      constructor
      · rintro ⟨o',ho',halive⟩
        exact ⟨o',.inr ho',halive⟩
      · rintro ⟨o',rfl | ho',halive,hid⟩
        · exact absurd halive (by simp [hdead])
        · exact ⟨o',ho',halive,hid⟩
    · ext i
      simp only [mem_gone,hmem,Finset.mem_erase]
      constructor
      · rintro ⟨o',ho',hgone,rfl⟩
        exact ⟨fun heq => hnot o' ho' (Fin.ext heq),o',.inr ho',hgone,rfl⟩
      · rintro ⟨hne,o',rfl | ho',hgone,rfl⟩
        · exact absurd rfl hne
        · exact ⟨o',ho',hgone,rfl⟩

theorem ownerVec_ne_nil_of_available (h : (available alive m).Nonempty) : m.ownerVec≠[] := by
  obtain ⟨i,hi⟩ := h
  obtain ⟨o,ho,-⟩ := mem_available.mp hi
  exact List.ne_nil_of_mem ho

theorem settled_select (h : m.Consistent) (hcnt : cnt≤127) (i : ℕ) :
    (∃ rst, (m.select alive i).1.settled (m.select alive i).2 = some rst ∧ SelectsAvailable alive m rst) ∨
      (m.select alive i).1.settled (m.select alive i).2 = none ∧ i ∉ available alive m ∧
        (m.select alive i).1.ownerVec ≠ [] ∧ LeftOf alive m (m.select alive i).1 ∧
          gone alive (m.select alive i).1 = (gone alive m).erase i := by
  by_cases hi : i ∈ available alive m
  · obtain ⟨-,c,hc,hright⟩ := select_of_mem_available h hi
    exact .inl ⟨some c,by rw [hc]; rfl,hright⟩
  · obtain ⟨hnone,hleft,hgone⟩ := select_of_notMem_available h hcnt hi
    rw [hnone,settled]
    by_cases hempty : (m.select alive i).1.ownerVec = []
    · refine .inl ⟨none,by simp [hempty],hleft.selectsAvailable ?_⟩
      intro o ho
      rw [hempty] at ho
      exact absurd ho List.not_mem_nil
    · exact .inr ⟨by simp [hempty],hi,hempty,hleft,hgone⟩

theorem settled_select_of_notMem (h : m.Consistent) (hcnt : cnt≤127)
    (hne : (available alive m).Nonempty) (hi : i ∉ available alive m) :
    (m.select alive i).1.settled (m.select alive i).2 = none := by
  obtain ⟨hnone,hleft,-⟩ := select_of_notMem_available h hcnt hi
  have hvec : (m.select alive i).1.ownerVec ≠ [] :=
    ownerVec_ne_nil_of_available (hleft.available_eq ▸ hne)
  rw [hnone,settled]
  simp [hvec]

theorem remainder_of_pos (random : ℕ) {size : ℕ} (h : 0<size) :
    remainder random size = some (random % size) := by
  rw [remainder,if_neg (by omega)]

theorem exists_pick (hne : m.ownerVec≠[]) (random : ℕ → ℕ) (n tries j : ℕ) :
    ∃ p, m.pick random n tries j = some p ∧ p.1 < m.ownerVec.length := by
  have hpos := List.length_pos_iff.mpr hne
  induction tries generalizing j with
  | zero =>
    rw [pick,remainder_of_pos _ hpos]
    exact ⟨_,rfl,Nat.mod_lt _ hpos⟩
  | succ tries ih =>
    rw [pick,remainder_of_pos _ hpos,Option.bind_some]
    split_ifs
    · exact ih (j+1)
    · exact ⟨_,rfl,Nat.mod_lt _ hpos⟩
    · exact ⟨_,rfl,Nat.mod_lt _ hpos⟩

theorem exists_pick_eq {random : ℕ → ℕ} (hi : i < m.ownerVec.length) (hrandom : ∀ j, random j = i)
    (n tries j : ℕ) : ∃ t, m.pick random n tries j = some (i, t) := by
  have hrem : ∀ j, remainder (random j) m.ownerVec.length = some i := by
    intro j
    rw [remainder_of_pos _ (by omega),hrandom,Nat.mod_eq_of_lt hi]
  induction tries generalizing j with
  | zero => exact ⟨0,by rw [pick,hrem]; rfl⟩
  | succ tries ih =>
    rw [pick,hrem,Option.bind_some]
    split_ifs
    · exact ih (j+1)
    · exact ⟨_,rfl⟩
    · exact ⟨_,rfl⟩

variable (alive) in
theorem probes_spec (h : m.Consistent) (hcnt : cnt≤127) (hne : m.ownerVec≠[]) (c : Choices)
    (n tries : ℕ) : ∃ p, probes alive c n tries m = some p ∧
      ((∃ rst, p.2 = some rst ∧ SelectsAvailable alive m rst) ∨
        p.2 = none ∧ p.1.ownerVec≠[] ∧ LeftOf alive m p.1 ∧
          Missed (available alive m) (n+1) (gone alive m) (gone alive p.1)) := by
  induction n generalizing m tries with
  | zero =>
    obtain ⟨⟨i,t⟩,hpick,hlt⟩ := exists_pick hne (c.probe 0) 0 tries 0
    rw [probes,hpick]
    refine ⟨_,rfl,?_⟩
    dsimp only
    rcases settled_select h hcnt i with hend | ⟨hnone,hi,hvec,hleft,hgone⟩
    · exact .inl hend
    · refine .inr ⟨hnone,hvec,hleft,.look i ?_ hi ?_⟩
      · rwa [h.size_eq]
      · rw [hgone]
        exact .done _
  | succ n ih =>
    obtain ⟨⟨i,t⟩,hpick,hlt⟩ := exists_pick hne (c.probe (n+1)) (n+1) tries 0
    rw [probes,hpick,Option.bind_some]
    dsimp only
    rcases settled_select h hcnt i with ⟨rst,hend,hright⟩ | ⟨hnone,hi,hvec,hleft,hgone⟩
    · rw [hend]
      exact ⟨_,rfl,.inl ⟨rst,rfl,hright⟩⟩
    · rw [hnone]
      obtain ⟨p,hp,hrest⟩ := ih hleft.consistent hvec t
      refine ⟨p,hp,?_⟩
      rcases hrest with ⟨rst,hend,hright⟩ | ⟨hend,hvec',hleft',hmissed⟩
      · exact .inl ⟨rst,hend,hleft.selectsAvailable hright⟩
      · refine .inr ⟨hend,hvec',hleft.trans hleft',.look i ?_ hi ?_⟩
        · rwa [h.size_eq]
        · rwa [hleft.available_eq,hgone] at hmissed

theorem exists_probes_of_missed (h : m.Consistent) (hcnt : cnt≤127)
    (hne : (available alive m).Nonempty) {n : ℕ} {D : Finset ℕ}
    (hmissed : Missed (available alive m) (n+1) (gone alive m) D) :
    ∃ drawn : ℕ → ℕ, ∀ (c : Choices) (tries : ℕ), (∀ k≤n, ∀ j, c.probe k j = drawn k) →
      ∃ m', probes alive c n tries m = some (m', none) ∧ LeftOf alive m m' ∧ gone alive m' = D := by
  induction n generalizing m with
  | zero =>
    obtain _ | ⟨i,hlt,hi,hrest⟩ := hmissed
    cases hrest
    refine ⟨fun _ => i,fun c tries hc => ?_⟩
    rw [h.size_eq] at hlt
    obtain ⟨t,hpick⟩ := exists_pick_eq hlt (hc 0 (Nat.le_refl 0)) 0 tries 0
    obtain ⟨-,hleft,hgone⟩ := select_of_notMem_available h hcnt hi
    rw [probes,hpick]
    refine ⟨_,?_,hleft,hgone⟩
    rw [Option.map_some]
    dsimp only
    rw [settled_select_of_notMem h hcnt hne hi]
  | succ n ih =>
    obtain _ | ⟨i,hlt,hi,hrest⟩ := hmissed
    rw [h.size_eq] at hlt
    obtain ⟨-,hleft,hgone⟩ := select_of_notMem_available h hcnt hi
    rw [← hleft.available_eq,← hgone] at hrest
    obtain ⟨drawn,hdrawn⟩ := ih hleft.consistent (by rwa [hleft.available_eq]) hrest
    refine ⟨Function.update drawn (n+1) i,fun c tries hc => ?_⟩
    have hfirst : ∀ j, c.probe (n+1) j = i := by
      intro j
      rw [hc (n+1) (Nat.le_refl _) j,Function.update_self]
    obtain ⟨t,hpick⟩ := exists_pick_eq hlt hfirst (n+1) tries 0
    obtain ⟨m',hm',hleft',hgone'⟩ := hdrawn c t fun k hk j => by
      rw [hc k (by omega) j,Function.update_of_ne (by omega)]
    refine ⟨m',?_,hleft.trans hleft',hgone'⟩
    rw [probes,hpick,Option.bind_some]
    dsimp only
    rw [settled_select_of_notMem h hcnt hne hi]
    exact hm'

variable (alive) in
theorem sweep_spec (h : m.Consistent) (hcnt : cnt≤127) (hne : m.ownerVec≠[]) (reverse : Bool)
    (passes n : ℕ) : (∃ rst, (sweep alive reverse passes n m).2 = some rst ∧
      SelectsAvailable alive m rst) ∨
      (sweep alive reverse passes n m).2 = none ∧ (sweep alive reverse passes n m).1.ownerVec ≠ [] ∧
        LeftOf alive m (sweep alive reverse passes n m).1 ∧
          ShrinkingCrowds.sweep (available alive m) reverse passes n (gone alive m) =
            some (gone alive (sweep alive reverse passes n m).1) := by
  induction passes generalizing m n with
  | zero => exact .inr ⟨rfl,hne,LeftOf.refl h,rfl⟩
  | succ passes ih =>
    rw [sweep,ShrinkingCrowds.sweep,h.size_eq]
    by_cases hn : n < m.ownerVec.length
    swap
    · rw [if_neg hn,if_neg hn]
      exact .inr ⟨rfl,hne,LeftOf.refl h,rfl⟩
    rw [if_pos hn,if_pos hn]
    generalize (if reverse=true then m.ownerVec.length - n - 1 else n) = i
    dsimp only
    rcases settled_select h hcnt i with ⟨rst,hend,hright⟩ | ⟨hnone,hi,hvec,hleft,hgone⟩
    · rw [hend]
      exact .inl ⟨rst,rfl,hright⟩
    · rw [hnone,if_neg hi,← hgone,← hleft.available_eq]
      rcases ih hleft.consistent hvec (n+1) with ⟨rst,hend,hright⟩ | ⟨hend,hvec',hleft',hs⟩
      · exact .inl ⟨rst,hend,hleft.selectsAvailable hright⟩
      · exact .inr ⟨hend,hvec',hleft.trans hleft',hs⟩

theorem sweep_of_missed (h : m.Consistent) (hcnt : cnt≤127) (hne : (available alive m).Nonempty)
    {reverse : Bool} {passes n : ℕ} {D : Finset ℕ}
    (hs : ShrinkingCrowds.sweep (available alive m) reverse passes n (gone alive m) = some D) :
    (sweep alive reverse passes n m).2 = none ∧ LeftOf alive m (sweep alive reverse passes n m).1 ∧
      gone alive (sweep alive reverse passes n m).1 = D := by
  induction passes generalizing m n with
  | zero => exact ⟨rfl,LeftOf.refl h,Option.some.inj hs⟩
  | succ passes ih =>
    rw [ShrinkingCrowds.sweep,h.size_eq] at hs
    rw [sweep]
    by_cases hn : n < m.ownerVec.length
    swap
    · rw [if_neg hn] at hs ⊢
      exact ⟨rfl,LeftOf.refl h,Option.some.inj hs⟩
    rw [if_pos hn] at hs ⊢
    generalize (if reverse=true then m.ownerVec.length - n - 1 else n) = i at hs ⊢
    dsimp only at hs ⊢
    by_cases hi : i ∈ available alive m
    · rw [if_pos hi] at hs
      exact absurd hs (by simp)
    rw [if_neg hi] at hs
    obtain ⟨-,hleft,hgone⟩ := select_of_notMem_available h hcnt hi
    rw [settled_select_of_notMem h hcnt hne hi]
    rw [← hleft.available_eq] at hne
    rw [← hgone,← hleft.available_eq] at hs
    obtain ⟨hend,hleft',hgone'⟩ := ih hleft.consistent hne hs
    exact ⟨hend,hleft.trans hleft',hgone'⟩

variable (alive) in
theorem randomSelect_spec (h : m.Consistent) (hcnt : cnt≤127) (c : Choices) :
    ∃ p, m.randomSelect alive c = some p ∧ (SelectsAvailable alive m p.2 ∨ (available alive m).Nonempty ∧
      CanMiss (available alive m) (gone alive m) (m.ownerVec.length / 2 + 1)) := by
  unfold randomSelect
  by_cases hempty : m.ownerVec=[]
  · rw [if_pos (by simp [hempty])]
    refine ⟨_,rfl,.inl fun o ho => ?_⟩
    rw [hempty] at ho
    exact absurd ho List.not_mem_nil
  rw [if_neg (by simp [hempty])]
  obtain ⟨⟨m₁,r₁⟩,hprobes,hr⟩ := probes_spec alive h hcnt hempty c (m.ownerVec.length / 2) 2
  rw [hprobes,Option.bind_some]
  dsimp only at hr ⊢
  rcases hr with ⟨rst,rfl,hright⟩ | ⟨rfl,hvec,hleft,hmissed⟩
  · exact ⟨_,rfl,.inl hright⟩
  dsimp only
  rcases sweep_spec alive hleft.consistent hcnt hvec c.reverse m₁.ownerVec.length 0 with
    ⟨rst,hend,hright⟩ | ⟨hend,hvec',hleft',hs⟩
  · rw [hend]
    exact ⟨_,rfl,.inl (hleft.selectsAvailable hright)⟩
  rw [hend]
  dsimp only
  generalize sweep alive c.reverse m₁.ownerVec.length 0 m₁ = q at hvec' hleft' hs ⊢
  have hpos := List.length_pos_iff.mpr hvec'
  rw [remainder_of_pos _ hpos]
  refine ⟨_,rfl,?_⟩
  have hlt : c.last % q.1.ownerVec.length < q.1.ownerVec.length := Nat.mod_lt _ hpos
  generalize c.last % q.1.ownerVec.length = i at hlt ⊢
  have hq := hleft.trans hleft'
  by_cases hi : i ∈ available alive q.1
  · obtain ⟨-,c,hc,hright⟩ := select_of_mem_available hleft'.consistent hi
    rw [hc]
    exact .inl (hq.selectsAvailable hright)
  by_cases hne : (available alive m).Nonempty
  swap
  · obtain ⟨hnone,-⟩ := select_of_notMem_available hleft'.consistent hcnt hi
    rw [hnone,selectsAvailable_none_iff]
    exact .inl (Finset.not_nonempty_iff_eq_empty.mp hne)
  · refine .inr ⟨hne,gone alive m₁,hmissed,c.reverse,gone alive q.1,?_,i,?_,?_⟩
    · rw [← hleft.available_eq,hleft.consistent.size_eq]
      exact hs
    · rwa [← hq.available_eq,hq.consistent.size_eq]
    · rwa [← hq.available_eq]

theorem exists_randomSelect_of_canMiss (h : m.Consistent) (hcnt : cnt≤127)
    (hne : (available alive m).Nonempty)
    (hmiss : CanMiss (available alive m) (gone alive m) (m.ownerVec.length / 2 + 1)) :
    ∃ c p, m.randomSelect alive c = some p ∧ p.2=none := by
  obtain ⟨D₁,hmissed,reverse,D₂,hs,j,hj,hjA⟩ := hmiss
  obtain ⟨drawn,hdrawn⟩ := exists_probes_of_missed h hcnt hne hmissed
  obtain ⟨m₁,hprobes,hleft,rfl⟩ := hdrawn ⟨fun k _ => drawn k,reverse,j⟩ 2 fun k _ j => rfl
  rw [← hleft.available_eq] at hne hs hj hjA
  rw [hleft.consistent.size_eq] at hs
  obtain ⟨hend,hleft',rfl⟩ := sweep_of_missed hleft.consistent hcnt hne hs
  refine ⟨⟨fun k _ => drawn k,reverse,j⟩,(sweep alive reverse m₁.ownerVec.length 0 m₁).1.select
    alive j,?_⟩
  have hvec : m.ownerVec≠[] := ownerVec_ne_nil_of_available (hleft.available_eq ▸ hne)
  rw [randomSelect,if_neg (by simp [hvec]),hprobes,Option.bind_some]
  dsimp only
  rw [hend]
  rw [← hleft'.available_eq] at hj hjA
  rw [hleft'.consistent.size_eq] at hj
  rw [remainder_of_pos _ (by omega),Nat.mod_eq_of_lt hj,Option.map_some]
  obtain ⟨hnone,-⟩ := select_of_notMem_available hleft'.consistent hcnt hjA
  exact ⟨rfl,hnone⟩

/-- No way to drop dead owners in the first loop lets one of the sweeps pass over the ids that are
available. -/
def SearchMeets (alive : Conn → Bool) (m : OwnerMap Conn cnt) : Prop :=
  ∀ E, Droppable (available alive m) (gone alive m) (m.ownerVec.length / 2 + 1) E →
    SweepsMeet (available alive m) (gone alive m \ E)

theorem searchMeets_of_first_two (h : m.Consistent) (h0 : 0 ∈ available alive m)
    (h1 : 1 ∈ available alive m) : SearchMeets alive m := by
  intro E _
  have hpos : 0 < size (available alive m) (gone alive m \ E) := by
    have := Finset.card_pos.mpr ⟨0,h0⟩
    unfold size
    omega
  constructor
  · refine ⟨0,h0,?_⟩
    rwa [ShrinkingCrowds.deadBetween_self]
  · refine ⟨0,h0,0,Even.zero,hpos,fun j _ _ => by omega,fun _ hmem => ?_⟩
    exact Finset.disjoint_left.mp h.disjoint h1 (Finset.mem_sdiff.mp hmem).1

/-- Whatever is drawn, `random_select` ends and returns a connection of an available owner, if
there is one, just when no owner is available or the sweeps meet one of them. -/
theorem available_owner_found_iff (alive : Conn → Bool) (m : OwnerMap Conn cnt) (h : m.Consistent)
    (hcnt : cnt≤127) : (∀ c, ∃ p, m.randomSelect alive c = some p ∧ SelectsAvailable alive m p.2) ↔
      available alive m = ∅ ∨ SearchMeets alive m := by
  have hmiss : (available alive m).Nonempty →
      (CanMiss (available alive m) (gone alive m) (m.ownerVec.length / 2 + 1) ↔
        ¬ SearchMeets alive m) := by
    intro hne
    have := ShrinkingCrowds.canMiss_iff h.disjoint hne
    rw [h.size_eq] at this
    rw [this,SearchMeets]
    push Not
    rfl
  constructor
  · intro hall
    by_contra hcon
    rw [not_or,← Ne,← Finset.nonempty_iff_ne_empty] at hcon
    obtain ⟨c,p',hc,hnone⟩ := exists_randomSelect_of_canMiss h hcnt hcon.1 ((hmiss hcon.1).mpr hcon.2)
    obtain ⟨p,hp,hright⟩ := hall c
    rw [hc] at hp
    cases hp
    rw [hnone,selectsAvailable_none_iff] at hright
    exact hcon.1.ne_empty hright
  · intro hcond c
    obtain ⟨p,hp,hright⟩ := randomSelect_spec alive h hcnt c
    refine ⟨p,hp,?_⟩
    refine hright.resolve_right ?_
    rintro ⟨hne,hcan⟩
    exact (hmiss hne).mp hcan (hcond.resolve_left hne.ne_empty)

/-- The owners 0 and 1 are connected and owner 2 is not; looks at owner 2 do not end the search. -/
theorem dead_owner_passed_over :
    let m : OwnerMap ℕ 8 := ((create.insert eightIds 0).insert eightIds 2).insert eightIds 1
    let alive : ℕ → Bool := fun c => c != 2
    ∃ p, m.randomSelect alive ⟨fun _ _ => 2,true,1⟩ = some p ∧ SelectsAvailable alive m p.2 := by
  intro m alive
  have hm : m.Consistent :=
    ((consistent_create.insert (by decide) 0).insert (by decide) 2).insert (by decide) 1
  refine (available_owner_found_iff alive m hm (by decide)).mpr (.inr ?_) _
  apply searchMeets_of_first_two hm <;> decide

/-- The only owner is connected and has the id 5; every look is at the id 0. -/
theorem connected_owner_missed :
    let m : OwnerMap ℕ 8 := create.insert eightIds 5
    (m.randomSelect (fun _ => true) ⟨fun _ _ => 0,false,0⟩).map Prod.snd = some none ∧
      ¬ SelectsAvailable (fun _ => true) m none := by
  intro m
  refine ⟨by decide,fun h => ?_⟩
  exact h (eightIds.owner 5) (by simp [m,OwnerMap.insert,create,index]) ⟨rfl,by decide⟩

end P2Streaming.OwnerMap
