import P2Streaming.SubstreamSubscriptions

/-!
# Subscriber lists

`stream_scheduling` keeps for every substream the connections that have subscribed to it, and sends
them its packets. The lists follow the messages of the connections; on the way through a list the
handlers drop entries whose connection is lost, not connected or hardly alive. The substream ids are
those of the message. The handler of unsubscriptions does not test whether one is negative, and what
it does then is undefined.
-/
namespace P2Streaming
open List

/-- `out_substream_`; it holds weak pointers, and whether one still has a live connection is said
where a message comes. -/
abbrev OutSubstreams (Conn : Type*) := Fin substreamCnt → List Conn

namespace OutSubstreams

variable {Conn : Type*} [DecidableEq Conn]

/-- The search of `on_recvd_media_subscription` in a list, which stops at the connection. -/
def findSubscriber (live : Conn → Bool) (conn : Conn) : List Conn → List Conn × Bool
  | [] => ([], false)
  | c :: lst =>
      if !live c then findSubscriber live conn lst
      else if c=conn then (c::lst, true)
      else (c :: (findSubscriber live conn lst).1, (findSubscriber live conn lst).2)

def addSubscriber (live : Conn → Bool) (conn : Conn) (lst : List Conn) : List Conn :=
  if (findSubscriber live conn lst).2 then (findSubscriber live conn lst).1
  else (findSubscriber live conn lst).1 ++ [conn]

/-- The loop of `on_recvd_media_unsubscription` over a list. -/
def removeSubscriber (live : Conn → Bool) (conn : Conn) : List Conn → List Conn
  | [] => []
  | c :: lst =>
      if !live c then removeSubscriber live conn lst
      else if c=conn then lst
      else c :: removeSubscriber live conn lst

/-- A change of `out_substream_[id]`; without a result the index is out of range. -/
def modify (out : OutSubstreams Conn) (id : ℤ) (f : List Conn → List Conn) :
    Option (OutSubstreams Conn) :=
  if 0 ≤ id ∧ id<substreamCnt then
    some (Function.update out (Fin.ofNat substreamCnt id.toNat)
      (f (out (Fin.ofNat substreamCnt id.toNat))))
  else none

/-- `on_recvd_media_subscription`; a connection without a peer is not heard. -/
def onRecvdMediaSubscription (live : Conn → Bool) (hasPeer : Bool) (conn : Conn) (ids : List ℤ)
    (out : OutSubstreams Conn) : Option (OutSubstreams Conn) :=
  if hasPeer then
    ids.foldlM (fun out id =>
      if 0 ≤ id ∧ id < (substreamCnt : ℤ) then out.modify id (addSubscriber live conn) else some out) out
  else some out

def onRecvdMediaUnsubscription (live : Conn → Bool) (conn : Conn) (ids : List ℤ)
    (out : OutSubstreams Conn) : Option (OutSubstreams Conn) :=
  ids.foldlM (fun out id =>
    if id < (substreamCnt : ℤ) then out.modify id (removeSubscriber live conn) else some out) out

end OutSubstreams

/-- A message of a connected peer, and the connections that are live when it comes. -/
structure MediaMessage (Conn : Type*) where
  subscribes : Bool
  conn : Conn
  ids : List ℤ
  live : Conn → Bool

namespace MediaMessage

variable {Conn : Type*} [DecidableEq Conn]

def receive (out : OutSubstreams Conn) (e : MediaMessage Conn) : Option (OutSubstreams Conn) :=
  if e.subscribes then out.onRecvdMediaSubscription e.live true e.conn e.ids
  else out.onRecvdMediaUnsubscription e.live e.conn e.ids

def run (es : List (MediaMessage Conn)) : Option (OutSubstreams Conn) := es.foldlM receive fun _ => []

/-- The message is one of the connection and names the substream. -/
def names (c : Conn) (i : Fin substreamCnt) (e : MediaMessage Conn) : Bool :=
  e.conn = c && e.ids.contains (i.val : ℤ)

/-- The last message of the connection that names the substream was a subscription. -/
def Subscribed (es : List (MediaMessage Conn)) (c : Conn) (i : Fin substreamCnt) : Prop :=
  ∃ e, es.reverse.find? (names c i) = some e ∧ e.subscribes

/-- The connection has been live at all messages since its last one that names the substream. -/
def LiveSince (es : List (MediaMessage Conn)) (c : Conn) (i : Fin substreamCnt) : Prop :=
  ∀ e ∈ es.reverse.takeWhile fun e => !names c i e, e.live c

/-- No connection stands twice in a list, those in it have subscribed, and those that have
subscribed and have been live are in it. -/
def ListsFollow (es : List (MediaMessage Conn)) (out : OutSubstreams Conn) : Prop :=
  ∀ i, (out i).Nodup ∧ ∀ c, (c ∈ out i → Subscribed es c i) ∧
    (LiveSince es c i → (c ∈ out i ↔ Subscribed es c i))

def inside (e : MediaMessage Conn) : MediaMessage Conn :=
  { e with ids := e.ids.filter fun id : ℤ => 0 ≤ id ∧ id < substreamCnt }

end MediaMessage

/-! ### One list -/

/-- What a message may do to a list it names: the connection is in it or not, as the message says;
of the others some that are not live may go. -/
structure Follows {Conn : Type*} (live : Conn → Bool) (conn : Conn) (subscribes : Bool)
    (lst lst' : List Conn) : Prop where
  nodup : lst'.Nodup
  mem_conn : conn∈lst' ↔ subscribes=true
  mem_of_mem : ∀ c∈lst', c≠conn → c∈lst
  mem_of_live : ∀ c∈lst, live c = true → c≠conn → c∈lst'

theorem Follows.trans {Conn : Type*} {live : Conn → Bool} {conn : Conn} {subscribes : Bool}
    {lst lst' lst'' : List Conn} (h : Follows live conn subscribes lst lst')
    (h' : Follows live conn subscribes lst' lst'') : Follows live conn subscribes lst lst'' where
  nodup := h'.nodup
  mem_conn := h'.mem_conn
  mem_of_mem c hc hne := h.mem_of_mem c (h'.mem_of_mem c hc hne) hne
  mem_of_live c hc hlive hne := h'.mem_of_live c (h.mem_of_live c hc hlive hne) hlive hne

namespace OutSubstreams

variable {Conn : Type*} [DecidableEq Conn] (live : Conn → Bool) (conn : Conn)

theorem findSubscriber_sublist (lst : List Conn) : (findSubscriber live conn lst).1.Sublist lst := by
  induction lst with
  | nil => exact List.Sublist.slnil
  | cons c lst ih =>
    rw [findSubscriber]
    split_ifs
    · exact ih.cons c
    · exact List.Sublist.refl _
    · exact ih.cons_cons c

variable {lst : List Conn}

theorem mem_findSubscriber {c : Conn} (hc : c∈lst) (hlive : live c = true) :
    c ∈ (findSubscriber live conn lst).1 := by
  induction lst with
  | nil => exact absurd hc not_mem_nil
  | cons d lst ih =>
    rw [findSubscriber]
    rcases mem_cons.mp hc with rfl | hc
    · split_ifs <;> simp_all
    · split_ifs
      · exact ih hc
      · exact mem_cons_of_mem _ hc
      · exact mem_cons_of_mem _ (ih hc)

theorem findSubscriber_snd_iff (lst : List Conn) :
    (findSubscriber live conn lst).2 = true ↔ conn ∈ (findSubscriber live conn lst).1 := by
  induction lst with
  | nil => simp [findSubscriber]
  | cons c lst ih =>
    rw [findSubscriber]
    split_ifs with hdead heq
    · exact ih
    · simp [heq]
    · simp [ih,Ne.symm heq]

theorem follows_addSubscriber (h : lst.Nodup) :
    Follows live conn true lst (addSubscriber live conn lst) := by
  have hsub := findSubscriber_sublist live conn lst
  have hiff := findSubscriber_snd_iff live conn lst
  unfold addSubscriber
  split_ifs with hfind
  · exact ⟨h.sublist hsub,iff_of_true (hiff.mp hfind) rfl,fun c hc _ => hsub.subset hc,
      fun c hc hlive _ => mem_findSubscriber live conn hc hlive⟩
  · rw [hiff] at hfind
    refine ⟨?_,iff_of_true (by simp) rfl,fun c hc hne => ?_,fun c hc hlive _ => ?_⟩
    · rw [nodup_append]
      refine ⟨h.sublist hsub,nodup_singleton conn,?_⟩
      intro c hc d hd heq
      rw [mem_singleton] at hd
      subst hd heq
      exact hfind hc
    · simp only [mem_append,mem_singleton,hne,or_false] at hc
      exact hsub.subset hc
    · exact mem_append_left _ (mem_findSubscriber live conn hc hlive)

theorem removeSubscriber_sublist (lst : List Conn) : (removeSubscriber live conn lst).Sublist lst := by
  induction lst with
  | nil => exact List.Sublist.slnil
  | cons c lst ih =>
    rw [removeSubscriber]
    split_ifs
    · exact ih.cons c
    · exact sublist_cons_self c lst
    · exact ih.cons_cons c

theorem follows_removeSubscriber (h : lst.Nodup) :
    Follows live conn false lst (removeSubscriber live conn lst) := by
  have hsub := removeSubscriber_sublist live conn lst
  refine ⟨h.sublist hsub,iff_of_false ?_ (by simp),fun c hc _ => hsub.subset hc,?_⟩
  · clear hsub
    induction lst with
    | nil => exact not_mem_nil
    | cons c lst ih =>
      rw [nodup_cons] at h
      rw [removeSubscriber]
      split_ifs with hdead heq
      · exact ih h.2
      · exact heq ▸ h.1
      · rw [mem_cons,not_or]
        exact ⟨Ne.symm heq,ih h.2⟩
  · clear h hsub
    intro c hc hlive hne
    induction lst with
    | nil => exact absurd hc not_mem_nil
    | cons d lst ih =>
      rw [removeSubscriber]
      rcases mem_cons.mp hc with rfl | hc
      · simp [hlive,hne]
      · split_ifs
        · exact ih hc
        · exact hc
        · exact mem_cons_of_mem _ (ih hc)

/-! ### A message -/

variable {live conn} {f : List Conn → List Conn} {guard : ℤ → Prop} {ids : List ℤ}

omit [DecidableEq Conn] in
/-- The turns for the ids of a message, where the handler's test lets just the substreams pass. -/
theorem foldlM_modify_spec {subscribes : Bool}
    (hf : ∀ lst, lst.Nodup → Follows live conn subscribes lst (f lst)) [DecidablePred guard]
    (hguard : ∀ id∈ids, guard id ↔ 0 ≤ id ∧ id<substreamCnt) (out : OutSubstreams Conn)
    (hout : ∀ i, (out i).Nodup) :
    ∃ out', ids.foldlM (fun out id => if guard id then out.modify id f else some out) out = some out' ∧
      ∀ i : Fin substreamCnt, ((i.val : ℤ) ∈ ids → Follows live conn subscribes (out i) (out' i)) ∧
        ((i.val : ℤ) ∉ ids → out' i = out i) := by
  induction ids generalizing out with
  | nil => exact ⟨out,rfl,fun i => ⟨fun h => absurd h not_mem_nil,fun _ => rfl⟩⟩
  | cons id ids ih =>
    have hrest : ∀ id∈ids, guard id ↔ 0 ≤ id ∧ id<substreamCnt :=
      fun id hid => hguard id (mem_cons_of_mem _ hid)
    rw [foldlM_cons]
    by_cases hin : 0 ≤ id ∧ id<substreamCnt
    · obtain ⟨k,hk⟩ : ∃ k : Fin substreamCnt, (k.val : ℤ) = id := ⟨⟨id.toNat,by omega⟩,by simp; omega⟩
      have hmodify : out.modify id f = some (Function.update out k (f (out k))) := by
        have hofNat : Fin.ofNat substreamCnt id.toNat = k := by
          rw [← hk,Int.toNat_natCast,Fin.ofNat_val_eq_self]
        rw [modify,if_pos hin,hofNat]
      have hturn := hf (out k) (hout k)
      rw [if_pos ((hguard id mem_cons_self).mpr hin),hmodify,Option.bind_eq_bind,Option.bind_some]
      obtain ⟨out',hfold,hall⟩ := ih hrest (Function.update out k (f (out k))) fun i => by
        rw [Function.update_apply]
        split_ifs
        · exact hturn.nodup
        · exact hout i
      refine ⟨out',hfold,fun i => ?_⟩
      have hi := hall i
      by_cases hik : i=k
      · subst hik
        rw [Function.update_self] at hi
        refine ⟨fun _ => ?_,fun hnot => absurd (hk ▸ mem_cons_self) hnot⟩
        by_cases hmem : (i.val : ℤ) ∈ ids
        · exact hturn.trans (hi.1 hmem)
        · rwa [hi.2 hmem]
      · rw [Function.update_of_ne hik] at hi
        have hne : (i.val : ℤ) ≠ id := fun heq => hik (Fin.ext (by omega))
        rw [mem_cons]
        exact ⟨fun h => hi.1 (h.resolve_left hne),fun h => hi.2 fun hmem => h (.inr hmem)⟩
    · rw [if_neg (mt (hguard id mem_cons_self).mp hin),Option.bind_eq_bind,Option.bind_some]
      obtain ⟨out',hfold,hall⟩ := ih hrest out hout
      refine ⟨out',hfold,fun i => ?_⟩
      have hne : (i.val : ℤ) ≠ id := fun heq => hin (by omega)
      rw [mem_cons]
      exact ⟨fun h => (hall i).1 (h.resolve_left hne),fun h => (hall i).2 fun hmem => h (.inr hmem)⟩

omit [DecidableEq Conn] in
theorem foldlM_modify_eq_none [DecidablePred guard] {id : ℤ} (hid : id∈ids) (hneg : id<0)
    (hguard : guard id) (out : OutSubstreams Conn) :
    ids.foldlM (fun out id => if guard id then out.modify id f else some out) out = none := by
  induction ids generalizing out with
  | nil => exact absurd hid not_mem_nil
  | cons first ids ih =>
    rw [foldlM_cons,Option.bind_eq_bind]
    rcases mem_cons.mp hid with rfl | hid
    · rw [if_pos hguard,modify,if_neg (by omega),Option.bind_none]
    · rw [Option.bind_eq_none_iff]
      exact fun out' _ => ih hid out'

omit [DecidableEq Conn] in
theorem foldlM_filter [DecidablePred guard]
    (hguard : ∀ id∈ids, guard id ↔ 0 ≤ id ∧ id<substreamCnt) (out : OutSubstreams Conn) :
    (ids.filter fun id : ℤ => 0 ≤ id ∧ id<substreamCnt).foldlM
        (fun out id => if guard id then out.modify id f else some out) out =
      ids.foldlM (fun out id => if guard id then out.modify id f else some out) out := by
  induction ids generalizing out with
  | nil => rfl
  | cons id ids ih =>
    have hrest : ∀ id∈ids, guard id ↔ 0 ≤ id ∧ id<substreamCnt :=
      fun id hid => hguard id (mem_cons_of_mem _ hid)
    by_cases hin : 0 ≤ id ∧ id<substreamCnt
    · rw [filter_cons_of_pos (by simpa using hin),foldlM_cons,foldlM_cons]
      exact bind_congr fun out' => ih hrest out'
    · rw [filter_cons_of_neg (by simpa using hin),foldlM_cons,
        if_neg (mt (hguard id mem_cons_self).mp hin),ih hrest]
      rfl

end OutSubstreams

namespace MediaMessage
open OutSubstreams

variable {Conn : Type*} [DecidableEq Conn]

def Indexed (e : MediaMessage Conn) : Prop := e.subscribes = false → ∀ id∈e.ids, 0 ≤ id

variable {e : MediaMessage Conn}

theorem receive_spec (he : e.Indexed) {out : OutSubstreams Conn} (hout : ∀ i, (out i).Nodup) :
    ∃ out', receive out e = some out' ∧
      ∀ i : Fin substreamCnt, ((i.val : ℤ) ∈ e.ids →
        Follows e.live e.conn e.subscribes (out i) (out' i)) ∧
        ((i.val : ℤ) ∉ e.ids → out' i = out i) := by
  unfold receive
  cases hsub : e.subscribes with
  | true =>
    exact foldlM_modify_spec (fun lst => follows_addSubscriber e.live e.conn)
      (fun id _ => Iff.rfl) out hout
  | false =>
    refine foldlM_modify_spec (fun lst => follows_removeSubscriber e.live e.conn)
      (fun id hid => ?_) out hout
    have := he hsub id hid
    omega

theorem receive_inside (he : e.Indexed) (out : OutSubstreams Conn) :
    receive out e.inside = receive out e := by
  unfold receive inside
  cases hsub : e.subscribes with
  | true =>
    exact foldlM_filter (fun id _ => Iff.rfl) out
  | false =>
    have hguard : ∀ id∈e.ids, id < (substreamCnt : ℤ) ↔ 0 ≤ id ∧ id<substreamCnt := by
      intro id hid
      have := he hsub id hid
      omega
    exact foldlM_filter hguard out

omit [DecidableEq Conn] in
theorem indexed_inside (e : MediaMessage Conn) : e.inside.Indexed := by
  intro _ id hid
  simp only [inside,mem_filter,decide_eq_true_eq] at hid
  exact hid.2.1

theorem receive_eq_none (he : ¬ e.Indexed) (out : OutSubstreams Conn) : receive out e = none := by
  unfold Indexed at he
  push Not at he
  obtain ⟨hsub,id,hid,hneg⟩ := he
  rw [receive,hsub,if_neg (by decide)]
  have hlt : id < (substreamCnt : ℤ) := by omega
  exact foldlM_modify_eq_none hid hneg hlt out

/-! ### Histories -/

theorem subscribed_append (es : List (MediaMessage Conn)) (e : MediaMessage Conn) (c : Conn)
    (i : Fin substreamCnt) :
    Subscribed (es ++ [e]) c i ↔ if names c i e then e.subscribes = true else Subscribed es c i := by
  unfold Subscribed
  rw [reverse_append,reverse_singleton,singleton_append,List.find?_cons]
  cases names c i e <;> simp

theorem liveSince_append (es : List (MediaMessage Conn)) (e : MediaMessage Conn) (c : Conn)
    (i : Fin substreamCnt) :
    LiveSince (es ++ [e]) c i ↔ (names c i e = false → e.live c = true ∧ LiveSince es c i) := by
  unfold LiveSince
  rw [reverse_append,reverse_singleton,singleton_append,takeWhile_cons]
  cases names c i e <;> simp

theorem ListsFollow.receive {es : List (MediaMessage Conn)} (he : e.Indexed)
    {out : OutSubstreams Conn} (h : ListsFollow es out) :
    ∃ out', receive out e = some out' ∧ ListsFollow (es ++ [e]) out' := by
  obtain ⟨out',hreceive,hall⟩ := receive_spec he fun i => (h i).1
  refine ⟨out',hreceive,fun i => ?_⟩
  obtain ⟨hnodup,hmem⟩ := h i
  simp only [subscribed_append,liveSince_append]
  by_cases hi : (i.val : ℤ) ∈ e.ids
  · have hfollows := (hall i).1 hi
    refine ⟨hfollows.nodup,fun c => ?_⟩
    by_cases hc : e.conn=c
    · have hnames : names c i e = true := by simp [names,hc,hi]
      subst hc
      simp [hnames,hfollows.mem_conn]
    · have hnames : names c i e = false := by simp [names,hc]
      simp only [hnames,Bool.false_eq_true,if_false]
      have hsub : c ∈ out' i → Subscribed es c i :=
        fun hmem' => (hmem c).1 (hfollows.mem_of_mem c hmem' (Ne.symm hc))
      refine ⟨hsub,fun hlive => ⟨hsub,fun hs => ?_⟩⟩
      obtain ⟨hnow,hbefore⟩ := hlive trivial
      exact hfollows.mem_of_live c (((hmem c).2 hbefore).mpr hs) hnow (Ne.symm hc)
  · rw [(hall i).2 hi]
    refine ⟨hnodup,fun c => ?_⟩
    have hnames : names c i e = false := by simp [names,hi]
    simp only [hnames,Bool.false_eq_true,if_false]
    exact ⟨(hmem c).1,fun hlive => (hmem c).2 (hlive trivial).2⟩

theorem run_follows {es : List (MediaMessage Conn)} (h : ∀ e∈es, e.Indexed) :
    ∃ out, run es = some out ∧ ListsFollow es out := by
  induction es using List.reverseRecOn with
  | nil => exact ⟨_,rfl,fun i => ⟨nodup_nil,fun c => ⟨fun h => absurd h not_mem_nil,
    fun _ => by simp [Subscribed]⟩⟩⟩
  | append_singleton es e ih =>
    obtain ⟨out,hrun,hfollow⟩ := ih fun e he => h e (mem_append_left _ he)
    obtain ⟨out',hreceive,hfollow'⟩ := hfollow.receive (h e (by simp))
    refine ⟨out',?_,hfollow'⟩
    rw [run,foldlM_append]
    unfold run at hrun
    rw [hrun]
    simpa using hreceive

/-- The lists follow the messages, and ids outside the range change nothing, just as long as no
unsubscription names a negative id. -/
theorem subscriber_lists_iff (es : List (MediaMessage Conn)) :
    ((∀ n, ∃ out, run (es.take n) = some out ∧ ListsFollow (es.take n) out) ∧
      ∀ e∈es, ∀ out, receive out e = receive out e.inside) ↔
        ∀ e∈es, e.subscribes=false → ∀ id∈e.ids, 0 ≤ id := by
  constructor
  · rintro ⟨-,hinside⟩ e he
    by_contra hcon
    have hnone := hinside e he fun _ => []
    rw [receive_eq_none hcon] at hnone
    have hempty : ∀ i, ((fun _ => [] : OutSubstreams Conn) i).Nodup := fun _ => nodup_nil
    obtain ⟨out',hout',-⟩ := receive_spec e.indexed_inside hempty
    rw [hout'] at hnone
    exact absurd hnone (by simp)
  · intro h
    refine ⟨fun n => run_follows fun e he => h e (mem_of_mem_take he),fun e he out => ?_⟩
    exact (receive_inside (h e he) out).symm

/-- Connection 1 subscribes to substream 0 and then unsubscribes substream -1. -/
theorem negative_id_out_of_range :
    let e : MediaMessage ℕ := ⟨true,1,[0],fun _ => true⟩
    let e' : MediaMessage ℕ := ⟨false,1,[-1],fun _ => true⟩
    (run [e]).isSome ∧ run [e,e'] = none := by
  intro e e'
  refine ⟨by decide,?_⟩
  rfl

end MediaMessage

end P2Streaming
