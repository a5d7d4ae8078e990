import P2Streaming.Uri

/-!
# Dot segments and the authority of a url

`normalize` resolves `..` among all tokens of a url, those of the scheme and the authority included.
-/
namespace P2Streaming.Uri
open BigEndianBytes BoundedLoops Http List

/-! ### Slashes -/

/-- A character in front of a string in which no slash follows another. -/
def push (c : Byte) (s : List Byte) : List Byte := if c=47 ∧ s.head? = some 47 then s else c :: s

def squeeze (s : List Byte) : List Byte := s.foldr push []

variable (s : List Byte)

theorem push_push : push 47 (push 47 s) = push 47 s := by
  unfold push
  split_ifs with h <;> simp_all

theorem squeeze_replaceSlashes : squeeze (replaceSlashes s) = squeeze s := by
  induction s using replaceSlashes.induct with
  | case1 | case2 => rfl
  | case3 c d rest h ih =>
    obtain ⟨rfl,rfl⟩ := h
    show push 47 (squeeze (replaceSlashes rest)) = push 47 (push 47 (squeeze rest))
    rw [ih,push_push]
  | case4 c d rest h ih =>
    rw [replaceSlashes,if_neg h]
    exact congrArg (push c) ih

theorem length_replaceSlashes_le : (replaceSlashes s).length ≤ s.length := by
  induction s using replaceSlashes.induct with
  | case1 | case2 => rfl
  | case3 c d rest h ih =>
    rw [replaceSlashes,if_pos h]
    simp only [length_cons]
    omega
  | case4 c d rest h ih =>
    rw [replaceSlashes,if_neg h]
    exact Nat.succ_le_succ ih

theorem replaceSlashes_eq_self {s : List Byte} (hs : (replaceSlashes s).length = s.length) :
    replaceSlashes s = s ∧ squeeze s = s := by
  induction s using replaceSlashes.induct with
  | case1 => exact ⟨rfl,rfl⟩
  | case2 c => exact ⟨rfl,by simp [squeeze,push]⟩
  | case3 c d rest h ih =>
    have hle := length_replaceSlashes_le rest
    rw [replaceSlashes,if_pos h] at hs
    simp only [length_cons] at hs
    omega
  | case4 c d rest h ih =>
    rw [replaceSlashes,if_neg h] at hs ⊢
    obtain ⟨hrest,hsqueeze⟩ := ih (Nat.succ_injective hs)
    refine ⟨congrArg (c :: ·) hrest,?_⟩
    show push c (squeeze (d::rest)) = _
    rw [hsqueeze,push,if_neg (by simpa using h)]

theorem loop_slashTurn {fuel : ℕ} (hfuel : s.length<fuel) :
    (loop slashTurn fuel (s, s.length)).1 = squeeze s := by
  induction fuel generalizing s with
  | zero => exact absurd hfuel (Nat.not_lt_zero _)
  | succ fuel ih =>
    by_cases hs : (replaceSlashes s).length = s.length
    · have hturn : slashTurn (s, s.length) = .leave (replaceSlashes s, s.length) := if_pos hs
      obtain ⟨hself,hsqueeze⟩ := replaceSlashes_eq_self hs
      rw [loop,hturn,hsqueeze]
      exact hself
    · have hturn : slashTurn (s, s.length) = .again (replaceSlashes s, (replaceSlashes s).length) :=
        if_neg hs
      have hle := length_replaceSlashes_le s
      rw [loop,hturn,← squeeze_replaceSlashes s]
      exact ih (replaceSlashes s) (by omega)

/-- The tokens that are left when slashes have been replaced: empty ones are gone, but for the last. -/
def kept : List (List Byte) → List (List Byte)
  | [] => []
  | p :: ps => if p=[] ∧ ps≠[] then kept ps else p :: kept ps

theorem kept_eq_nil {ps : List (List Byte)} : kept ps = [] ↔ ps=[] := by
  induction ps with
  | nil => exact Iff.rfl
  | cons p ps ih =>
    rw [kept]
    split_ifs with h
    · simp [ih,h.2]
    · simp

theorem joinTokens_cons (x : List Byte) {ps : List (List Byte)} (h : ps≠[]) :
    joinTokens (x::ps) = x ++ 47 :: joinTokens ps := by
  obtain ⟨p,ps,rfl⟩ := exists_cons_of_ne_nil h
  rfl

theorem squeeze_append {x : List Byte} (hx : 47 ∉ x) (s : List Byte) :
    squeeze (x++s) = x ++ squeeze s := by
  induction x with
  | nil => rfl
  | cons c x ih =>
    have hc : c≠47 := fun h => hx (h ▸ mem_cons_self)
    show push c (squeeze (x++s)) = _
    rw [ih (not_mem_of_not_mem_cons hx),push,if_neg (fun h => hc h.1)]
    rfl

theorem push_joinTokens {p : List Byte} (hp : 47 ∉ p) (ps : List (List Byte)) :
    push 47 (joinTokens (p :: kept ps)) = 47 :: joinTokens (kept (p::ps)) := by
  rw [kept]
  split_ifs with h
  · rw [h.1,joinTokens_cons [] (mt kept_eq_nil.mp h.2)]
    rfl
  · rw [push,if_neg]
    rintro ⟨-,hhead⟩
    rcases p with _ | ⟨c,p⟩
    · obtain rfl : ps=[] := by simpa using h
      cases hhead
    · have hc : (joinTokens ((c::p) :: kept ps)).head? = some c := by
        rcases kept ps with _ | ⟨q,qs⟩
        · simp [joinTokens]
        · simp [joinTokens,intercalate_cons_cons]
      rw [hc] at hhead
      exact hp (Option.some.inj hhead ▸ mem_cons_self)

theorem squeeze_joinTokens {x : List Byte} {ps : List (List Byte)} (hx : 47 ∉ x) (hps : ∀ p∈ps, 47 ∉ p) :
    squeeze (joinTokens (x::ps)) = joinTokens (x :: kept ps) := by
  induction ps generalizing x with
  | nil =>
    have h := squeeze_append hx []
    simpa [joinTokens,squeeze,kept] using h
  | cons p ps ih =>
    obtain ⟨hp,hps⟩ := forall_mem_cons.mp hps
    rw [joinTokens_cons x (cons_ne_nil p ps),squeeze_append hx,
      joinTokens_cons x (mt kept_eq_nil.mp (cons_ne_nil p ps)),← push_joinTokens hp,← ih hp hps]
    rfl

theorem replaceFirst_append {x : List Byte} (hx : 58 ∉ x) (pattern substitute t : List Byte) :
    replaceFirst (58::pattern) substitute (x ++ (58 :: pattern ++ t)) = x ++ (substitute++t) := by
  induction x with
  | nil => simp [replaceFirst]
  | cons c x ih =>
    have hc : 58≠c := ne_of_not_mem_cons hx
    rw [cons_append,replaceFirst,if_neg,ih (not_mem_of_not_mem_cons hx)]
    · rfl
    · rw [ isPrefixOf_iff_prefix,cons_prefix_cons]
      exact fun h => hc h.1

/-! ### The tokens of a url -/

def url (scheme authority : List Byte) (segments : List (List Byte)) : List Byte :=
  scheme ++ [58,47,47] ++ joinTokens (authority::segments)

/-- A url without white space around it; a query may belong to the segments. -/
structure IsUrl (scheme authority : List Byte) (segments : List (List Byte)) : Prop where
  scheme_ne_nil : scheme≠[]
  scheme_char : ∀ c∈scheme, isAlnum c ∨ c ∈ ascii "+-."
  authority_ne_nil : authority≠[]
  authority_char : ∀ c∈authority, c≠47 ∧ c≠92
  segments_ne_nil : segments≠[]
  segment_char : ∀ p∈segments, ∀ c∈p, c≠47 ∧ c≠92
  no_space : ∀ c ∈ (joinTokens segments).getLast?, isSpace c = false

section

variable {scheme a b : List Byte} {segs : List (List Byte)}

theorem scheme_char_spec {c : Byte} (h : isAlnum c ∨ c ∈ ascii "+-.") :
    isSpace c = false ∧ c ∉ ascii "@:[/?#\\" := by
  have hall : ∀ c : Byte, isAlnum c ∨ c ∈ ascii "+-." → isSpace c = false ∧ c ∉ ascii "@:[/?#\\" := by
    decide +kernel
  exact hall c h

theorem trim_eq_self {s : List Byte} (hhead : ∀ c ∈ s.head?, isSpace c = false)
    (hlast : ∀ c ∈ s.getLast?, isSpace c = false) : trim s = s := by
  have hdrop : s.dropWhile isSpace = s := by
    rcases s with _ | ⟨c,s⟩
    · rfl
    · rw [dropWhile_cons_of_neg (by simp [hhead c rfl])]
  rw [trim,hdrop,rdropWhile_eq_self_iff]
  intro hs
  simp [hlast _ (List.getLast?_eq_some_getLast hs)]

theorem mem_joinTokens {c : Byte} {ps : List (List Byte)} (h : c ∈ joinTokens ps) :
    c=47 ∨ ∃ p∈ps, c∈p := by
  induction ps with
  | nil => cases h
  | cons p ps ih =>
    rcases eq_or_ne ps [] with rfl | hps
    · exact .inr ⟨p,mem_cons_self,by simpa [joinTokens] using h⟩
    · rw [joinTokens_cons p hps,mem_append,mem_cons] at h
      rcases h with h | h | h
      · exact .inr ⟨p,mem_cons_self,h⟩
      · exact .inl h
      · rcases ih h with h | ⟨q,hq,hc⟩
        · exact .inl h
        · exact .inr ⟨q,mem_cons_of_mem p hq,hc⟩

theorem mem_of_mem_kept {p : List Byte} {ps : List (List Byte)} (h : p ∈ kept ps) : p∈ps := by
  induction ps with
  | nil => exact h
  | cons q qs ih =>
    rw [kept] at h
    split_ifs at h
    · exact mem_cons_of_mem q (ih h)
    · rcases mem_cons.mp h with rfl | h
      · exact mem_cons_self
      · exact mem_cons_of_mem q (ih h)

section
variable (h : IsUrl scheme a segs)
include h

theorem IsUrl.not_mem_scheme {c : Byte} (hc : c ∈ ascii "@:[/?#\\") : c ∉ scheme :=
  fun hmem => (scheme_char_spec (h.scheme_char c hmem)).2 hc

theorem IsUrl.part_char : ∀ p ∈ a :: segs, ∀ c∈p, c≠47 ∧ c≠92 :=
  forall_mem_cons.mpr ⟨h.authority_char,h.segment_char⟩

theorem IsUrl.trim_eq : trim (url scheme a segs) = url scheme a segs := by
  have hscheme := h.scheme_char
  refine trim_eq_self (fun c hc => ?_) (fun c hc => ?_)
  · obtain ⟨d,scheme,rfl⟩ := exists_cons_of_ne_nil h.scheme_ne_nil
    obtain rfl := Option.some.inj hc
    exact (scheme_char_spec (hscheme _ mem_cons_self)).1
  · have hurl : url scheme a segs = scheme ++ [58,47,47] ++ a ++ [47] ++ joinTokens segs := by
      rw [url,joinTokens_cons a h.segments_ne_nil]
      simp
    rw [hurl,List.getLast?_append,List.getLast?_concat] at hc
    rcases hlast : (joinTokens segs).getLast? with _ | d
    · rw [hlast] at hc
      obtain rfl := Option.some.inj hc
      decide
    · rw [hlast] at hc
      obtain rfl := Option.some.inj hc
      exact h.no_space _ hlast

theorem IsUrl.backslash : 92 ∉ url scheme a segs := by
  intro hc
  rw [url,mem_append,mem_append] at hc
  rcases hc with (hc | hc) | hc
  · exact h.not_mem_scheme (by decide) hc
  · simp at hc
  · rcases mem_joinTokens hc with hc | ⟨p,hp,hc⟩
    · cases hc
    · exact (h.part_char p hp _ hc).2 rfl

theorem IsUrl.guarded :
    replaceFirst [58,47] [58,92] ((url scheme a segs).map fun c => if c=92 then 47 else c) =
      joinTokens ((scheme ++ [58,92]) :: a :: segs) := by
  have hmap : (url scheme a segs).map (fun c => if c=92 then 47 else c) = url scheme a segs := by
    refine (map_congr_left fun c hc => if_neg ?_).trans (map_id _)
    rintro rfl
    exact h.backslash hc
  have happend := replaceFirst_append (h.not_mem_scheme (c := 58) (by decide)) [47] [58,
    92] (47 :: joinTokens (a::segs))
  rw [hmap,joinTokens_cons _ (cons_ne_nil a segs),url]
  simpa using happend

/-- The tokens are the scheme with a guarded slash, the authority, and the segments that are not empty. -/
theorem normalize_url : normalize (url scheme a segs) =
    reassemble 0 ((joinTokens (kept segs)).getLast?.getD 47 = 47)
      ((kept segs).foldl resolveToken (resolveToken [scheme ++ [58,92]] a)) := by
  have hguarded := h.guarded
  generalize hS : scheme ++ [58,92] = S at hguarded ⊢
  have hslash : ∀ p ∈ S :: a :: kept segs, 47 ∉ p := by
    refine forall_mem_cons.mpr ⟨fun hc => ?_,forall_mem_cons.mpr ⟨fun hc => (h.authority_char _ hc).1 rfl,
      fun p hp hc => (h.segment_char p (mem_of_mem_kept hp) _ hc).1 rfl⟩⟩
    rw [← hS,mem_append] at hc
    rcases hc with hc | hc
    · exact h.not_mem_scheme (by decide) hc
    · simp at hc
  have hlen : (joinTokens (S :: a :: segs)).length = (url scheme a segs).length := by
    rw [joinTokens_cons _ (cons_ne_nil a segs),url,← hS]
    simp
  have hloop : (loop slashTurn ((url scheme a segs).length + 2)
      (joinTokens (S :: a :: segs), (url scheme a segs).length)).1 =
        joinTokens (S :: a :: kept segs) := by
    rw [← hlen,loop_slashTurn _ (by omega),squeeze_joinTokens (hslash S mem_cons_self)
      fun p hp hc => (h.part_char p hp _ hc).1 rfl,kept,if_neg fun ha => h.authority_ne_nil ha.1]
  have hne : joinTokens (S :: a :: kept segs) = S ++ 47 :: a ++ [47] ++ joinTokens (kept segs) := by
    rw [joinTokens_cons _ (cons_ne_nil a _),joinTokens_cons _ (mt kept_eq_nil.mp h.segments_ne_nil)]
    simp
  have htokens : tokenize (joinTokens (S :: a :: kept segs)) = S :: a :: kept segs := by
    rw [tokenize,if_neg (by rw [hne]; simp),joinTokens,splitOn_intercalate 47 hslash (cons_ne_nil _ _)]
  have hfirst : resolveToken [] S = [S] := by
    have hmem : 92∈S := by simp [← hS]
    rw [resolveToken,if_neg,if_neg]
    · rintro rfl
      simp at hmem
    · rintro rfl
      simp at hmem
  have hheader : ((url scheme a segs).takeWhile (· = 92)).length = 0 := by
    rw [length_eq_zero_iff,eq_nil_iff_forall_not_mem]
    intro c hc
    obtain rfl : c=92 := by simpa using mem_takeWhile_imp hc
    exact h.backslash ((takeWhile_sublist _).mem hc)
  have hlast : (1 < (joinTokens (S :: a :: kept segs)).length &&
    (joinTokens (S :: a :: kept segs)).getLast? = some 47) =
      decide ((joinTokens (kept segs)).getLast?.getD 47 = 47) := by
    rw [hne,List.getLast?_append,List.getLast?_concat]
    have hlong : 1 < (S ++ 47 :: a ++ [47] ++ joinTokens (kept segs)).length := by
      simp only [length_append,length_cons]
      omega
    rw [decide_eq_true hlong,Bool.true_and]
    rcases (joinTokens (kept segs)).getLast? with _ | c <;> simp
  simp only [normalize,h.trim_eq,hguarded,hloop,htokens,hheader,hlast,foldl_cons,hfirst]

end

/-- Behind `depth` segments, no `..` meets the top of the path. -/
def StaysBelow : ℕ → List (List Byte) → Prop
  | _, [] => True
  | depth, p :: ps =>
    if p = [46,46] then 0 < depth ∧ StaysBelow (depth - 1) ps
    else if p = [46] ∨ p=[] then StaysBelow depth ps
    else StaysBelow (depth+1) ps

instance decidableStaysBelow : (depth : ℕ) → (ps : List (List Byte)) → Decidable (StaysBelow depth ps)
  | _, [] => inferInstanceAs (Decidable True)
  | depth, p :: ps =>
    have := decidableStaysBelow (depth - 1) ps
    have := decidableStaysBelow depth ps
    have := decidableStaysBelow (depth+1) ps
    inferInstanceAs (Decidable (if p = [46,46] then 0 < depth ∧ StaysBelow (depth - 1) ps
      else if p = [46] ∨ p=[] then StaysBelow depth ps else StaysBelow (depth+1) ps))

theorem resolve_step (tops : List (List Byte)) (p : List Byte) (ps : List (List Byte)) :
    p = [46,46] ∧ tops=[] ∨ ∃ tops', (StaysBelow tops.length (p::ps) ↔ StaysBelow tops'.length ps) ∧
      ∀ bottom, (kept (p::ps)).foldl resolveToken (tops++bottom) =
      (kept ps).foldl resolveToken (tops'++bottom) := by
  by_cases hempty : p=[]
  · subst hempty
    have hiff : StaysBelow tops.length ([]::ps) ↔ StaysBelow tops.length ps := by
      rw [StaysBelow,if_neg (cons_ne_nil _ _).symm,if_pos (.inr rfl)]
    rcases eq_or_ne ps [] with rfl | hps
    · exact .inr ⟨[]::tops,hiff,fun bottom => rfl⟩
    · exact .inr ⟨tops,hiff,fun bottom => by rw [kept,if_pos ⟨rfl,hps⟩]⟩
  rw [StaysBelow,kept,if_neg (fun h : p=[] ∧ ps ≠ [] => hempty h.1)]
  by_cases hup : p = [46,46]
  · rcases tops with _ | ⟨t,tops⟩
    · exact .inl ⟨hup,rfl⟩
    · refine .inr ⟨tops,?_,fun bottom => ?_⟩
      · rw [if_pos hup]
        exact and_iff_right (Nat.succ_pos _)
      · rw [foldl_cons,resolveToken,if_pos hup,cons_append,if_neg (cons_ne_nil _ _)]
        rfl
  rw [if_neg hup]
  by_cases hdot : p = [46]
  · refine .inr ⟨tops,by rw [if_pos (.inl hdot)],fun bottom => ?_⟩
    rw [foldl_cons,resolveToken,if_neg hup,if_pos hdot]
  · refine .inr ⟨p::tops,by rw [if_neg (not_or.mpr ⟨hdot,hempty⟩)]; rfl,fun bottom => ?_⟩
    rw [foldl_cons,resolveToken,if_neg hup,if_neg hdot]
    rfl

theorem resolve_cases (tops segs : List (List Byte)) :
    (StaysBelow tops.length segs ∧ ∃ tops', ∀ bottom,
      (kept segs).foldl resolveToken (tops++bottom) = tops' ++ bottom) ∨
      ¬StaysBelow tops.length segs ∧ ∃ rest, ∀ a bottom,
        (kept segs).foldl resolveToken (tops ++ a :: bottom) = (kept rest).foldl resolveToken bottom := by
  induction segs generalizing tops with
  | nil => exact .inl ⟨trivial,tops,fun bottom => rfl⟩
  | cons p ps ih =>
    rcases resolve_step tops p ps with ⟨rfl,rfl⟩ | ⟨tops',hiff,hstep⟩
    · refine .inr ⟨?_,ps,fun a bottom => rfl⟩
      simp [StaysBelow]
    · rw [hiff]
      simp only [hstep]
      exact ih tops'

end

/-! ### Reading the authority -/

def Tail (s : List Byte) : Prop := ∀ c ∈ s.head?, c=47

theorem takeWhile_append_of {p : Byte → Bool} {x t : List Byte}
    (h : (∃ c∈x, p c = false) ∨ ∀ c ∈ t.head?, p c = false) :
    (x++t).takeWhile p = x.takeWhile p ∧ (x++t).dropWhile p = x.dropWhile p ++ t := by
  induction x with
  | nil =>
    rcases h with ⟨c,hc,-⟩ | h
    · cases hc
    · rcases t with _ | ⟨c,t⟩
      · exact ⟨rfl,rfl⟩
      · simp [h c rfl]
  | cons d x ih =>
    by_cases hd : p d = true
    · have h' : (∃ c∈x, p c = false) ∨ ∀ c ∈ t.head?, p c = false := by
        refine h.imp_left fun ⟨c,hc,hpc⟩ => ⟨c,(mem_cons.mp hc).resolve_left ?_,hpc⟩
        rintro rfl
        rw [hd] at hpc
        cases hpc
      simp [hd,ih h']
    · simp [hd]

theorem untilAny_append (ends : String) (hends : (ascii ends).contains 47) (x : List Byte)
    {t : List Byte} (ht : Tail t) :
    untilAny ends (x++t) = untilAny ends x ∧ fromAny ends (x++t) = fromAny ends x ++ t :=
  takeWhile_append_of (.inr fun c hc => by rw [ht c hc,hends]; rfl)

theorem Tail.head?_append {t : List Byte} (ht : Tail t) (x : List Byte) {c : Byte} (hc : c≠47) :
    (x++t).head? = some c ↔ x.head? = some c := by
  rcases x with _ | ⟨d,x⟩
  · simp only [nil_append,List.head?_nil,reduceCtorEq,iff_false]
    exact fun h => hc (ht c h)
  · rfl

theorem tail_append_of_head? {x : List Byte} {c : Byte} (h : x.head? = some c) (t : List Byte) :
    (x++t).tail = x.tail ++ t := by
  rcases x with _ | ⟨d,x⟩
  · cases h
  · rfl

theorem takeUserInfo_append (x : List Byte) {t : List Byte} (ht : Tail t) :
    takeUserInfo (x++t) = ((takeUserInfo x).1, (takeUserInfo x).2 ++ t) := by
  obtain ⟨huntil,hfrom⟩ := untilAny_append "@:[/?#" (by decide) x ht
  obtain ⟨huntil',hfrom'⟩ := untilAny_append "@/?#" (by decide) (fromAny "@:[/?#" x) ht
  simp only [takeUserInfo,huntil,hfrom,huntil',hfrom',ht.head?_append _ (show (64 : Byte) ≠ 47 by decide),
    ht.head?_append _ (show (58 : Byte) ≠ 47 by decide)]
  split_ifs with hat hcolon
  · rw [tail_append_of_head? hat]
  · rw [tail_append_of_head? hcolon.2]
  · rfl

/-- A bracket where the host begins is closed. -/
def Closed (s : List Byte) : Prop := (takeUserInfo s).2.head? = some 91 → 93 ∈ (takeUserInfo s).2

theorem parseHost_append (u : Uri) {x t : List Byte} (hx : x.head? = some 91 → 93∈x) (ht : Tail t) :
    parseHost u (x++t) = (parseHost u x).map fun r => (r.1, r.2++t) := by
  by_cases hopen : x.head? = some 91
  · have hclose : 93∈x.tail := by
      obtain ⟨y,rfl⟩ := List.head?_eq_some_iff.mp hopen
      simpa using hx hopen
    obtain ⟨huntil,hfrom⟩ : untilAny "]" (x.tail++t) = untilAny "]" x.tail ∧
        fromAny "]" (x.tail++t) = fromAny "]" x.tail ++ t :=
        takeWhile_append_of (.inl ⟨93,hclose,by decide⟩)
    simp only [parseHost,if_pos hopen,if_pos ((ht.head?_append x (by decide)).mpr hopen),
      tail_append_of_head? hopen,
      huntil,hfrom,ne_eq,ht.head?_append _ (show (93 : Byte) ≠ 47 by decide)]
    by_cases hbracket : (fromAny "]" x.tail).head? = some 93
    · rw [tail_append_of_head? hbracket,(untilAny_append _ (by decide) (fromAny "]" x.tail).tail ht).1]
      split_ifs <;> rfl
    · rw [if_pos hbracket,if_pos hbracket]
      rfl
  · obtain ⟨huntil,hfrom⟩ := untilAny_append ":/?#" (by decide) x ht
    rw [parseHost,parseHost,if_neg hopen,if_neg (mt (ht.head?_append x (by decide)).mp hopen),
      huntil,hfrom]
    rfl

theorem parsePort_append (u : Uri) (x : List Byte) {t : List Byte} (ht : Tail t) :
    parsePort u (x++t) = (parsePort u x).map fun r => (r.1, r.2++t) := by
  by_cases hcolon : x.head? = some 58
  · obtain ⟨huntil,hfrom⟩ := untilAny_append "/?#" (by decide) x.tail ht
    rw [parsePort,parsePort,if_pos hcolon,if_pos ((ht.head?_append x (by decide)).mpr hcolon),
      tail_append_of_head? hcolon,huntil,hfrom]
    split_ifs <;> rfl
  · rw [parsePort,parsePort,if_neg hcolon,if_neg (mt (ht.head?_append x (by decide)).mp hcolon)]
    rfl

/-- The parts of a url that say where a request goes. -/
def names (u : Uri) : List Byte × List Byte × List Byte × List Byte :=
  (u.protocol, u.userInfo, u.host, u.port)

/-- What has been read when an error ends the reading, or not. -/
def result : Except Uri (Uri × List Byte) → Uri
  | .ok r => r.1
  | .error u => u

theorem names_parsePath (u : Uri) (s : List Byte) : (result (parsePath u s)).names = u.names := by
  rw [parsePath]
  split_ifs <;> rfl

theorem names_parseQuery (u : Uri) (s : List Byte) : (result (parseQuery u s)).names = u.names := by
  rw [parseQuery]
  split_ifs <;> rfl

theorem names_parsed (p : List Byte) : (parsed p).names =
    (result (readAuthority (normalize p))).names := by
  unfold parsed fromString
  generalize readAuthority (normalize p) = r
  rcases r with u | ⟨u,s⟩
  · rfl
  have hpath := names_parsePath u s
  simp only [bind,Except.bind]
  generalize parsePath u s = r at hpath ⊢
  rcases r with v | ⟨v,s⟩
  · exact hpath
  have hquery := names_parseQuery v s
  simp only
  generalize parseQuery v s = r at hquery ⊢
  rcases r with w | ⟨w,s⟩
  · exact hquery.trans hpath
  · refine Eq.trans ?_ (hquery.trans hpath)
    simp only [pure,Except.pure]
    split_ifs <;> rfl

theorem names_readAuthority_append (protocol : List Byte) {s x t : List Byte}
    (hs : takeProtocol s = (protocol, x))
    (hst : takeProtocol (s++t) = (protocol, x++t)) (hx : Closed x) (ht : Tail t) :
    (result (readAuthority (s++t))).names = (result (readAuthority s)).names := by
  unfold readAuthority
  rw [hs,hst]
  simp only [takeUserInfo_append x ht,parseHost_append _ hx ht,bind,Except.bind]
  generalize parseHost _ _ = r
  rcases r with u | ⟨u,rest⟩
  · rfl
  simp only [Except.map,parsePort_append u rest ht]
  generalize parsePort u rest = r
  rcases r with v | ⟨v,rest⟩ <;> rfl

/-! ### Paths that stay below their top -/

section

variable {scheme a b : List Byte} {segs : List (List Byte)}

/-- What stands in front of the authority; a letter in front of `://` is taken for a drive. -/
def lead (scheme : List Byte) : List Byte := scheme ++ if scheme.length=1 then [58,47] else [58,47,47]

section
variable (h : IsUrl scheme a segs)
include h

theorem IsUrl.reassemble_eq (appendSlash : Bool) (tops : List (List Byte)) :
    ∃ t, Tail t ∧ reassemble 0 appendSlash (tops ++ [a,scheme ++ [58,92]]) = lead scheme ++ a ++ t := by
  have hcolon : 58 ∉ scheme := h.not_mem_scheme (by decide)
  obtain ⟨t,ht,hjoin⟩ : ∃ t, Tail t ∧ joinTokens (tops ++ [a,scheme ++ [58,92]]).reverse =
      scheme ++ (58 :: [92] ++ (47 :: (a++t))) := by
    rw [reverse_append]
    rcases eq_or_ne tops.reverse [] with htops | htops
    · refine ⟨[],fun c hc => (by cases hc),?_⟩
      rw [htops]
      simp [joinTokens,intercalate_cons_cons]
    · refine ⟨47 :: joinTokens tops.reverse,fun c hc => (Option.some.inj hc).symm,?_⟩
      show joinTokens ((scheme ++ [58,92]) :: a :: tops.reverse) = _
      rw [joinTokens_cons _ (cons_ne_nil _ _),joinTokens_cons _ htops]
      simp
  have hdrive : (if ((scheme ++ ([58,47] ++ 47 :: (a++t))).drop 1).take 3 = [58,47,47] then
      replaceFirst [58,47,47] [58,47] (scheme ++ ([58,47] ++ 47 :: (a++t)))
      else scheme ++ ([58,47] ++ 47 :: (a++t))) = lead scheme ++ (a++t) := by
    rcases scheme with _ | ⟨c,_ | ⟨d,scheme⟩⟩
    · exact absurd rfl h.scheme_ne_nil
    · exact replaceFirst_append hcolon [47,47] [58,47] (a++t)
    · have hd : d≠58 := fun hd => hcolon (by simp [hd])
      rw [if_neg,lead,if_neg (by simp)]
      · simp
      · exact fun htake => hd (List.cons.inj htake).1
  simp only [reassemble,hjoin,replaceFirst_append hcolon,replicate_zero,nil_append,hdrive]
  split_ifs with hslash
  · refine ⟨t ++ [47],?_,by simp⟩
    rcases t with _ | ⟨c,t⟩
    · exact fun c hc => (Option.some.inj hc).symm
    · exact ht
  · exact ⟨t,ht,by simp⟩

theorem IsUrl.span_scheme (ends : String) (hends : ∀ c ∈ ascii ends, c ∈ ascii "@:[/?#\\")
    {d : Byte} (hd : (ascii ends).contains d) (r : List Byte) :
    untilAny ends (scheme ++ d :: r) = scheme ∧ fromAny ends (scheme ++ d :: r) = d :: r := by
  have hscheme : ∀ c∈scheme, (!(ascii ends).contains c) = true := fun c hc => by
    rw [Bool.not_eq_true',← Bool.not_eq_true,contains_iff_mem]
    exact fun hmem => h.not_mem_scheme (hends c hmem) hc
  constructor
  · rw [untilAny,takeWhile_append_of_pos hscheme,takeWhile_cons_of_neg (by rw [hd]; decide),append_nil]
  · rw [fromAny,dropWhile_append_of_pos hscheme,dropWhile_cons_of_neg (by rw [hd]; decide)]

theorem IsUrl.takeProtocol_lead (ha : Closed a) :
    ∃ protocol x, Closed x ∧ ∀ t, takeProtocol (lead scheme ++ a ++ t) = (protocol, x++t) := by
  have hcolon := h.span_scheme ":" (by decide) (d := 58) (by decide)
  by_cases hdrive : scheme.length=1
  · have hlead (t : List Byte) : lead scheme ++ a ++ t = scheme ++ 58 :: 47 :: (a++t) := by
      simp [lead,hdrive]
    refine ⟨[],lead scheme ++ a,fun hopen => ?_,fun t => ?_⟩
    · have hinfo : takeUserInfo (lead scheme ++ a) = ([], lead scheme ++ a) := by
        have hfrom := (h.span_scheme "@:[/?#" (by decide) (d := 58) (by decide) (47 :: (a++[]))).2
        rw [← hlead,append_nil] at hfrom
        simp only [takeUserInfo,hfrom]
        rfl
      rw [hinfo] at hopen
      obtain ⟨c,scheme',hc⟩ := exists_cons_of_ne_nil h.scheme_ne_nil
      have hbracket := h.not_mem_scheme (c := 91) (by decide)
      rw [hc] at hopen hbracket
      exact absurd (Option.some.inj hopen ▸ mem_cons_self) hbracket
    · rw [takeProtocol,hlead,(hcolon _).2,if_neg,← hlead]
      intro htake
      obtain ⟨c,a',hc⟩ := exists_cons_of_ne_nil h.authority_ne_nil
      rw [hc] at htake
      exact (h.authority_char c (hc ▸ mem_cons_self)).1 (by simpa using htake)
  · refine ⟨(trim scheme).map toLower,a,ha,fun t => ?_⟩
    have hlead : lead scheme ++ a ++ t = scheme ++ 58 :: 47 :: 47 :: (a++t) := by
      simp [lead,hdrive]
    rw [takeProtocol,hlead,(hcolon _).1,(hcolon _).2]
    rfl

end

/-- The authority is not taken for a dot segment. -/
def Proper (a : List Byte) : Prop := a ≠ [46] ∧ a ≠ [46,46]

theorem Proper.resolveToken_eq (h : Proper a) (bottom : List (List Byte)) :
    resolveToken bottom a = a :: bottom := by
  rw [resolveToken,if_neg h.2,if_neg h.1]

theorem IsUrl.names_eq (h : IsUrl scheme a segs) (ha : Proper a) (hclosed : Closed a)
    (hstays : StaysBelow 0 segs) :
    (parsed (url scheme a segs)).names = (result (readAuthority (lead scheme ++ a))).names := by
  obtain ⟨-,tops,hresolve⟩ | ⟨hclimbs,-⟩ := resolve_cases [] segs
  · obtain ⟨t,ht,hnormal⟩ := h.reassemble_eq ((joinTokens (kept segs)).getLast?.getD 47 = 47) tops
    obtain ⟨protocol,x,hx,hprotocol⟩ := h.takeProtocol_lead hclosed
    have hnil := hprotocol []
    rw [append_nil,append_nil] at hnil
    rw [names_parsed,normalize_url h,ha.resolveToken_eq,← nil_append [a,_],hresolve,hnormal]
    exact names_readAuthority_append protocol hnil (hprotocol t) hx ht
  · exact absurd hstays hclimbs

/-- The url goes where it would go with an empty path. -/
def SameTarget (scheme a : List Byte) (segs : List (List Byte)) : Prop :=
  (parsed (url scheme a segs)).names = (parsed (url scheme a [[]])).names

theorem IsUrl.root (h : IsUrl scheme a segs) : IsUrl scheme a [[]] :=
  ⟨h.scheme_ne_nil,h.scheme_char,h.authority_ne_nil,h.authority_char,cons_ne_nil _ _,
    fun p hp c hc => by simp [mem_singleton.mp hp] at hc,fun c hc => by cases hc⟩

/-- A path that stays below its top does not change where the url goes. Behind any other path the authority is
gone, so that of all authorities at most one survives. -/
theorem dot_segments_keep_authority (scheme a : List Byte) (segs : List (List Byte))
    (h : IsUrl scheme a segs)
    (ha : Proper a) : (Closed a → StaysBelow 0 segs → SameTarget scheme a segs) ∧
      (¬StaysBelow 0 segs → ∀ b, IsUrl scheme b segs → Proper b → SameTarget scheme a segs →
        SameTarget scheme b segs →
        (parsed (url scheme a [[]])).names = (parsed (url scheme b [[]])).names) := by
  refine ⟨fun hclosed hstays => ?_,fun hclimbs b hb hproper hsame hsame' => ?_⟩
  · rw [SameTarget,h.names_eq ha hclosed hstays,h.root.names_eq ha hclosed (by simp [StaysBelow])]
  · obtain ⟨hstays,-⟩ | ⟨-,rest,hresolve⟩ := resolve_cases [] segs
    · exact absurd hstays hclimbs
    have hnormal : normalize (url scheme a segs) = normalize (url scheme b segs) := by
      rw [normalize_url h,normalize_url hb,ha.resolveToken_eq,hproper.resolveToken_eq,← nil_append (a::_),
        ← nil_append (b::_),hresolve a,hresolve b]
    rw [← hsame,← hsame',names_parsed,names_parsed,hnormal]

/-- A path that goes up as far as it has come down. -/
theorem path_below_top_kept : SameTarget (ascii "http") (ascii "u@h:81") [ascii "a",[],ascii "..",
    ascii "b"] :=
  (dot_segments_keep_authority _ _ _ ⟨by decide,by decide,by decide,by decide,by decide,by decide,
    by decide⟩
    ⟨by decide,by decide⟩).1 (fun hopen => absurd hopen (by decide)) (by decide)

/-- A segment takes the place of the authority behind a `..` at the top of the path, and
of one that is a dot; a bracket that the authority leaves open is closed by the path. -/
theorem authority_replaced :
    (parsed (url (ascii "http") (ascii "good") [ascii "..",ascii "evil",ascii "x"])).host = ascii "evil" ∧
    (parsed (url (ascii "http") (ascii "good") [[]])).host = ascii "good" ∧
    (parsed (url (ascii "http") (ascii ".") [ascii "evil"])).host = ascii "evil" ∧
    (parsed (url (ascii "http") (ascii ".") [[]])).host = [] ∧
    (parsed (url (ascii "http") (ascii "[a") [ascii "b]"])).host = ascii "a/b" ∧
    (parsed (url (ascii "http") (ascii "[a") [[]])).host = [] := by
  decide +kernel

end

end P2Streaming.Uri
