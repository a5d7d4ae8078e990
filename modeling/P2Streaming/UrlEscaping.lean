import P2Streaming.HttpHeader

/-!
# Escaping in urls

`uri::escape` and `uri::unescape_path` on byte strings. Bytes from 128 on are negative as a `char`,
and no url characters whether or not they are cast.
-/
namespace P2Streaming.Uri
open BigEndianBytes Http List

def isAlnum (c : Byte) : Bool := isDigit c || isUpper c || 97 ≤ c.toNat && c.toNat ≤ 122

/-- `strchr` also finds the zero behind the characters it searches. -/
def isUriChar (c : Byte) : Bool :=
  c.toNat ≤ 128 && (isAlnum c || (ascii "%+;?:@=&, $/-_!.~*()").contains c || c = 0)

/-- `hex`. -/
def hexDigit (n : ℕ) : Byte := (ascii "0123456789ABCDEF").getD n 0

def escapeByte (spaceToPlus : Bool) (c : Byte) : List Byte :=
  if c=32 ∧ spaceToPlus then [43]
  else if c=92 then [47]
  else if isUriChar c ∨ c=43 ∧ !spaceToPlus then [c]
  else [37,hexDigit (c.toNat / 16),hexDigit (c.toNat % 16)]

def escape (src : List Byte) (spaceToPlus : Bool) : List Byte :=
  (src.takeWhile (· ≠ 0)).flatMap (escapeByte spaceToPlus)

def hexValue (c : Byte) : Option ℕ :=
  if 48 ≤ c.toNat ∧ c.toNat≤57 then some (c.toNat - 48)
  else if 97 ≤ c.toNat ∧ c.toNat≤102 then some (c.toNat - 97 + 10)
  else if 65 ≤ c.toNat ∧ c.toNat≤70 then some (c.toNat - 65 + 10)
  else none

/-- `none` where `unescape_path` returns false. -/
def unescapePath : List Byte → Option (List Byte)
  | [] => some []
  | c :: input =>
    if c=37 then
      match input with
      | a :: b :: rest => (hexValue a).bind fun high => (hexValue b).bind fun low =>
          (unescapePath rest).map (BitVec.ofNat 8 (high <<< 4+low) :: ·)
      | _ => none
    else if isUriChar c then (unescapePath input).map (c :: ·)
    else none

theorem unescapePath_percent (a b : Byte) (rest : List Byte) : unescapePath (37 :: a :: b :: rest) =
    (hexValue a).bind fun high => (hexValue b).bind fun low =>
      (unescapePath rest).map (BitVec.ofNat 8 (high <<< 4+low) :: ·) := by
  rw [unescapePath,if_pos rfl]

theorem unescapePath_cons {c : Byte} (hc : c≠37) (rest : List Byte) :
    unescapePath (c::rest) = if isUriChar c then (unescapePath rest).map (c :: ·) else none := by
  rcases rest with _ | ⟨a,_ | ⟨b,rest⟩⟩ <;> simp only [unescapePath,if_neg hc]

theorem hexValue_hexDigit {n : ℕ} (hn : n<16) : hexValue (hexDigit n) = some n := by
  have hall : ∀ n<16, hexValue (hexDigit n) = some n := by decide +kernel
  exact hall n hn

theorem unescapePath_escapeByte {c : Byte} (hpercent : c≠37) (hslash : c≠92) (rest : List Byte) :
    unescapePath (escapeByte false c ++ rest) = (unescapePath rest).map (c :: ·) := by
  rw [escapeByte,if_neg (by simp),if_neg hslash]
  split_ifs with hplain
  · have huri : isUriChar c = true := by
      rcases hplain with h | ⟨rfl,-⟩
      · exact h
      · decide
    rw [singleton_append,unescapePath_cons hpercent,if_pos huri]
  · have hhigh := hexValue_hexDigit (show c.toNat / 16 < 16 by have := c.isLt; omega)
    have hlow := hexValue_hexDigit (show c.toNat % 16 < 16 by omega)
    have hbyte : BitVec.ofNat 8 ((c.toNat / 16) <<< 4 + c.toNat % 16) = c := by
      rw [Nat.shiftLeft_eq,show c.toNat / 16 * 2^4 + c.toNat % 16 = c.toNat by omega,BitVec.ofNat_toNat,
        BitVec.setWidth_eq]
    simp only [cons_append,nil_append]
    rw [unescapePath_percent,hhigh,hlow,Option.bind_some,Option.bind_some,hbyte]

/-- The strings the functions are used on. -/
abbrev Plain (s : List Byte) : Prop := ∀ c∈s, c≠0 ∧ c≠92

theorem Plain.tail {c : Byte} {s : List Byte} (h : Plain (c::s)) : Plain s :=
  fun d hd => h d (mem_cons_of_mem c hd)

theorem escape_cons {c : Byte} {s : List Byte} (h : Plain (c::s)) :
    escape (c::s) false = escapeByte false c ++ escape s false := by
  have hc := (h c mem_cons_self).1
  rw [escape,takeWhile_cons_of_pos (by simpa using hc),flatMap_cons,escape]

theorem unescapePath_escape {s : List Byte} (h : Plain s) (hpercent : 37 ∉ s) :
    unescapePath (escape s false) = some s := by
  induction s with
  | nil => rfl
  | cons c s ih =>
    have hc := ne_of_not_mem_cons hpercent
    rw [escape_cons h,unescapePath_escapeByte (Ne.symm hc) (h c mem_cons_self).2,
      ih h.tail (not_mem_of_not_mem_cons hpercent)]
    rfl

theorem length_of_unescapePath {s t : List Byte} (h : unescapePath s = some t) :
    t.length + 2 * s.count 37 = s.length := by
  have hdigit : ∀ c : Byte, (hexValue c).isSome → c≠37 := by decide +kernel
  induction s using unescapePath.induct generalizing t with
  | case1 =>
    obtain rfl := Option.some.inj h
    rfl
  | case2 a b rest ih =>
    obtain ⟨high,hhigh,h⟩ := Option.bind_eq_some_iff.mp h
    obtain ⟨low,hlow,h⟩ := Option.bind_eq_some_iff.mp h
    obtain ⟨out,hout,rfl⟩ := Option.map_eq_some_iff.mp h
    have ha := hdigit a (by rw [hhigh]; rfl)
    have hb := hdigit b (by rw [hlow]; rfl)
    have hrest := ih hout
    rw [count_cons_self,count_cons_of_ne ha,count_cons_of_ne hb]
    simp only [length_cons]
    omega
  | case3 input hshort =>
    rcases input with _ | ⟨a,_ | ⟨b,rest⟩⟩
    · simp [unescapePath] at h
    · simp [unescapePath] at h
    · exact absurd rfl (hshort a b rest)
  | case4 c input hc huri ih =>
    rw [unescapePath_cons hc,if_pos huri] at h
    obtain ⟨out,hout,rfl⟩ := Option.map_eq_some_iff.mp h
    have hrest := ih hout
    rw [count_cons_of_ne hc]
    simp only [length_cons]
    omega
  | case5 c input hc huri =>
    rw [unescapePath_cons hc,if_neg huri] at h
    simp at h

theorem length_escape {s : List Byte} (h : Plain s) :
    (escape s false).length + 2 * s.count 37 = s.length + 2 * (escape s false).count 37 := by
  have hbyte : ∀ c : Byte, (escapeByte false c).length + 2 * [c].count 37 = 1 + 2 *
    (escapeByte false c).count 37 := by
    decide +kernel
  induction s with
  | nil => rfl
  | cons c s ih =>
    have hrest := ih h.tail
    have hc := hbyte c
    rw [escape_cons h,length_append,count_append,length_cons,← singleton_append,
      count_append]
    omega

/-- Escaping is reversible exactly for the strings without `%`, and injective on them. -/
theorem unescapePath_escape_iff (s : List Byte) (h : Plain s) :
    (unescapePath (escape s false) = some s ↔ 37 ∉ s) ∧
      ∀ t, Plain t → 37 ∉ s → 37 ∉ t → escape s false = escape t false → s=t := by
  refine ⟨⟨fun hback => ?_,unescapePath_escape h⟩,fun t ht hs hpercent heq => ?_⟩
  · have hread := length_of_unescapePath hback
    have hwritten := length_escape h
    exact count_eq_zero.mp (by omega)
  · have hback := unescapePath_escape h hs
    rw [heq,unescapePath_escape ht hpercent] at hback
    exact (Option.some.inj hback).symm

/-- A string that needs escapes. -/
theorem question_escaped_and_back : escape (ascii "a \"b\"?") false = ascii "a %22b%22?" ∧
    unescapePath (escape (ascii "a \"b\"?") false) = some (ascii "a \"b\"?") :=
  ⟨by decide +kernel,(unescapePath_escape_iff _ (by decide +kernel)).1.mpr (by decide +kernel)⟩

/-- A `%` with two digits behind it is taken for an escape, and one without them for an error. -/
theorem percent_not_escaped : escape (ascii "%22") false = escape [34] false ∧
    unescapePath (escape (ascii "%22") false) = some [34] ∧
    unescapePath (escape (ascii "5%") false) = none := by
  decide +kernel

end P2Streaming.Uri
