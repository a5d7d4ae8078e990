import P2Streaming.SecurityPolicy
import Mathlib.Tactic.IntervalCases

/-! # `utility.cpp`: `fast_xor` and base64 -/
namespace P2Streaming.Utility
open BigEndianBytes List
open SecurityPolicy (casMediapacket casBytes)

/-- Four bytes in the order of memory, read as a word. -/
def word (a b c d : Byte) : BitVec 32 := d ++ c ++ b ++ a

def wordBytes (v : BitVec 32) : List Byte :=
  [v.extractLsb' 0 8,v.extractLsb' 8 8,v.extractLsb' 16 8,v.extractLsb' 24 8]

/-- `int_xor[j]`. -/
def keyWord (key : List Byte) (j : ℕ) : BitVec 32 :=
  word (key.getD (4*j) 0) (key.getD (4 * j + 1) 0) (key.getD (4 * j + 2) 0)
    (key.getD (4 * j + 3) 0)

/-- The loop over the words of the buffer, from the key word `j` on. -/
def xorWords (key : List Byte) (j : ℕ) : List Byte → List Byte
  | a :: b :: c :: d :: rest =>
      wordBytes (word a b c d ^^^ keyWord key j) ++
        xorWords key (if key.length / 4 ≤ j + 1 then 0 else j + 1) rest
  | _ => []

/-- The loop over the bytes of the buffer, from the key byte `p` on. -/
def xorBytes (key : List Byte) (p : ℕ) : List Byte → List Byte
  | [] => []
  | b :: rest =>
      let p := if key.length≤p then 0 else p
      (b ^^^ key.getD p 0) :: xorBytes key (p+1) rest

/-- `fast_xor`: whole words as long as there are any, if the key consists of words. -/
def fastXor (io xorStr : List Byte) : List Byte :=
  if 4≤xorStr.length ∧ xorStr.length % 4 = 0 ∧ 4 ≤ io.length then
    let i := io.length / 4
    xorWords xorStr 0 (io.take (4*i)) ++
      xorBytes xorStr (4 * (i % (xorStr.length / 4))) (io.drop (4*i))
  else xorBytes xorStr 0 io

/-- The bytes combined with the repeated key from its byte `n` on. -/
def cyclicXor (key : List Byte) (n : ℕ) (io : List Byte) : List Byte :=
  io.mapIdx fun i b => b ^^^ key.getD ((n+i) % key.length) 0

theorem wordBytes_word (a b c d : Byte) : wordBytes (word a b c d) = [a,b,c,d] := by
  simp only [wordBytes,word,List.cons.injEq,and_true]
  refine ⟨?_,?_,?_,?_⟩ <;> ext i hi <;> simp <;> grind

theorem wordBytes_xor (v v' : BitVec 32) :
    wordBytes (v ^^^ v') = List.zipWith (· ^^^ ·) (wordBytes v) (wordBytes v') := by
  simp [wordBytes,BitVec.extractLsb'_xor]

theorem cyclicXor_cons (key : List Byte) (n : ℕ) (b : Byte) (io : List Byte) : cyclicXor key n (b::io) =
      (b ^^^ key.getD (n % key.length) 0) :: cyclicXor key (n+1) io := by
  simp [cyclicXor,mapIdx_cons,Nat.add_comm,Nat.add_left_comm]

theorem cyclicXor_append (key : List Byte) (n : ℕ) (io io' : List Byte) :
    cyclicXor key n (io++io') = cyclicXor key n io ++ cyclicXor key (n+io.length) io' := by
  simp [cyclicXor,mapIdx_append,Nat.add_comm,Nat.add_left_comm]

theorem xorBytes_eq {key : List Byte} (hkey : 0<key.length) {p n : ℕ} (hp : p≤key.length)
    (h : p % key.length = n % key.length) (io : List Byte) : xorBytes key p io = cyclicXor key n io := by
  induction io generalizing p n with
  | nil => rfl
  | cons b rest ih =>
    have hpos : (if key.length≤p then 0 else p) = n % key.length := by
      rw [← h]
      split_ifs with hle
      · rw [le_antisymm hp hle,Nat.mod_self]
      · exact (Nat.mod_eq_of_lt (not_le.mp hle)).symm
    have hlt := Nat.mod_lt n hkey
    rw [xorBytes,hpos,cyclicXor_cons]
    congr 1
    exact ih hlt (by simp)

theorem xorWords_eq {key : List Byte} (hkey : key.length % 4 = 0) {j n : ℕ}
    (hj : 4*j<key.length) (h : 4*j = n % key.length) (k : ℕ) {io : List Byte} (hio : io.length=4*k) :
    xorWords key j io = cyclicXor key n io := by
  induction k generalizing j n io with
  | zero =>
    rw [length_eq_zero_iff.mp hio]
    rfl
  | succ k ih =>
    match io, hio with
    | a :: b :: c :: d :: rest, hio =>
    have hmod (o : ℕ) (ho : o<4) : (n+o) % key.length = 4 * j + o := by
      rw [Nat.add_mod,← h,Nat.mod_eq_of_lt (a := o) (by omega),Nat.mod_eq_of_lt (by omega)]
    have hnext : 4 * (if key.length / 4 ≤ j + 1 then 0 else j + 1) = (n+4) % key.length := by
      rw [Nat.add_mod,← h,Nat.add_mod_mod]
      split_ifs with hle
      · rw [show 4 * j + 4 = key.length by omega,Nat.mod_self]
      · rw [Nat.mod_eq_of_lt (by omega),Nat.mul_succ]
    have hrest : rest.length=4*k := by simp only [length_cons] at hio; omega
    rw [xorWords,keyWord,wordBytes_xor,wordBytes_word,wordBytes_word,
      ih (by split_ifs <;> omega) hnext hrest]
    simp only [cyclicXor_cons,← h,Nat.add_assoc,hmod,Nat.reduceAdd,Nat.reduceLT]
    rfl

theorem fastXor_eq {key : List Byte} (hkey : 0<key.length) (io : List Byte) :
    fastXor io key = cyclicXor key 0 io := by
  unfold fastXor
  split_ifs with h
  · obtain ⟨hlen,hfour,-⟩ := h
    have htake : (io.take (4 * (io.length / 4))).length = 4 * (io.length / 4) := by
      rw [length_take]
      omega
    have hhand : 4 * (io.length / 4 % (key.length / 4)) = 4 * (io.length / 4) % key.length := by
      rw [← Nat.mul_mod_mul_left,Nat.mul_div_cancel' (Nat.dvd_of_mod_eq_zero hfour)]
    have hlt := Nat.mod_lt (4 * (io.length / 4)) hkey
    -- the byte loop goes on at the place of the key where the word loop stopped
    conv_rhs => rw [← take_append_drop (4 * (io.length / 4)) io,cyclicXor_append,htake,
      zero_add]
    dsimp only
    rw [xorWords_eq hfour (j := 0) (n := 0) hkey (Nat.zero_mod _).symm _ htake,
      xorBytes_eq hkey (n := 4 * (io.length / 4)) (by omega) (by rw [hhand,Nat.mod_mod])]
  · exact xorBytes_eq hkey (Nat.zero_le _) rfl io

theorem securityPolicy_fastXor (io : List Byte) (d : Digest) :
    SecurityPolicy.fastXor io d = fastXor io (List.ofFn d) := by
  rw [fastXor_eq (by simp),SecurityPolicy.fastXor,cyclicXor]
  congr 1
  funext i b
  have hlt : i % 16 < 16 := Nat.mod_lt i (by decide)
  rw [length_ofFn,zero_add,getD_eq_getElem?_getD,List.getElem?_ofFn,dif_pos hlt]
  rfl

/-- `fast_xor` combines the buffer with the repeated key; so `cas_mediapacket` undoes itself. -/
theorem fast_xor_cyclic (io key : List Byte) (hkey : 0<key.length)
    (md5 : List Byte → Digest) (pkt : MediaPacket) (casKeyStr : List Byte) :
    fastXor io key = io.mapIdx (fun i b => b ^^^ key.get ⟨i % key.length,Nat.mod_lt i hkey⟩) ∧
    casMediapacket md5 pkt casKeyStr =
      { pkt with payload := fastXor pkt.payload (List.ofFn (md5 (casBytes casKeyStr pkt))) } ∧
    casMediapacket md5 (casMediapacket md5 pkt casKeyStr) casKeyStr = pkt := by
  refine ⟨?_,?_,SecurityPolicy.casMediapacket_casMediapacket md5 pkt casKeyStr⟩
  · rw [fastXor_eq hkey,cyclicXor]
    congr 1
    funext i b
    rw [zero_add,getD_eq_getElem?_getD,List.getElem?_eq_getElem (Nat.mod_lt i hkey)]
    rfl
  · rw [casMediapacket,securityPolicy_fastXor]

/-- Nine bytes and a key of four: two words, and a byte behind them. -/
theorem fast_xor_nine_bytes : fastXor [1,2,3,4,5,6,7,8,9] [255,0,255,1] = [254,2,252,5,250,6,248,9,246] :=
  (fast_xor_cyclic _ _ (by decide) (fun _ _ => 0) .blank []).1.trans (by decide)

def base64Chars : List Byte :=
  "ABCDEFGHIJKLMNOPQRSTUVWXYZabcdefghijklmnopqrstuvwxyz0123456789+/".toList.map
    fun c => BitVec.ofNat 8 c.toNat

/-- `base64_chars[v]`. -/
def base64Char (v : Byte) : Byte := base64Chars.getD v.toNat 0

/-- `outbuf` of a group of input. -/
def sextets (a b c : Byte) : List Byte :=
  [(a &&& 0xfc) >>> 2,((a &&& 0x03) <<< 4) ||| ((b &&& 0xf0) >>> 4),
    ((b &&& 0x0f) <<< 2) ||| ((c &&& 0xc0) >>> 6),c &&& 0x3f]

/-- What a turn of `base64encode` writes for the bytes it has read. -/
def encodeGroup (inbuf : List Byte) : List Byte :=
  ((sextets (inbuf.getD 0 0) (inbuf.getD 1 0) (inbuf.getD 2 0)).take (inbuf.length+1)).map base64Char ++
    List.replicate (3 - inbuf.length) 61

/-- `(std::min)(3, int(s.end() - i))`. -/
def availableInput (s : List Byte) : ℤ := min 3 (BitVec.ofNat 32 s.length).toInt

/-- Without available input the loop never ends, and with less a range that runs backwards is
copied. -/
def base64encode (s : List Byte) : Option (List Byte) :=
  if s=[] then some []
  else if availableInput s ≤ 0 then none
  else (base64encode (s.drop (availableInput s).toNat)).map
    (encodeGroup (s.take (availableInput s).toNat) ++ ·)
termination_by s.length
decreasing_by
  rename_i hne hpos
  have := length_pos_iff.mpr hne
  rw [length_drop]
  omega

def isBase64 (c : Byte) : Bool :=
  (48 ≤ c && c ≤ 57) || (65 ≤ c && c ≤ 90) || (97 ≤ c && c ≤ 122) || c == 43 || c == 47

/-- `base64_chars.find(c)` as a byte: `npos` becomes 255. -/
def base64Find (c : Byte) : Byte := BitVec.ofNat 8 ((base64Chars.idxOf? c).getD (2^64 - 1))

/-- `inbuf` of a group of four characters. -/
def octets : List Byte → List Byte
  | [v,x,y,z] =>
      [(v <<< 2) + ((x &&& 0x30) >>> 4),((x &&& 0xf) <<< 4) + ((y &&& 0x3c) >>> 2),
        ((y &&& 0x3) <<< 6) + z]
  | _ => []

/-- The incomplete group behind the loop, filled up with zeros. -/
def decodeRest (outbuf : List Byte) : List Byte :=
  if outbuf.length=0 then []
  else (octets ((outbuf ++ List.replicate (4 - outbuf.length) 0).map base64Find)).take
    (outbuf.length - 1)

/-- The loop of `base64decode` over the characters from `in_` on; behind the last one it reads a
zero. It has no result where `in_len--` overflows. -/
def decodeLoop (outbuf : List Byte) (inLen : ℤ) : List Byte → Option (List Byte)
  | [] => if inLen = -2^31 then none else some (decodeRest outbuf)
  | c :: rest =>
      if inLen = -2^31 then none
      else if inLen≠0 ∧ c≠61 ∧ isBase64 c then
        let outbuf := outbuf ++ [c]
        if outbuf.length=4 then
          (decodeLoop [] (inLen - 1) rest).map (octets (outbuf.map base64Find) ++ ·)
        else decodeLoop outbuf (inLen - 1) rest
      else some (decodeRest outbuf)

def base64decode (s : List Byte) : Option (List Byte) :=
  decodeLoop [] (BitVec.ofNat 32 s.length).toInt s

/-- The characters of base64, whatever the length. -/
def encoded : List Byte → List Byte
  | [] => []
  | [a] => encodeGroup [a]
  | [a,b] => encodeGroup [a,b]
  | a :: b :: c :: rest => encodeGroup [a,b,c] ++ encoded rest

theorem octets_sextets (a b c : Byte) : octets (sextets a b c) = [a,b,c] := by
  simp only [octets,sextets,List.cons.injEq,and_true]
  refine ⟨?_,?_,?_⟩ <;> rw [BitVec.add_eq_or_of_and_eq_zero] <;> ext i hi <;>
    interval_cases i <;> simp

theorem sextets_lt (a b c : Byte) : ∀ v ∈ sextets a b c, v<64 := by
  have hlow : ∀ v ∈ sextets a b c, v &&& 63 = v := by
    simp only [sextets,forall_mem_cons]
    refine ⟨?_,?_,?_,?_,by simp⟩ <;> ext i hi <;> interval_cases i <;> simp
  intro v hv
  rw [← hlow v hv,BitVec.lt_def,BitVec.toNat_and]
  exact Nat.lt_succ_of_le Nat.and_le_right

theorem base64Char_spec : ∀ v : Byte, v<64 →
    base64Find (base64Char v) = v ∧ (base64Char v ≠ 61 ∧ isBase64 (base64Char v) = true) := by
  decide +kernel

theorem map_base64Find {l : List Byte} (hl : ∀ v∈l, v<64) : (l.map base64Char).map base64Find = l := by
  rw [map_map]
  exact (map_congr_left fun v hv => (base64Char_spec v (hl v hv)).1).trans (map_id l)

/-- Characters of the alphabet are taken into the group until it is complete. -/
theorem decodeLoop_map {l : List Byte} (hl : ∀ v∈l, v<64) {outbuf : List Byte}
    (h : outbuf.length+l.length<4) (n : ℕ) (rest : List Byte) :
    decodeLoop outbuf (l.length + n : ℕ) (l.map base64Char ++ rest) =
      decodeLoop (outbuf ++ l.map base64Char) n rest := by
  induction l generalizing outbuf with
  | nil => simp
  | cons v l ih =>
    simp only [length_cons] at h
    have hlen : (outbuf ++ [base64Char v]).length ≠ 4 := by simp; omega
    have hnext : ((v::l).length + n : ℕ) - (1 : ℤ) = (l.length + n : ℕ) := by
      rw [length_cons]
      omega
    rw [map_cons,cons_append,decodeLoop,if_neg (by omega),
      if_pos ⟨by rw [length_cons]; omega,(base64Char_spec v (hl v (by simp))).2⟩]
    dsimp only
    rw [if_neg hlen,hnext,ih (fun x hx => hl x (mem_cons_of_mem v hx)) (by simp; omega),
      append_assoc,singleton_append]

theorem decodeLoop_pad {l : List Byte} (hl : ∀ v∈l, v<64) (h : l.length<4)
    (hpos : l.length≠0) (n : ℕ) (rest : List Byte) :
    decodeLoop [] (l.length + n : ℕ) (l.map base64Char ++ 61 :: rest) =
      some ((octets (l ++ List.replicate (4 - l.length) 255)).take (l.length - 1)) := by
  have hzero : base64Find 0 = 255 := by decide
  rw [decodeLoop_map hl (by simpa using h),decodeLoop,if_neg (by omega),
    if_neg fun hc => hc.2.1 rfl,nil_append,decodeRest,length_map,if_neg hpos,map_append,
    map_base64Find hl,map_replicate,hzero]

theorem decodeLoop_group {v x y z : Byte} (hl : ∀ u ∈ [v,x,y,z], u<64) (n : ℕ) (rest : List Byte) :
    decodeLoop [] (4+n : ℕ) ([v,x,y,z].map base64Char ++ rest) =
      (decodeLoop [] n rest).map (octets [v,x,y,z] ++ ·) := by
  have hthree : ∀ u ∈ [v,x,y], u<64 := fun u hu => hl u (mem_append_left [z] hu)
  have hlen : 4+n = [v,x,y].length + (n+1) := by
    simp only [length_cons,length_nil]
    omega
  change decodeLoop [] _ ([v,x,y].map base64Char ++ (base64Char z :: rest)) = _
  rw [hlen,decodeLoop_map hthree (by simp),decodeLoop,if_neg (by omega),
    if_pos ⟨by omega,(base64Char_spec z (hl z (by simp))).2⟩,show ((n+1 : ℕ) : ℤ) - 1 = n by omega]
  exact congrArg (fun l => (decodeLoop [] n rest).map (octets l ++ ·)) (map_base64Find hl)

theorem length_encoded (s : List Byte) : (encoded s).length = 4 * ((s.length+2) / 3) := by
  induction s using encoded.induct with
  | case1 | case2 a | case3 a b => simp [encoded,encodeGroup,sextets]
  | case4 a b c rest ih =>
    simp only [encoded,encodeGroup,sextets,length_append,length_map,length_take,length_replicate,
      length_cons,length_nil,ih]
    omega

/-- Decoding gives the bytes back: a group at a time, and then what an incomplete group holds. -/
theorem decode_encoded (s : List Byte) : decodeLoop [] (encoded s).length (encoded s) = some s := by
  induction s using encoded.induct with
  | case1 => rfl
  | case2 a =>
    have hlt : ∀ v ∈ (sextets a 0 0).take 2, v<64 :=
      fun v hv => sextets_lt a 0 0 v (mem_of_mem_take hv)
    exact (decodeLoop_pad hlt (by simp [sextets]) (by simp [sextets]) 2 [61]).trans
      (congrArg (some <| List.take 1 ·) (octets_sextets a 0 0))
  | case3 a b =>
    have hlt : ∀ v ∈ (sextets a b 0).take 3, v<64 :=
      fun v hv => sextets_lt a b 0 v (mem_of_mem_take hv)
    exact (decodeLoop_pad hlt (by simp [sextets]) (by simp [sextets]) 1 []).trans
      (congrArg (some <| List.take 2 ·) (octets_sextets a b 0))
  | case4 a b c rest ih =>
    have hlen : (encoded (a::b::c::rest)).length = 4 + (encoded rest).length := by
      rw [encoded,length_append]
      rfl
    have hgroup := decodeLoop_group (sextets_lt a b c) (encoded rest).length (encoded rest)
    rw [ih] at hgroup
    rw [hlen]
    exact hgroup.trans (congrArg (fun l => some (l++rest)) (octets_sextets a b c))

theorem encoded_padded (s : List Byte) : ∃ (chars : List Byte) (k : ℕ),
    encoded s = chars ++ List.replicate k 61 ∧ k≤2 ∧ ∀ c∈chars, c∈base64Chars := by
  have hchars (a b c : Byte) : ∀ x ∈ (sextets a b c).map base64Char, x∈base64Chars := by
    intro x hx
    obtain ⟨v,hv,rfl⟩ := mem_map.mp hx
    have hlt : v.toNat<base64Chars.length := sextets_lt a b c v hv
    rw [base64Char,getD_eq_getElem?_getD,List.getElem?_eq_getElem hlt]
    exact getElem_mem hlt
  induction s using encoded.induct with
  | case1 => exact ⟨[],0,rfl,by decide,by simp⟩
  | case2 a =>
    exact ⟨_,2,rfl,le_rfl,
      fun c hc => hchars a 0 0 c (mem_of_mem_take (map_take ▸ hc))⟩
  | case3 a b =>
    exact ⟨_,1,rfl,one_le_two,
      fun c hc => hchars a b 0 c (mem_of_mem_take (map_take ▸ hc))⟩
  | case4 a b c rest ih =>
    obtain ⟨chars,k,heq,hk,hall⟩ := ih
    refine ⟨(sextets a b c).map base64Char ++ chars,k,?_,hk,?_⟩
    · rw [encoded,heq,append_assoc]
      rfl
    · exact forall_mem_append.mpr ⟨hchars a b c,hall⟩

/-! ### The lengths as `int` -/

theorem toInt_length {n : ℕ} (h : n<2^31) : (BitVec.ofNat 32 n).toInt = n := by
  rw [BitVec.toInt_eq_toNat_cond,BitVec.toNat_ofNat,Nat.mod_eq_of_lt (by omega),if_pos (by omega)]

theorem base64encode_group {s : List Byte} {n : ℕ} (hn : availableInput s = (n+1 : ℕ)) (hs : s≠[]) :
    base64encode s = (base64encode (s.drop (n+1))).map (encodeGroup (s.take (n+1)) ++ ·) := by
  rw [base64encode,if_neg hs,hn,if_neg (by omega),Int.toNat_natCast]

theorem base64encode_of_lt {s : List Byte} (h : s.length<2^31) :
    base64encode s = some (encoded s) := by
  have hnil : base64encode [] = some [] := by rw [base64encode,if_pos rfl]
  induction s using encoded.induct with
  | case1 => exact hnil
  | case2 a | case3 a b =>
    rw [base64encode_group rfl (cons_ne_nil _ _)]
    simp [hnil,encoded]
  | case4 a b c rest ih =>
    have havail : availableInput (a::b::c::rest) = (2+1 : ℕ) := by
      rw [availableInput,toInt_length h]
      simp only [length_cons]
      omega
    have hrest : rest.length<2^31 := by
      simp only [length_cons] at h
      omega
    rw [base64encode_group havail (cons_ne_nil _ _),drop_succ_cons,drop_succ_cons,drop_succ_cons,
      drop_zero,ih hrest]
    rfl

theorem availableInput_le (s : List Byte) : availableInput s ≤ s.length % 2^32 ∧
    (s.length<2^32 → 2^31 ≤ s.length → availableInput s ≤ 0) := by
  rw [availableInput,BitVec.toInt_eq_toNat_cond,BitVec.toNat_ofNat]
  split_ifs <;> omega

/-- From 2 GiB on the bytes that are left never become few enough. -/
theorem base64encode_of_ge {s : List Byte} (h : 2^31 ≤ s.length) : base64encode s = none := by
  induction hn : s.length using Nat.strong_induction_on generalizing s with
  | h n ih =>
    subst hn
    rw [base64encode,if_neg (by rintro rfl; simp at h)]
    split_ifs with hpos
    · rfl
    obtain ⟨hle,hsmall⟩ := availableInput_le s
    have hlen : (s.drop (availableInput s).toNat).length = s.length - (availableInput s).toNat :=
      length_drop
    rw [ih _ (by omega) (by omega) rfl]
    rfl

theorem decodeLoop_overflow {chars : List Byte} (hc : ∀ c∈chars, c≠61 ∧ isBase64 c = true)
    (hlt : chars.length<2^31) (outbuf rest : List Byte) :
    decodeLoop outbuf (chars.length - 2^31) (chars++rest) = none := by
  induction chars generalizing outbuf with
  | nil =>
    cases rest with
    | nil | cons => rw [nil_append,decodeLoop,if_pos (by simp)]
  | cons c chars ih =>
    rw [length_cons] at hlt ⊢
    have hnext : ((chars.length+1 : ℕ) : ℤ) - 2^31 - 1 = chars.length - 2^31 := by omega
    have hrest := ih (fun x hx => hc x (mem_cons_of_mem c hx)) (by omega)
    rw [cons_append,decodeLoop,if_neg (by omega),if_pos ⟨by omega,hc c mem_cons_self⟩,hnext]
    dsimp only
    rw [hrest,hrest]
    exact ite_self none

theorem base64decode_encoded {s : List Byte} (h : s.length<2^31) :
    base64decode (encoded s) = if 4 * ((s.length+2) / 3) < 2^31 then some s else none := by
  rw [base64decode,← length_encoded]
  split_ifs with hlt
  · rw [toInt_length hlt]
    exact decode_encoded s
  · -- the `int` is negative and there are too many characters for it
    obtain ⟨chars,k,heq,hk,hall⟩ := encoded_padded s
    have hlen := length_encoded s
    have hall' : ∀ c∈base64Chars, c≠61 ∧ isBase64 c = true := by decide
    have hint : (BitVec.ofNat 32 (encoded s).length).toInt =
        ((chars.take ((encoded s).length - 2^31)).length : ℤ) - 2^31 := by
      rw [heq,length_append,length_replicate] at hlt hlen
      rw [BitVec.toInt_eq_toNat_cond,BitVec.toNat_ofNat,length_take,heq,length_append,length_replicate]
      split_ifs <;> omega
    have hcut : encoded s = chars.take ((encoded s).length - 2^31) ++
        (chars.drop ((encoded s).length - 2^31) ++ List.replicate k 61) := by
      rw [← append_assoc,take_append_drop,← heq]
    rw [hint]
    nth_rewrite 2 [hcut]
    refine decodeLoop_overflow (fun c hc => hall' c (hall c (mem_of_mem_take hc))) ?_ [] _
    rw [length_take]
    omega

/-- Base64 gives a byte string back, with the length and the characters it should have, exactly
when the length of the text is an `int`. -/
theorem base64_round_trip_iff (s : List Byte) :
    (∃ text, base64encode s = some text ∧ base64decode text = some s ∧
      text.length = 4 * ((s.length+2) / 3) ∧ ∃ (chars : List Byte) (k : ℕ),
        text = chars ++ List.replicate k 61 ∧ k≤2 ∧ ∀ c∈chars, c∈base64Chars) ↔
      4 * ((s.length+2) / 3) < 2^31 := by
  constructor
  · rintro ⟨text,hencode,hdecode,-⟩
    by_cases hs : s.length<2^31
    · obtain rfl := Option.some.inj ((base64encode_of_lt hs).symm.trans hencode)
      rw [base64decode_encoded hs] at hdecode
      by_contra hlong
      rw [if_neg hlong] at hdecode
      exact nomatch hdecode
    · rw [base64encode_of_ge (not_lt.mp hs)] at hencode
      exact nomatch hencode
  · intro hlt
    have hs : s.length<2^31 := by omega
    exact ⟨encoded s,base64encode_of_lt hs,(base64decode_encoded hs).trans (if_pos hlt),
      length_encoded s,encoded_padded s⟩

/-- 4 GiB are no input at all, and the loop goes on for ever. -/
theorem base64encode_4GiB : availableInput (List.replicate (2^32) 0) = 0 ∧
    base64encode (List.replicate (2^32) 0) = none := by
  have hlen : (List.replicate (2^32) (0 : Byte)).length = 2^32 := length_replicate
  refine ⟨?_,base64encode_of_ge (by rw [hlen]; decide)⟩
  rw [availableInput,hlen]
  rfl

end P2Streaming.Utility
