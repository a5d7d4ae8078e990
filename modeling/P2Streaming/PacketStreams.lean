import P2Streaming.BigEndianBytes

/-!
# Packets on a byte stream

A stream carries packets with their length in two bytes in front. `Omits` relates the
packets that were meant to go out to those that did, when some may be left out.
-/
namespace P2Streaming.PacketStreams
open BigEndianBytes List

/-- A packet as it stands on the stream. -/
def framed (p : List Byte) : List Byte := beBytes 2 p.length ++ p

/-- The complete packets at the front of a stream; an empty one is skipped. The count bounds the
rounds. -/
def packets : ℕ → List Byte → List (List Byte)
  | n + 1, b₀ :: b₁ :: rest =>
      let len := beValue [b₀,b₁]
      if rest.length<len then []
      else if len=0 then packets n rest
      else rest.take len :: packets n (rest.drop len)
  | _, _ => []

def readPackets (stream : List Byte) : List (List Byte) := packets stream.length stream

theorem packets_framed {p : List Byte} (hpos : p≠[]) (hlt : p.length<2^16) (n : ℕ)
    (rest : List Byte) : packets (n+1) (framed p ++ rest) = p :: packets n rest := by
  obtain ⟨b₀,b₁,hb⟩ : ∃ b₀ b₁, beBytes 2 p.length = [b₀,b₁] := ⟨_,_,rfl⟩
  have hlen : beValue [b₀,b₁] = p.length := by
    rw [← hb,beValue_beBytes (by simpa using hlt)]
  have hne : p.length≠0 := by simpa using hpos
  rw [framed,hb,append_assoc,cons_append,cons_append,nil_append,packets]
  simp [hlen,hne]

theorem length_le_flatten (ps : List (List Byte)) : ps.length ≤ (ps.map framed).flatten.length := by
  induction ps with
  | nil => exact Nat.le_refl 0
  | cons p ps ih =>
    simp only [map_cons,flatten_cons,length_append,length_cons,framed,
      length_beBytes]
    omega

theorem readPackets_framed {ps : List (List Byte)}
    (h : ∀ p∈ps, p≠[] ∧ p.length<2^16) : readPackets (ps.map framed).flatten = ps := by
  have hall : ∀ n, ps.length≤n → packets n (ps.map framed).flatten = ps := by
    induction ps with
    | nil => intro n _; cases n <;> rfl
    | cons p ps ih =>
      intro n hn
      obtain ⟨n,rfl⟩ : ∃ m, n=m+1 := ⟨n - 1,by simp at hn; omega⟩
      obtain ⟨hpos,hlt⟩ := h p mem_cons_self
      rw [map_cons,flatten_cons,packets_framed hpos hlt,
        ih (fun q hq => h q (mem_cons_of_mem _ hq)) n (by simpa using hn)]
  exact hall _ (length_le_flatten ps)

/-! ### Lists with elements left out -/

variable {α : Type*}

/-- The second list is the first one without some elements that satisfy the predicate. -/
inductive Omits (P : α → Prop) : List α → List α → Prop
  | nil : Omits P [] []
  | keep {l m : List α} (a : α) (h : Omits P l m) : Omits P (a::l) (a::m)
  | leave {l m : List α} {a : α} (ha : P a) (h : Omits P l m) : Omits P (a::l) m

namespace Omits
variable {P Q : α → Prop} {l m : List α}

theorem mono (hPQ : ∀ a, P a → Q a) (h : Omits P l m) : Omits Q l m := by
  induction h with
  | nil => exact .nil
  | keep a _ ih => exact .keep a ih
  | leave ha _ ih => exact .leave (hPQ _ ha) ih

theorem append {l' m' : List α} (h : Omits P l m) (h' : Omits P l' m') : Omits P (l++l') (m++m') := by
  induction h with
  | nil => exact h'
  | keep a _ ih => exact .keep a ih
  | leave ha _ ih => exact .leave ha ih

theorem sent (h : Omits P l m) (a : α) : Omits P (l ++ [a]) (m ++ [a]) := h.append (.keep a .nil)

theorem left (h : Omits P l m) {a : α} (ha : P a) : Omits P (l ++ [a]) m := by
  simpa using h.append (.leave ha .nil)

theorem sublist (h : Omits P l m) : m.Sublist l := by
  induction h with
  | nil => exact .slnil
  | keep a _ ih => exact ih.cons_cons a
  | leave _ _ ih => exact ih.cons _

/-- What the predicate rules out is all there, in order. -/
theorem filter_eq {q : α → Bool} (hq : ∀ a, P a → q a = false) (h : Omits P l m) :
    m.filter q = l.filter q := by
  induction h with
  | nil => rfl
  | keep a _ ih => simp [filter_cons,ih]
  | leave ha _ ih => simp [hq _ ha,ih]

end Omits
end P2Streaming.PacketStreams
