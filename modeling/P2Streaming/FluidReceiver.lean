import P2Streaming.MediaDispatcher
import Mathlib.Algebra.Order.BigOperators.Group.List

/-!
# Fluid that is cut into pieces

`fluid_receiver` collects what a stream brings in `buf_` and queues a packet whenever that holds
a piece. The length of what came is an `int`.
-/
namespace P2Streaming
open BigEndianBytes BoundedLoops List

/-- `buf_`, and what it held at the calls of `que_packet`, oldest first. -/
structure FluidReceiver where
  buf : List Byte
  queued : List (List Byte)
  deriving DecidableEq, Repr

namespace FluidReceiver

def start : FluidReceiver := ⟨[],[]⟩

variable (r : FluidReceiver)

/-- `io.write`, and `que_packet` once there is a piece. -/
def write (bytes : List Byte) : FluidReceiver :=
  if (r.buf++bytes).length = pieceSize then ⟨[],r.queued ++ [r.buf++bytes]⟩
  else ⟨r.buf++bytes,r.queued⟩

/-- The receiver, the bytes from `p` on and `recvdLen`; nothing behind a fault. -/
abbrev Taking := Option (FluidReceiver × List Byte × ℤ)

/-- A turn of the loop of `process_received_data`. -/
def takeTurn : Taking → Turn Taking
  | none => .leave none
  | some (r, data, recvdLen) =>
    let copyLen := min recvdLen (pieceSize - r.buf.length)
    if copyLen≠0 ∧ copyLen≤recvdLen then
      -- for `io.write` a negative length is a `size_t` beyond all memory
      .again (if copyLen<0 then none else
        some (r.write (data.take copyLen.toNat), data.drop copyLen.toNat, recvdLen - copyLen))
    else .leave (some (r, data, recvdLen))

/-- The loop is entered with `(int)data.size()`. -/
def taking (data : List Byte) : Taking :=
  some (r, data, (BitVec.ofNat 32 data.length).toInt)

def processReceivedData (data : List Byte) (isDatagramProtocal : Bool) :
    Option FluidReceiver :=
  if isDatagramProtocal then some ⟨data,r.queued ++ [data]⟩
  else (loop takeTurn (data.length+2) (r.taking data)).map Prod.fst

/-- The calls for the buffers of a stream. -/
def receive (datas : List (List Byte)) : Option FluidReceiver :=
  datas.foldlM (fun r data => r.processReceivedData data false) r

/-- Packets are pieces, `buf_` holds less than one, and together they are the bytes that came. -/
structure Cut (total : List Byte) (r : FluidReceiver) : Prop where
  pieces : ∀ packet∈r.queued, packet.length=pieceSize
  rest : r.buf.length<pieceSize
  bytes : r.queued.flatten ++ r.buf = total

variable {total data : List Byte} {r}

theorem Cut.write (h : Cut total r) (bytes : List Byte)
    (hfits : r.buf.length+bytes.length≤pieceSize) : Cut (total++bytes) (r.write bytes) := by
  have htotal : r.queued.flatten ++ (r.buf++bytes) = total ++ bytes := by
    rw [← append_assoc,h.bytes]
  rw [FluidReceiver.write]
  split_ifs with hfull
  · refine ⟨fun packet hp => ?_,show 0 < pieceSize by decide,?_⟩
    · rcases mem_append.mp hp with hp | hp
      · exact h.pieces packet hp
      · rw [mem_singleton.mp hp,hfull]
    · simpa using htotal
  · rw [length_append] at hfull
    refine ⟨h.pieces,?_,htotal⟩
    rw [length_append]
    omega

/-- A bound on the turns that are left. -/
def left : Taking → ℕ
  | none => 0
  | some (_, _, recvdLen) => recvdLen.toNat+1

theorem left_takeTurn : ∀ s t, takeTurn s = .again t → left t < left s
  | none, _, h => nomatch h
  | some (r, data, recvdLen), t, h => by
    rw [takeTurn] at h
    split_ifs at h with hgo hneg
    · cases h
      exact Nat.succ_pos _
    · cases h
      simp only [left]
      omega

theorem leaves (r : FluidReceiver) (data : List Byte) :
    Leaves takeTurn (r.taking data) (loop takeTurn (data.length+2) (r.taking data)) := by
  refine leaves_loop left left_takeTurn _ _ ?_
  simp only [taking,left,BitVec.toInt_eq_toNat_cond,BitVec.toNat_ofNat]
  have := Nat.mod_le data.length (2^32)
  split_ifs <;> omega

/-- What `process_received_data` takes of a buffer, unless the `int` is negative. -/
def taken (data : List Byte) : List Byte := data.take (data.length % 2^32)

/-- What was taken, and what the length that is left says of the rest, are the given bytes. -/
def Partway (total bytes : List Byte) (s : Taking) : Prop :=
  ∃ r done rest, ∃ n : ℕ, s = some (r, rest, (n : ℤ)) ∧ n ≤ rest.length ∧
    done ++ rest.take n = bytes ∧ Cut (total++done) r

namespace Partway

variable {bytes : List Byte}

theorem again {s t : Taking} (h : Partway total bytes s) (hturn : takeTurn s = .again t) :
    Partway total bytes t := by
  obtain ⟨r,done,rest,n,rfl,hn,hdone,hcut⟩ := h
  have hrest := hcut.rest
  have hmin : min (n : ℤ) (pieceSize - r.buf.length) = (min n (pieceSize - r.buf.length) : ℕ) := by
    omega
  rw [takeTurn,hmin] at hturn
  generalize hm : min n (pieceSize - r.buf.length) = m at hturn
  simp only [Int.toNat_natCast] at hturn
  split_ifs at hturn with hgo
  · omega
  cases hturn
  have hlen : (rest.take m).length = m := length_take_of_le (by omega)
  refine ⟨_,done ++ rest.take m,rest.drop m,n - m,by rw [Nat.cast_sub (by omega)],
    by rw [length_drop]; omega,?_,?_⟩
  · rw [← hdone,append_assoc,← take_add,Nat.add_sub_cancel' (by omega)]
  · rw [← append_assoc]
    exact hcut.write _ (by omega)

theorem leave {s t : Taking} (h : Partway total bytes s) (hturn : takeTurn s = .leave t) :
    ∃ r, t.map Prod.fst = some r ∧ Cut (total++bytes) r := by
  obtain ⟨r,done,rest,n,rfl,hn,hdone,hcut⟩ := h
  have hrest := hcut.rest
  rw [takeTurn] at hturn
  split_ifs at hturn with hgo
  cases hturn
  obtain rfl : n=0 := by omega
  rw [take_zero,append_nil] at hdone
  exact ⟨r,rfl,hdone ▸ hcut⟩

end Partway

theorem Cut.partway (h : Cut total r) (hlen : data.length % 2^32 < 2^31) :
    Partway total (taken data) (r.taking data) := by
  refine ⟨r,[],data,data.length % 2^32,?_,Nat.mod_le _ _,rfl,by rwa [append_nil]⟩
  rw [taking,BitVec.toInt_eq_toNat_cond,BitVec.toNat_ofNat,if_pos (by omega)]

theorem Cut.processReceivedData (h : Cut total r) (hlen : data.length % 2^32 < 2^31) :
    ∃ r', r.processReceivedData data false = some r' ∧ Cut (total ++ taken data) r' := by
  rw [FluidReceiver.processReceivedData,if_neg (by simp)]
  exact (leaves r data).rule (Partway total (taken data)) _ (fun _ _ h => h.again)
    (fun _ _ h => h.leave) (h.partway hlen)

theorem processReceivedData_fault (r : FluidReceiver) (hlen : 2^31 ≤ data.length % 2^32)
    (hrest : r.buf.length<pieceSize) : r.processReceivedData data false = none := by
  have hint : (BitVec.ofNat 32 data.length).toInt < 0 := by
    rw [BitVec.toInt_eq_toNat_cond,BitVec.toNat_ofNat]
    split_ifs <;> omega
  have hturn : takeTurn (r.taking data) = .again none := by
    rw [taking,takeTurn,if_pos (by omega),if_pos (by omega)]
  rw [processReceivedData,if_neg (by simp),loop,hturn]
  rfl

theorem Cut.receive (datas : List (List Byte)) : ∀ {total r}, Cut total r →
    (∃ r', r.receive datas = some r' ∧ Cut (total ++ (datas.map taken).flatten) r' ∧
      ∀ data∈datas, data.length % 2^32 < 2^31) ∨
    r.receive datas = none ∧ ∃ data∈datas, 2^31 ≤ data.length := by
  induction datas with
  | nil => exact fun {total r} h => .inl ⟨r,rfl,by simpa using h,nofun⟩
  | cons data datas ih =>
    intro total r h
    by_cases hlen : data.length % 2^32 < 2^31
    · obtain ⟨r₁,hr₁,hcut⟩ := h.processReceivedData hlen
      have hfirst : r.receive (data::datas) = r₁.receive datas := by
        rw [FluidReceiver.receive,foldlM_cons,hr₁]
        rfl
      rw [hfirst]
      rcases ih hcut with ⟨r',hr',hcut',hall⟩ | ⟨hnone,data',hmem,hlong⟩
      · refine .inl ⟨r',hr',?_,forall_mem_cons.mpr ⟨hlen,hall⟩⟩
        rwa [map_cons,flatten_cons,← append_assoc]
      · exact .inr ⟨hnone,data',mem_cons_of_mem _ hmem,hlong⟩
    · refine .inr ⟨?_,data,mem_cons_self,by omega⟩
      rw [FluidReceiver.receive,foldlM_cons,processReceivedData_fault r (by omega) h.rest]
      rfl

theorem cut_start : Cut [] start := ⟨nofun,by decide,rfl⟩

/-- However the fluid is split, it is queued in pieces of `PIECE_SIZE` bytes, and the loop is left.
Nothing is lost exactly when the length of every buffer is an `int`. -/
theorem fluid_cut_iff (datas : List (List Byte)) :
    (∀ r, start.receive datas = some r → (∀ packet∈r.queued, packet.length=pieceSize) ∧
      r.buf.length<pieceSize ∧ ∀ data, ∃ s, Leaves takeTurn (r.taking data) s ∧
        r.processReceivedData data false = s.map Prod.fst) ∧
    ((∃ r, start.receive datas = some r ∧ r.queued.flatten ++ r.buf = datas.flatten) ↔
      ∀ data∈datas, data.length<2^31) := by
  have hrun := cut_start.receive datas
  rw [nil_append] at hrun
  refine ⟨fun r hr => ?_,?_,fun hshort => ?_⟩
  · rcases hrun with ⟨r',hr',hcut,-⟩ | ⟨hnone,-⟩
    · obtain rfl := Option.some.inj (hr.symm.trans hr')
      exact ⟨hcut.pieces,hcut.rest,fun data => ⟨_,leaves r data,by
        rw [processReceivedData,if_neg (by simp)]⟩⟩
    · exact nomatch hr.symm.trans hnone
  · rintro ⟨r,hr,hbytes⟩ data hmem
    rcases hrun with ⟨r',hr',hcut,hall⟩ | ⟨hnone,-⟩
    · obtain rfl := Option.some.inj (hr.symm.trans hr')
      by_contra hlong
      have hlt : ((datas.map taken).flatten).length < datas.flatten.length := by
        rw [length_flatten,length_flatten,map_map]
        refine sum_lt_sum _ _ (fun d _ => ?_) ⟨data,hmem,?_⟩
        · exact length_take_le' _ _
        · have := hall data hmem
          simp only [Function.comp,taken,length_take]
          omega
      rw [← hcut.bytes,hbytes] at hlt
      exact lt_irrefl _ hlt
    · exact nomatch hr.symm.trans hnone
  · rcases hrun with ⟨r,hr,hcut,-⟩ | ⟨-,data,hmem,hlong⟩
    · have htaken : datas.map taken = datas := by
        refine (map_congr_left fun data hmem => ?_).trans (map_id _)
        have := hshort data hmem
        rw [taken,Nat.mod_eq_of_lt (by omega),take_length]
        rfl
      exact ⟨r,hr,hcut.bytes.trans (by rw [htaken])⟩
    · exact absurd (hshort data hmem) (by omega)

/-- A buffer whose length the `int` takes for nothing is dropped as a whole. -/
theorem receive_wrapped (hlen : data.length % 2^32 = 0) : start.receive [data] = some start := by
  have hint : (BitVec.ofNat 32 data.length).toInt = 0 := by
    rw [BitVec.toInt_eq_toNat_cond,BitVec.toNat_ofNat,hlen]
    rfl
  have hturn : takeTurn (start.taking data) = .leave (start.taking data) := by
    rw [taking,hint]
    rfl
  rw [receive,foldlM_cons,processReceivedData,if_neg (by simp),loop,hturn]
  rfl

theorem buffer_of_4GiB_dropped : start.receive [List.replicate (2^32) 0] = some start ∧
    start.queued.flatten ++ start.buf ≠ [List.replicate (2^32) 0].flatten := by
  refine ⟨receive_wrapped (by rw [length_replicate,Nat.mod_self]),fun hnil => ?_⟩
  have hlen := congrArg List.length hnil
  rw [flatten_singleton,length_replicate] at hlen
  exact absurd hlen (by decide)

end FluidReceiver
end P2Streaming
