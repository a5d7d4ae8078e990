import P2Streaming.BigEndianBytes
import P2Streaming.TransitionRuns

/-!
# The file with the sequence number of a live channel

`store_info` writes the next sequence number and the session id of a live channel to a file,
from which the constructor of `media_distributor` restores them. The writer puts the sequence
number first, the reader takes the session id first. After its first write the writer has
closed the file and does not open it again; nothing is written through a closed `FILE`.
-/
namespace P2Streaming.SequenceStore
open BigEndianBytes TransitionRuns

inductive ByteOrder where
  | little | big

namespace ByteOrder

def bytes : ByteOrder → BitVec 32 → List Byte
  | .little, x => (beBytes 4 x.toNat).reverse
  | .big, x => beBytes 4 x.toNat

def value : ByteOrder → List Byte → BitVec 32
  | .little, bs => BitVec.ofNat 32 (beValue bs.reverse)
  | .big, bs => BitVec.ofNat 32 (beValue bs)

variable (order : ByteOrder)

@[simp] theorem length_bytes (x : BitVec 32) : (order.bytes x).length = 4 := by
  cases order <;> simp [bytes]

/-- Four bytes are the layout of one number. -/
theorem value_eq_iff {bs : List Byte} (h : bs.length=4) (x : BitVec 32) :
    order.value bs = x ↔ order.bytes x = bs := by
  have hbe {bs : List Byte} (h : bs.length=4) : BitVec.ofNat 32 (beValue bs) = x ↔
    beBytes 4 x.toNat = bs := by
    constructor
    · rintro rfl
      have hlt := beValue_lt bs
      rw [h] at hlt
      rw [BitVec.toNat_ofNat,Nat.mod_eq_of_lt (by omega),← h,beBytes_beValue]
    · rintro rfl
      rw [beValue_beBytes (by have := x.isLt; omega),BitVec.ofNat_toNat,BitVec.setWidth_eq]
  cases order with
  | little => rw [value,bytes,hbe (by simpa using h),List.reverse_eq_iff]
  | big => exact hbe h

end ByteOrder

/-- A `FILE*`. -/
inductive Stream where
  | null | opened | closed
  deriving DecidableEq

/-- The thread of `store_info` with the file it writes. `first` is the number of the first
write since the file was last emptied, `last` the number of the last write. -/
structure StoreInfo where
  file : Option (List Byte)
  fp : Stream
  i : ℕ
  first : Option (BitVec 32)
  last : Option (BitVec 32)

namespace StoreInfo

/-- A `media_distributor` with the file that it finds. -/
def new (file : Option (List Byte)) : StoreInfo := ⟨file,.null,0,none,none⟩

/-- `fopen` for writing empties the file. -/
def fopen (canOpen : Bool) (x : StoreInfo) : StoreInfo :=
  if canOpen then { x with file := some [], fp := .opened, first := none } else { x with fp := .null }

def write (order : ByteOrder) (sessionId : Byte) (seq : BitVec 32) (x : StoreInfo) : StoreInfo :=
  match x.fp with
  | .null => x
  | .opened => { x with file := some (order.bytes
    seq ++ [sessionId]), fp := .closed, first := some seq, last := some seq }
  -- the stream is written to as if it were open
  | .closed => { x with last := some seq }

end StoreInfo

/-- `store_info` is started, or makes a turn; `seq` is `media_pkt_seq_seed_` at that time. -/
inductive StoreEvent where
  | start (canOpen : Bool)
  | turn (seq : BitVec 32) (canOpen : Bool)

namespace StoreInfo

/-- `store_info` for a live channel: a turn takes 200 ms, and after two seconds each of them
writes. -/
def step (order : ByteOrder) (sessionId : Byte) (x : StoreInfo) : StoreEvent → StoreInfo
  | .start canOpen => { x.fopen canOpen with i := 0 }
  | .turn seq canOpen =>
    let x := { x with i := x.i + 1 }
    if 2000 / 200 < x.i then
      let x := if x.fp = .null then x.fopen canOpen else x
      x.write order sessionId seq
    else x

end StoreInfo

/-- What the constructor of `media_distributor` has in `session_id_` and `media_pkt_seq_seed_`
for a live channel; `memory` is what it had there before. -/
def restore (order : ByteOrder) (memory : Byte × BitVec 32) : Option (List Byte) → Byte × BitVec 32
  | none => memory
  | some file =>
    if 4 + 1 ≤ file.length then ((file.headD 0) + 1, order.value ((file.drop 1).take 4)) else memory

namespace StoreInfo

variable {order : ByteOrder} {sessionId : Byte} {x : StoreInfo}

structure Consistent (order : ByteOrder) (sessionId : Byte) (x : StoreInfo) : Prop where
  opened : x.fp = .opened → x.file = some []
  closed : x.fp = .closed → x.first≠none
  first : ∀ seq, x.first = some seq → x.file = some (order.bytes seq ++ [sessionId])
  emptied : x.first=none → x.last≠none → x.file = some []

section
variable (h : x.Consistent order sessionId)
include h

theorem Consistent.fopen (canOpen : Bool) :
    (x.fopen canOpen).Consistent order sessionId := by
  unfold StoreInfo.fopen
  split_ifs
  · exact ⟨fun _ => rfl,nofun,nofun,fun _ _ => rfl⟩
  · exact ⟨nofun,nofun,h.first,h.emptied⟩

theorem Consistent.write (seq : BitVec 32) :
    (x.write order sessionId seq).Consistent order sessionId := by
  unfold StoreInfo.write
  split
  · exact h
  · refine ⟨nofun,nofun,fun q hq => ?_,nofun⟩
    rw [← Option.some.inj hq]
  · rename_i hclosed
    exact ⟨h.opened,h.closed,h.first,fun hnone => absurd hnone (h.closed hclosed)⟩

theorem Consistent.step (e : StoreEvent) :
    (x.step order sessionId e).Consistent order sessionId := by
  cases e with
  | start canOpen =>
    have hopen := h.fopen canOpen
    exact ⟨hopen.opened,hopen.closed,hopen.first,hopen.emptied⟩
  | turn seq canOpen =>
    have hnext : ({ x with i := x.i + 1 } : StoreInfo).Consistent order sessionId :=
      ⟨h.opened,h.closed,h.first,h.emptied⟩
    dsimp only [StoreInfo.step]
    split_ifs
    · exact (hnext.fopen canOpen).write seq
    · exact hnext.write seq
    · exact hnext

end

theorem restore_file (order : ByteOrder) (sessionId : Byte) (memory : Byte × BitVec 32)
    (seq q : BitVec 32) :
    restore order memory (some (order.bytes seq ++ [sessionId])) = (sessionId+1, q) ↔
      ∃ rest, order.bytes seq = sessionId :: rest ∧ order.bytes q = rest ++ [sessionId] := by
  obtain ⟨b,rest,hbytes⟩ : ∃ b rest, order.bytes seq = b :: rest :=
    List.exists_cons_of_ne_nil fun hnil => by simpa [hnil] using order.length_bytes seq
  have hlen : rest.length=3 := by simpa [hbytes] using order.length_bytes seq
  have htake : ((b :: rest ++ [sessionId]).drop 1).take 4 = rest ++ [sessionId] :=
    List.take_of_length_le (by simp [hlen])
  rw [restore,hbytes,if_pos (by simp [hlen]),htake,Prod.mk.injEq,order.value_eq_iff (by simp [hlen])]
  simp only [List.cons_append,List.headD_cons,add_left_inj,List.cons.injEq]
  constructor
  · rintro ⟨hb,hq⟩
    exact ⟨rest,⟨hb,rfl⟩,hq⟩
  · rintro ⟨_,⟨hb,rfl⟩,hq⟩
    exact ⟨hb,hq⟩

/-- Behind a run with a last write of `q`, a new distributor goes on where the old one was
exactly when the bytes written first since the file was emptied, read one place off, are
those of `q`. -/
theorem restored_iff (order : ByteOrder) (sessionId : Byte) (file : Option (List Byte))
    (es : List StoreEvent)
    {q : BitVec 32} (hq : (es.foldl (StoreInfo.step order sessionId) (new file)).last = some q) :
    let x := es.foldl (StoreInfo.step order sessionId) (new file)
    (∀ memory, restore order memory x.file = (sessionId+1, q)) ↔
      ∃ first rest, x.first = some first ∧ order.bytes first = sessionId :: rest ∧
        order.bytes q = rest ++ [sessionId] := by
  intro x
  have hstart : (new file).Consistent order sessionId := ⟨nofun,nofun,nofun,fun _ h => absurd rfl h⟩
  have hx : x.Consistent order sessionId :=
    invariant_of_run _ (fun _ e _ h => h.step e)
      (alongRun_of_forall (P := fun _ _ => True) (fun _ _ => trivial) _ es)
      hstart
  cases hfirst : x.first with
  | none =>
    -- the file is empty, so the memory stays as it was
    have hempty := hx.emptied hfirst (by rw [hq]; exact nofun)
    rw [hempty]
    refine iff_of_false (fun hall => ?_) (by rintro ⟨_,_,h,-⟩; exact nomatch h)
    have hsame := hall (sessionId, q)
    have hne : sessionId≠sessionId+1 := by bv_omega
    exact hne (Prod.mk.inj hsame).1
  | some seq =>
    rw [hx.first seq hfirst]
    constructor
    · intro hall
      obtain ⟨rest,hrest⟩ := (restore_file order sessionId (0, 0) seq q).mp (hall (0, 0))
      exact ⟨seq,rest,rfl,hrest⟩
    · rintro ⟨_,rest,heq,hrest⟩ memory
      obtain rfl := Option.some.inj heq
      exact (restore_file order sessionId memory _ q).mpr ⟨rest,hrest⟩

section Example

/-- `store_info` is started and makes a turn with each of the numbers, behind ten turns
without a write. -/
def writes (seqs : List (BitVec 32)) : List StoreEvent :=
  .start true :: (List.replicate 10 (.turn 0 false) ++ seqs.map (.turn · false))

theorem restored_same_bytes :
    restore .little (0, 0) (((writes [0x07070707]).foldl (StoreInfo.step .little 7) (new none)).file) =
      (8, 0x07070707) :=
  (restored_iff .little 7 none (writes [0x07070707]) (by decide)).mpr
    ⟨0x07070707,[7,7,7],by decide,by decide,by decide⟩ (0, 0)

/-- The fields are read in the other order, and a second write does not reach the file. -/
theorem restored_wrong :
    restore .little (0, 0) (((writes [0x01020304]).foldl (StoreInfo.step .little 7) (new none)).file) =
      (5, 0x07010203) ∧
    ((writes [0x07070707,0x07070708]).foldl (StoreInfo.step .little 7) (new none)).last =
    some 0x07070708 ∧
    restore .little (0, 0) (((writes [0x07070707,0x07070708]).foldl (StoreInfo.step .little 7) (new
      none)).file) = (8, 0x07070707) := by
  decide +kernel

end Example

end StoreInfo

end P2Streaming.SequenceStore
