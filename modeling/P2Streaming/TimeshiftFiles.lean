import Mathlib.Data.Nat.ModEq
import P2Streaming.TransitionRuns

/-!
# `timeshiht_channel`: pieces of a channel in a ring of files

The file of a piece is computed from its distance to the first piece of the channel, its place in
the file from the distance to the piece the file was opened with. Both agree as long as files are
opened at the first piece of a round and stay open for the round. A file is closed when its last
piece has been written, and when a write fails.
-/
namespace P2Streaming
open TransitionRuns BitVec

/-- `media_piece`, with its number in the channel. -/
structure MediaPiece where
  seqno : BitVec 32
  offset : BitVec 32
  number : ℕ
  deriving DecidableEq

/-- What `media_file::open` sets and `__close` takes away. -/
structure FileSpan where
  firstSeqno : BitVec 32
  totalBlockCount : BitVec 32
  perBlockSize : BitVec 32
  cacheBlockCount : ℕ
  singleFileCircle : Bool
  writedBlockCount : BitVec 32

/-- `media_file`; it is opened while it has its span. `isOpen` is that of the file handle, which
is opened in the background. -/
structure MediaFile where
  span : Option FileSpan
  isOpen : Bool
  queue : List MediaPiece

namespace MediaFile

def create : MediaFile := ⟨none,false,[]⟩

variable (f : MediaFile)

def isOpened : Bool := f.span.isSome

/-- `media_file::open`. -/
def openFile (firstSeqno totalBlockCount perBlockSize : BitVec 32) (cacheBlockCount : ℕ)
    (circle : Bool) : MediaFile :=
  { f with span := some ⟨firstSeqno,totalBlockCount,perBlockSize,cacheBlockCount,circle,0⟩ }

/-- `__close`, where waiting pieces are dropped. -/
def close : MediaFile := if f.isOpened then create else f

/-- `write_offset`, computed in 32 bits. -/
def writeOffset (span : FileSpan) (seqno : BitVec 32) : BitVec 32 :=
  span.perBlockSize * ((seqno - span.firstSeqno) % span.totalBlockCount)

def isLastSeqnoOfFile (span : FileSpan) (seqno : BitVec 32) : Bool :=
  seqno = span.firstSeqno + span.totalBlockCount - 1

/-- `write_meida_piece`: the file behind it and the pieces passed to the file handle. -/
def writeMediaPiece (piece : MediaPiece) : MediaFile × List MediaPiece :=
  match f.span with
  | none => (f, [])
  | some span =>
    let queue := f.queue ++ [{ piece with offset := writeOffset span piece.seqno }]
    if f.isOpen ∧ ((!span.singleFileCircle && isLastSeqnoOfFile span piece.seqno) ∨
        span.cacheBlockCount ≤ queue.length) then
      ({ f with queue := [] }, queue)
    else ({ f with queue := queue }, [])

def handleOpened : MediaFile := { f with isOpen := true }

def handleWrited (seqno : BitVec 32) (ok : Bool) : MediaFile :=
  if ok then
    match f.span with
    | none => f
    | some span =>
      let span := { span with writedBlockCount := span.writedBlockCount + 1 }
      let f := { f with span := some span }
      if ¬ span.singleFileCircle ∧ span.writedBlockCount=span.totalBlockCount ∧
          isLastSeqnoOfFile span seqno ∧ f.queue=[] then f.close
      else f
  else f.close

end MediaFile

structure ChannelSpan where
  firstSeqno : BitVec 32
  lastWriteSeqno : BitVec 32
  blockSize : BitVec 32
  perFileBlockCount : BitVec 32
  timeshiftTotalBlock : BitVec 32

/-- `timeshiht_channel`. The files are made when they are first used; `count` is the number of
pieces so far, and `written` what was passed to the file handles. -/
structure TimeshiftChannel where
  maxFileCount : BitVec 64
  perFileSize : BitVec 64
  span : Option ChannelSpan
  files : BitVec 32 → MediaFile
  count : ℕ
  written : List (BitVec 32 × MediaPiece)

namespace TimeshiftChannel

/-- `__channel_open`. -/
def create (maxFileNum perFileLen : BitVec 64) : TimeshiftChannel :=
  ⟨maxFileNum,perFileLen,none,fun _ => .create,0,[]⟩

def calcFileIndex (span : ChannelSpan) (seqno : BitVec 32) : BitVec 32 :=
  (seqno - span.firstSeqno) % span.timeshiftTotalBlock / span.perFileBlockCount

variable (c : TimeshiftChannel)

/-- The sequence number a piece gets and the channel's numbers for it. -/
def channelSpan (seqno blockSize : BitVec 32) : ChannelSpan :=
  match c.span with
  | none =>
    let perFileSize := c.perFileSize - c.perFileSize % blockSize.setWidth 64
    let perFileBlockCount := (perFileSize / blockSize.setWidth 64).setWidth 32
    { firstSeqno := seqno
      lastWriteSeqno := seqno
      blockSize := blockSize
      perFileBlockCount := perFileBlockCount
      timeshiftTotalBlock := (c.maxFileCount * perFileBlockCount.setWidth 64).setWidth 32 }
  -- a piece that does not follow the last one is taken as if it did
  | some span => { span with lastWriteSeqno := span.lastWriteSeqno + 1 }

/-- The file a piece is passed to, opened with the piece if it is not open. -/
def openedFile (index : BitVec 32) (span : ChannelSpan) : MediaFile :=
  if (c.files index).isOpened then c.files index
  else (c.files index).openFile span.lastWriteSeqno span.perFileBlockCount span.blockSize 1
    (c.maxFileCount=1)

/-- `__channel_write_piece`, with the size of the buffer. -/
def channelWritePiece (seqno size : BitVec 32) : TimeshiftChannel :=
  let span := c.channelSpan seqno size
  let seqno := span.lastWriteSeqno
  let index := calcFileIndex span seqno
  let result := (c.openedFile index span).writeMediaPiece ⟨seqno,0,c.count⟩
  { c with
    span := some span
    files := Function.update c.files index result.1
    count := c.count+1
    written := c.written ++ result.2.map fun piece => (index, piece) }

def updateFile (i : BitVec 32) (f : MediaFile → MediaFile) : TimeshiftChannel :=
  { c with files := Function.update c.files i (f (c.files i)) }

end TimeshiftChannel

inductive TimeshiftEvent where
  | piece
  | opened (i : BitVec 32)
  | writed (i seqno : BitVec 32) (ok : Bool)

namespace TimeshiftChannel

/-- Pieces of one size come with consecutive numbers from `firstSeqno` on. -/
def step (firstSeqno size : BitVec 32) (c : TimeshiftChannel) : TimeshiftEvent → TimeshiftChannel
  | .piece => c.channelWritePiece (firstSeqno + BitVec.ofNat 32 c.count) size
  | .opened i => c.updateFile i MediaFile.handleOpened
  | .writed i seqno ok => c.updateFile i fun f => f.handleWrited seqno ok

/-- Where the piece with a number belongs, in `F` files of `P` blocks of `b` bytes. -/
def PlacedAt (F P b : ℕ) (i : BitVec 32) (piece : MediaPiece) : Prop :=
  i.toNat = piece.number % (F*P) / P ∧ piece.offset.toNat = piece.number % P * b ∧
    piece.offset.toNat+b≤P*b

/-- The pieces that were passed to the files, those that wait and those that were written, are
where they belong. -/
def Placed (F P b : ℕ) (c : TimeshiftChannel) : Prop :=
  ∀ i piece, piece ∈ (c.files i).queue ∨ (i, piece) ∈ c.written → PlacedAt F P b i piece

/-- The 32-bit computations for a piece do not overflow: neither the number of blocks nor the
offset, nor the number of the piece, unless the ring divides the sequence numbers. -/
def Fits (F P b : ℕ) (c : TimeshiftChannel) : TimeshiftEvent → Prop
  | .piece => F*P < 2^32 ∧ (c.count<2^32 ∨ F*P ∣ 2^32) ∧ c.count % P * b < 2^32
  | _ => True

instance (F P b : ℕ) (c : TimeshiftChannel) : (e : TimeshiftEvent) → Decidable (c.Fits F P b e)
  | .piece => inferInstanceAs (Decidable (_ ∧ _ ∧ _))
  | .opened _ => .isTrue trivial
  | .writed _ _ _ => .isTrue trivial

def FindsOpen (F P : ℕ) (c : TimeshiftChannel) : TimeshiftEvent → Prop
  | .piece => c.count % P ≠ 0 → (c.files (BitVec.ofNat 32 (c.count % (F*P) / P))).isOpened = true
  | _ => True

instance (F P : ℕ) (c : TimeshiftChannel) : (e : TimeshiftEvent) → Decidable (c.FindsOpen F P e)
  | .piece => inferInstanceAs (Decidable (_ → _))
  | .opened _ => .isTrue trivial
  | .writed _ _ _ => .isTrue trivial

end TimeshiftChannel

namespace MediaFile

theorem mem_writeMediaPiece {f : MediaFile} {span : FileSpan} (hspan : f.span = some span)
    (piece : MediaPiece)
    {p : MediaPiece} : p ∈ (f.writeMediaPiece piece).1.queue ∨ p ∈ (f.writeMediaPiece piece).2 ↔
      p ∈ f.queue ∨ p = { piece with offset := writeOffset span piece.seqno } := by
  unfold writeMediaPiece
  rw [hspan]
  dsimp only
  split_ifs
  · simp
  · simp

theorem span_writeMediaPiece (f : MediaFile) (piece : MediaPiece) :
    (f.writeMediaPiece piece).1.span = f.span := by
  unfold writeMediaPiece
  split
  · rfl
  · dsimp only
    split_ifs <;> rfl

theorem close_cases (f : MediaFile) : f.close=create ∨ f.close=f ∧ f.span=none := by
  unfold close isOpened
  split_ifs with h
  · exact .inl rfl
  · exact .inr ⟨rfl,by simpa using h⟩

theorem handleWrited_cases (f : MediaFile) (seqno : BitVec 32) (ok : Bool) :
    f.handleWrited seqno ok = create ∨ f.handleWrited seqno ok = f ∨
      ∃ span n, f.span = some span ∧
        f.handleWrited seqno ok = { f with span := some { span with writedBlockCount := n } } := by
  have hclose (g : MediaFile) : g.close=create ∨ g.close=g := g.close_cases.imp_right And.left
  unfold handleWrited
  split_ifs
  · cases hspan : f.span with
    | none => exact .inr (.inl rfl)
    | some span =>
      dsimp only
      split_ifs
      · rcases hclose { f with span := some { span with writedBlockCount :=
          span.writedBlockCount + 1 } } with h | h
        · exact .inl h
        · exact .inr (.inr ⟨span,_,rfl,h⟩)
      · exact .inr (.inr ⟨span,_,rfl,rfl⟩)
  · exact (hclose f).imp_right .inl

end MediaFile

namespace TimeshiftChannel

section Arithmetic

variable {F P b n m : ℕ}

theorem sub_seqno (s : BitVec 32) (h : m≤n) :
    s + BitVec.ofNat 32 n - (s + BitVec.ofNat 32 m) = BitVec.ofNat 32 (n - m) := by
  apply eq_of_toNat_eq
  simp only [toNat_sub,toNat_add,toNat_ofNat]
  omega

theorem mod_mod_of_dvd_or_lt {k : ℕ} (h : n<2^32 ∨ k ∣ 2^32) : n % 2^32 % k = n % k := by
  rcases h with h | h
  · rw [Nat.mod_eq_of_lt h]
  · exact Nat.mod_mod_of_dvd n h

end Arithmetic

def spanAt (F P : ℕ) (firstSeqno size : BitVec 32) (n : ℕ) : ChannelSpan where
  firstSeqno := firstSeqno
  lastWriteSeqno := firstSeqno + BitVec.ofNat 32 n
  blockSize := size
  perFileBlockCount := BitVec.ofNat 32 P
  timeshiftTotalBlock := BitVec.ofNat 32 (F*P)

/-- Open files were opened at the first block of a round, and the channel's numbers are those of
the next piece. -/
structure Aligned (F P : ℕ) (firstSeqno size : BitVec 32) (c : TimeshiftChannel) : Prop where
  numbers : c.channelSpan (firstSeqno + BitVec.ofNat 32 c.count) size = spanAt F P firstSeqno size c.count
  spans : ∀ i span, (c.files i).span = some span →
    span.totalBlockCount = BitVec.ofNat 32 P ∧ span.perBlockSize=size ∧
      ∃ m ≤ c.count, P ∣ m ∧ span.firstSeqno = firstSeqno + BitVec.ofNat 32 m

variable {F P : ℕ} {firstSeqno size : BitVec 32} {c : TimeshiftChannel}

theorem toNat_index {n : ℕ} (hring : F*P<2^32) (hwrap : n<2^32 ∨ F*P ∣ 2^32) :
    (BitVec.ofNat 32 (n % (F*P) / P)).toNat = n % (F*P) / P := by
  refine Nat.mod_eq_of_lt (Nat.lt_of_le_of_lt (Nat.div_le_self _ P) ?_)
  rcases hwrap with hn | hdvd
  · exact Nat.lt_of_le_of_lt (Nat.mod_le n _) hn
  · have hpos : 0<F*P := Nat.pos_of_dvd_of_pos hdvd (by decide)
    exact Nat.lt_trans (Nat.mod_lt n hpos) hring

theorem index_eq {n : ℕ} (hring : F*P<2^32) (hP : P<2^32) (hwrap : n<2^32 ∨ F*P ∣ 2^32) :
    calcFileIndex (spanAt F P firstSeqno size n) (spanAt F P firstSeqno size n).lastWriteSeqno =
      BitVec.ofNat 32 (n % (F*P) / P) := by
  have hdiff : firstSeqno + BitVec.ofNat 32 n - firstSeqno = BitVec.ofNat 32 n := by
    have h := sub_seqno firstSeqno (Nat.zero_le n)
    simpa using h
  apply eq_of_toNat_eq
  unfold calcFileIndex spanAt
  rw [hdiff,toNat_index hring hwrap,toNat_udiv,toNat_umod,toNat_ofNat,toNat_ofNat,
    toNat_ofNat,Nat.mod_eq_of_lt hring,Nat.mod_eq_of_lt hP,mod_mod_of_dvd_or_lt hwrap]

theorem offset_eq {span : FileSpan} {n m : ℕ} (htotal : span.totalBlockCount = BitVec.ofNat 32 P)
    (hsize : span.perBlockSize=size) (hfirst : span.firstSeqno = firstSeqno + BitVec.ofNat 32 m)
    (hP : P<2^32)
    (hmn : m≤n) (hm : P ∣ m) (hwrap : n<2^32 ∨ P ∣ 2^32) (hfit : n % P * size.toNat < 2^32) :
    (MediaFile.writeOffset span (firstSeqno + BitVec.ofNat 32 n)).toNat = n % P * size.toNat := by
  have hrest : (n - m) % 2^32 % P = n % P := by
    rw [mod_mod_of_dvd_or_lt (hwrap.imp_left fun h => by omega)]
    obtain ⟨k,rfl⟩ := hm
    rw [Nat.sub_mul_mod hmn]
  unfold MediaFile.writeOffset
  rw [htotal,hsize,hfirst,sub_seqno firstSeqno hmn,toNat_mul,toNat_umod,toNat_ofNat,
    toNat_ofNat,Nat.mod_eq_of_lt hP,hrest,Nat.mul_comm,Nat.mod_eq_of_lt hfit]

theorem aligned_updateFile (h : c.Aligned F P firstSeqno size) (hplaced : c.Placed F P size.toNat)
    (i : BitVec 32)
    (f : MediaFile → MediaFile) (hf : f (c.files i) = .create ∨
      ((f (c.files i)).queue = (c.files i).queue ∧
      ∀ span, (f (c.files i)).span = some span → ∃ span', (c.files i).span = some span' ∧
        span.firstSeqno = span'.firstSeqno ∧ span.totalBlockCount=span'.totalBlockCount ∧
          span.perBlockSize = span'.perBlockSize)) :
    (c.updateFile i f).Aligned F P firstSeqno size ∧ (c.updateFile i f).Placed F P size.toNat := by
  have hfile (j : BitVec 32) : (c.updateFile i f).files j = if j=i then f (c.files i) else c.files j :=
    Function.update_apply _ _ _ _
  refine ⟨⟨h.numbers,fun j span hspan => ?_⟩,fun j piece hpiece => ?_⟩
  · rw [hfile] at hspan
    split_ifs at hspan with hj
    · rcases hf with hf | ⟨-,hf⟩
      · rw [hf] at hspan
        exact nomatch hspan
      · obtain ⟨span',hspan',hfirst,htotal,hsize⟩ := hf span hspan
        rw [hfirst,htotal,hsize]
        exact h.spans i span' hspan'
    · exact h.spans j span hspan
  · rw [hfile] at hpiece
    refine hplaced j piece (hpiece.imp_left fun hqueue => ?_)
    split_ifs at hqueue with hj
    · rcases hf with hf | ⟨hf,-⟩
      · rw [hf] at hqueue
        exact nomatch hqueue
      · rw [hj,← hf]
        exact hqueue
    · exact hqueue

theorem openedFile_span (h : c.Aligned F P firstSeqno size) (i : BitVec 32) :
    ∃ span, (c.openedFile i (spanAt F P firstSeqno size c.count)).span = some span ∧
      span.totalBlockCount = BitVec.ofNat 32 P ∧ span.perBlockSize=size ∧
        ∃ m ≤ c.count, span.firstSeqno = firstSeqno + BitVec.ofNat 32 m ∧
          (((c.files i).isOpened = true ∧ P ∣ m) ∨ ((c.files i).isOpened = false ∧ m=c.count)) := by
  unfold openedFile
  split_ifs with hopen
  · obtain ⟨span,hspan⟩ := Option.isSome_iff_exists.mp hopen
    obtain ⟨htotal,hsize,m,hm,hdvd,hfirst⟩ := h.spans i span hspan
    exact ⟨span,hspan,htotal,hsize,m,hm,hfirst,.inl ⟨hopen,hdvd⟩⟩
  · exact ⟨_,rfl,rfl,rfl,c.count,Nat.le_refl _,rfl,.inr ⟨Bool.eq_false_iff.mpr hopen,rfl⟩⟩

theorem queue_openedFile (c : TimeshiftChannel) (i : BitVec 32) (span : ChannelSpan) :
    (c.openedFile i span).queue = (c.files i).queue := by
  unfold openedFile MediaFile.openFile
  split_ifs <;> rfl

theorem channelWritePiece_eq (h : c.Aligned F P firstSeqno size) (hring : F*P<2^32) (hP : P<2^32)
    (hwrap : c.count<2^32 ∨ F*P ∣ 2^32) {i : BitVec 32} (hi : BitVec.ofNat 32 (c.count % (F*P) / P) = i)
    {r : MediaFile × List MediaPiece}
    (hr : (c.openedFile i (spanAt F P firstSeqno size c.count)).writeMediaPiece
      ⟨firstSeqno + BitVec.ofNat 32 c.count,0,c.count⟩ = r) :
    c.channelWritePiece (firstSeqno + BitVec.ofNat 32 c.count) size =
      { c with
        span := some (spanAt F P firstSeqno size c.count)
        files := Function.update c.files i r.1
        count := c.count+1
        written := c.written ++ r.2.map fun piece => (i, piece) } := by
  subst hi hr
  unfold channelWritePiece
  dsimp only
  rw [h.numbers,index_eq hring hP hwrap]
  rfl

theorem mem_channelWritePiece (h : c.Aligned F P firstSeqno size) (hring : F*P<2^32) (hP : P<2^32)
    (hwrap : c.count<2^32 ∨ F*P ∣ 2^32) {i : BitVec 32} (hi : BitVec.ofNat 32 (c.count % (F*P) / P) = i)
    {span : FileSpan} (hspan : (c.openedFile i (spanAt F P firstSeqno size c.count)).span = some span)
    (j : BitVec 32) (p : MediaPiece) :
    (p ∈ ((c.channelWritePiece (firstSeqno + BitVec.ofNat 32 c.count) size).files j).queue ∨
        (j, p) ∈ (c.channelWritePiece (firstSeqno + BitVec.ofNat 32 c.count) size).written) ↔
      (p ∈ (c.files j).queue ∨ (j, p) ∈ c.written) ∨
        j = i ∧ p = ⟨firstSeqno + BitVec.ofNat 32 c.count,
          MediaFile.writeOffset span (firstSeqno + BitVec.ofNat 32 c.count),c.count⟩ := by
  obtain ⟨r,hr⟩ : ∃ r, (c.openedFile i (spanAt F P firstSeqno size c.count)).writeMediaPiece
      ⟨firstSeqno + BitVec.ofNat 32 c.count,0,c.count⟩ = r := ⟨_,rfl⟩
  have hmem := MediaFile.mem_writeMediaPiece hspan ⟨firstSeqno + BitVec.ofNat 32 c.count,0,
    c.count⟩ (p := p)
  rw [hr,queue_openedFile] at hmem
  rw [channelWritePiece_eq h hring hP hwrap hi hr]
  dsimp only
  rw [List.mem_append,List.mem_map,Function.update_apply]
  by_cases hj : j=i
  · subst hj
    rw [if_pos rfl]
    constructor
    · rintro (hq | hw | ⟨p',hp',heq⟩)
      · exact (hmem.mp (.inl hq)).imp .inl fun heq => ⟨rfl,heq⟩
      · exact .inl (.inr hw)
      · cases heq
        exact (hmem.mp (.inr hp')).imp .inl fun heq => ⟨rfl,heq⟩
    · rintro ((hq | hw) | ⟨-,heq⟩)
      · exact (hmem.mpr (.inl hq)).imp_right fun hp => .inr ⟨p,hp,rfl⟩
      · exact .inr (.inl hw)
      · exact (hmem.mpr (.inr heq)).imp_right fun hp => .inr ⟨p,hp,rfl⟩
  · rw [if_neg hj]
    constructor
    · rintro (hq | hw | ⟨p',hp',heq⟩)
      · exact .inl (.inl hq)
      · exact .inl (.inr hw)
      · exact absurd (congrArg Prod.fst heq).symm hj
    · rintro ((hq | hw) | ⟨heq,-⟩)
      · exact .inl hq
      · exact .inr (.inl hw)
      · exact absurd heq hj

theorem spanAt_succ (c : TimeshiftChannel) {n : ℕ}
    (h : c.span = some (spanAt F P firstSeqno size n)) (seqno : BitVec 32) :
    c.channelSpan seqno size = spanAt F P firstSeqno size (n+1) := by
  unfold channelSpan
  rw [h]
  unfold spanAt
  rw [BitVec.ofNat_add,← BitVec.add_assoc]
  rfl

theorem piece_keeps (hF : 0<F) (hP : 0<P) (h : c.Aligned F P firstSeqno size)
    (hplaced : c.Placed F P size.toNat)
    (hfits : c.Fits F P size.toNat .piece) (hopen : c.FindsOpen F P .piece) :
    (c.step firstSeqno size .piece).Aligned F P firstSeqno size ∧
      (c.step firstSeqno size .piece).Placed F P size.toNat := by
  obtain ⟨hring,hwrap,hfit⟩ := hfits
  have hPlt : P<2^32 := Nat.lt_of_le_of_lt (Nat.le_mul_of_pos_left P hF) hring
  obtain ⟨i,hi⟩ : ∃ i, BitVec.ofNat 32 (c.count % (F*P) / P) = i := ⟨_,rfl⟩
  obtain ⟨span,hspan,htotal,hsize,m,hm,hfirst,hcase⟩ := openedFile_span h i
  have hdvd : P ∣ m := by
    rcases hcase with ⟨-,hdvd⟩ | ⟨hclosed,rfl⟩
    · exact hdvd
    · by_contra hnot
      have hfound := hopen fun hzero => hnot (Nat.dvd_of_mod_eq_zero hzero)
      rw [hi,hclosed] at hfound
      exact nomatch hfound
  constructor
  · unfold step
    rw [channelWritePiece_eq h hring hPlt hwrap hi rfl]
    refine ⟨spanAt_succ _ rfl _,fun j span' hspan' => ?_⟩
    dsimp only at hspan'
    rw [Function.update_apply] at hspan'
    split_ifs at hspan' with hj
    · rw [MediaFile.span_writeMediaPiece,hspan] at hspan'
      cases hspan'
      exact ⟨htotal,hsize,m,Nat.le_succ_of_le hm,hdvd,hfirst⟩
    · obtain ⟨htotal',hsize',m',hm',hdvd',hfirst'⟩ := h.spans j span' hspan'
      exact ⟨htotal',hsize',m',Nat.le_succ_of_le hm',hdvd',hfirst'⟩
  · intro j piece hpiece
    rcases (mem_channelWritePiece h hring hPlt hwrap hi hspan j piece).mp hpiece with hold | ⟨rfl,rfl⟩
    · exact hplaced j piece hold
    · have hwrapP : c.count<2^32 ∨ P ∣ 2^32 := hwrap.imp_right (Nat.dvd_trans (Nat.dvd_mul_left P F))
      have hoffset := offset_eq htotal hsize hfirst hPlt hm hdvd hwrapP hfit
      refine ⟨?_,hoffset,?_⟩
      · rw [← hi]
        exact toNat_index hring hwrap
      · have hless := Nat.mod_lt c.count hP
        rw [hoffset,← Nat.succ_mul]
        exact Nat.mul_le_mul_right _ hless

theorem piece_breaks (hF : 0<F) (hsize : 0<size.toNat) (h : c.Aligned F P firstSeqno size)
    (hfits : c.Fits F P size.toNat .piece) (hplaced : (c.step firstSeqno size .piece).Placed F P
      size.toNat) :
    c.FindsOpen F P .piece := by
  obtain ⟨hring,hwrap,hfit⟩ := hfits
  have hPlt : P<2^32 := Nat.lt_of_le_of_lt (Nat.le_mul_of_pos_left P hF) hring
  intro hmiddle
  obtain ⟨i,hi⟩ : ∃ i, BitVec.ofNat 32 (c.count % (F*P) / P) = i := ⟨_,rfl⟩
  obtain ⟨span,hspan,htotal,hblock,m,hm,hfirst,hcase⟩ := openedFile_span h i
  rw [hi]
  rcases hcase with ⟨hopen,-⟩ | ⟨-,rfl⟩
  · exact hopen
  · have hright := (hplaced i _ ((mem_channelWritePiece h hring hPlt hwrap hi hspan i _).mpr
      (.inr ⟨rfl,rfl⟩))).2.1
    have hzero : MediaFile.writeOffset span (firstSeqno + BitVec.ofNat 32 c.count) = 0 := by
      unfold MediaFile.writeOffset
      rw [hfirst,BitVec.sub_self,BitVec.zero_umod,BitVec.mul_zero]
      rfl
    rw [hzero] at hright
    exact absurd hright.symm (Nat.mul_ne_zero hmiddle hsize.ne')

theorem aligned_create {maxFileNum perFileLen : BitVec 64} (hF : maxFileNum.toNat=F)
    (hP : perFileLen.toNat / size.toNat = P) :
    (create maxFileNum perFileLen).Aligned F P firstSeqno size := by
  have hwidth : (size.setWidth 64).toNat = size.toNat := toNat_setWidth_of_le (by decide)
  have hwhole : (perFileLen - perFileLen % size.setWidth 64).toNat = perFileLen.toNat -
    perFileLen.toNat % size.toNat := by
    rw [toNat_sub_of_le,toNat_umod,hwidth]
    exact Nat.mod_le _ _
  have hcount : ((perFileLen - perFileLen % size.setWidth 64) / size.setWidth 64).setWidth 32 =
    BitVec.ofNat 32 P := by
    apply eq_of_toNat_eq
    rw [toNat_setWidth,toNat_udiv,hwhole,hwidth,← Nat.div_eq_sub_mod_div,hP,toNat_ofNat]
  have htotal : (maxFileNum * (BitVec.ofNat 32 P).setWidth 64).setWidth 32 = BitVec.ofNat 32 (F*P) := by
    apply eq_of_toNat_eq
    rw [toNat_setWidth,toNat_mul,toNat_setWidth,toNat_ofNat,toNat_ofNat,hF]
    rw [Nat.mod_mod_of_dvd _ (by decide),Nat.mul_mod,Nat.mod_mod_of_dvd _ (by decide),
      Nat.mod_mod,← Nat.mul_mod]
  refine ⟨?_,fun i span hspan => nomatch hspan⟩
  unfold channelSpan create spanAt
  dsimp only
  rw [hcount,htotal]
  simp

/-- In a run whose numbers fit, the pieces are where they belong just when every piece in the
middle of a file finds it open. -/
theorem pieces_placed_iff (maxFileNum perFileLen : BitVec 64) (firstSeqno size : BitVec 32) {F P : ℕ}
    (hF : maxFileNum.toNat=F) (hP : perFileLen.toNat / size.toNat = P) (hfiles : 0<F) (hblocks : 0<P)
    {es : List TimeshiftEvent}
    (hfits : AlongRun (step firstSeqno size) (Fits F P size.toNat) (create maxFileNum perFileLen) es) :
    (∀ n, ((es.take n).foldl (step firstSeqno size) (create maxFileNum perFileLen)).Placed F P
      size.toNat) ↔
      AlongRun (step firstSeqno size) (FindsOpen F P) (create maxFileNum perFileLen) es := by
  have hsize : 0<size.toNat := by
    by_contra hzero
    rw [Nat.eq_zero_of_not_pos hzero,Nat.div_zero] at hP
    omega
  refine alongRun_iff_of_invariant (fun c => c.Aligned F P firstSeqno size ∧ c.Placed F P size.toNat)
    (fun c => c.Placed F P size.toNat) (fun c h => h.2) ?_ ?_ hfits ⟨aligned_create hF hP,nofun⟩
  · rintro c e ⟨haligned,hplaced⟩ hfit hopen
    cases e with
    | piece => exact piece_keeps hfiles hblocks haligned hplaced hfit hopen
    | opened i => exact aligned_updateFile haligned hplaced i _ (.inr ⟨rfl,
      fun span h => ⟨span,h,rfl,rfl,rfl⟩⟩)
    | writed i seqno ok =>
      refine aligned_updateFile haligned hplaced i (fun f => f.handleWrited seqno ok) ?_
      rcases (c.files i).handleWrited_cases seqno ok with h | h | ⟨span,n,hspan,h⟩
      · exact .inl h
      · rw [h]
        exact .inr ⟨rfl,fun span h => ⟨span,h,rfl,rfl,rfl⟩⟩
      · rw [h]
        refine .inr ⟨rfl,fun span' h' => ⟨span,hspan,?_⟩⟩
        cases h'
        exact ⟨rfl,rfl,rfl⟩
  · rintro c e ⟨haligned,-⟩ hfit hnext
    cases e with
    | piece => exact piece_breaks hfiles hsize haligned hfit hnext
    | opened i => trivial
    | writed i seqno ok => trivial

/-- Two files of three blocks of one byte, from sequence number 5 on: four pieces. -/
theorem four_pieces_placed :
    AlongRun (step 5 1) (Fits 2 3 1) (create 2 3) [.piece,.opened 0,.piece,.piece,.writed 0 5 true,
      .piece] ∧
      ∀ n, (([.piece,.opened 0,.piece,.piece,.writed 0 5 true,.piece].take n).foldl (step 5 1)
        (create 2 3)).Placed
        2 3 1 :=
  ⟨by decide,(pieces_placed_iff 2 3 5 1 rfl rfl (by decide) (by decide) (by decide)).mpr (by decide)⟩

/-- The write of the first piece fails behind that of the second one: the third piece goes to the
beginning of the file. -/
theorem failed_write_misplaces :
    ¬ ([.piece,.opened 0,.piece,.writed 0 5 false,.piece].foldl (step 5 1) (create 2 3)).Placed 2 3 1 :=
  fun h => absurd (h 0 ⟨7,0,2⟩ (by decide)).2.1 (by decide)

end TimeshiftChannel

end P2Streaming
