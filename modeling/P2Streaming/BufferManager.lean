import P2Streaming.AbsentPacketList
import P2Streaming.BoundedLoops
import P2Streaming.PacketBuffer

/-!
# `buffer_manager`: which packets the client knows of

The client learns of packets from the channel's position, from the length of the film and from
what its peers tell it. `bigest_sqno_i_know_` says how far it has come; the numbers up to there
are in the memory cache or have been entered in the absent list.
-/
namespace P2Streaming
open WrappableInteger BoundedLoops

/-- The fields of `buffermap_info` that `process_recvd_buffermap` reads. -/
structure BuffermapInfo where
  bitset : Option (List (BitVec 8))
  firstSeqnoInBitset : Option (BitVec 32)
  bigestSeqnoIKnow : Option (BitVec 32)
  recentSeqno : List (BitVec 32)

/-- `buffer_manager` with a memory cache of `2 ^ n` slots. -/
structure BufferManager (n : ℕ) where
  isVod : Bool
  seqnoRange : Option (BitVec 32 × BitVec 32)
  memoryPacketCache : PacketBuffer n
  absentPacketList : AbsentPacketList
  bigestSqnoIKnow : Option (BitVec 32)

namespace BufferManager

variable {n : ℕ}

def maxBitmapRangeCnt (n : ℕ) : ℕ := min (2^15 - 1) (2^n)

def lacks (m : BufferManager n) (seqno now : BitVec 32) : Bool :=
  decide (m.memoryPacketCache.has seqno now = .notHas)

/-- `just_known`; it leaves a slot that is in use alone. The owners are left out. -/
def justKnown (l : AbsentPacketList) (seqno smallestSeqnoICare now : BitVec 32) :
    AbsentPacketList :=
  if (l.getPacketInfo seqno).isSome then l else (l.justKnown seqno smallestSeqnoICare now).1

/-- One turn of the loops that enter all numbers up to `last`. -/
def learnBody (know : AbsentPacketList → BitVec 32 → AbsentPacketList) (last : BitVec 32) :
    BitVec 32 × AbsentPacketList → Turn (BitVec 32 × AbsentPacketList)
  | (seqno, l) =>
      if wrappableLessEqual seqno last then .again (seqno+1, know l seqno) else .leave (seqno, l)

def learnUpTo (know : AbsentPacketList → BitVec 32 → AbsentPacketList) (first last : BitVec 32)
    (l : AbsentPacketList) : AbsentPacketList :=
  (loop (learnBody know last) ((last - first).toNat + 2) (first, l)).2

def setBigestSeqno (m : BufferManager n) (currentBigestSeq : BitVec 32) (backfetchCnt : ℤ)
    (now : BitVec 32) : BufferManager n :=
  let smallest := currentBigestSeq - BitVec.ofInt 32 backfetchCnt
  let bigest := smallest - 1 + BitVec.ofInt 32 (min backfetchCnt 1000)
  let know := fun l seqno =>
    if m.lacks seqno now then (l.justKnown seqno smallest now).1 else l
  { m with
    bigestSqnoIKnow := some bigest
    absentPacketList := learnUpTo know smallest bigest (m.absentPacketList.trim smallest backfetchCnt) }

def maxInjectCount (m : BufferManager n) : ℤ :=
  let cnt : ℤ := 2^15 * 2 / 3 - m.absentPacketList.size - 1
  if (2^n : ℤ) - 100 < cnt then 2^n - 100 else cnt

def bound (lower middle upper : ℤ) : ℤ := min (max lower middle) upper

/-- One turn of the loop of `inject_absent_seqno`; its last component is `rangeCnt`. -/
def injectBody (m : BufferManager n) (bigest smallestSeqnoICare now : BitVec 32) :
    BitVec 32 × AbsentPacketList × ℕ → Turn (BitVec 32 × AbsentPacketList × ℕ)
  | (seqno, l, rangeCnt) =>
      if wrappableLessEqual seqno bigest && decide (1 < rangeCnt) then
        if m.lacks seqno now then
          let known := l.justKnown seqno smallestSeqnoICare now
          if known.2 then .again (seqno+1, known.1, rangeCnt - 1)
          else .leave (seqno, known.1, rangeCnt - 1)
        else .again (seqno+1, l, rangeCnt - 1)
      else .leave (seqno, l, rangeCnt)

def withinFilm (m : BufferManager n) (bigest : BitVec 32) : BitVec 32 :=
  match m.seqnoRange with
  | some range => if wrappableGreater bigest range.2 then range.2 else bigest
  | none => bigest

def injectAbsentSeqno (m : BufferManager n) (smallestSeqnoICare : BitVec 32) (bufferSize : ℤ)
    (now : BitVec 32) : BufferManager n :=
  match m.isVod, m.bigestSqnoIKnow with
  | true, some known =>
      if 0 < m.maxInjectCount then
        let bigest := m.withinFilm (smallestSeqnoICare + BitVec.ofInt 32 m.maxInjectCount)
        let rangeCnt := (bound 300 (5 * bufferSize + 10) 600).toNat
        let (seqno, l, _) := loop (m.injectBody bigest smallestSeqnoICare now) (rangeCnt+1)
          (known+1, m.absentPacketList, rangeCnt)
        { m with absentPacketList := l, bigestSqnoIKnow := some (seqno - 1) }
      else m
  | _, _ => m

/-- The bigest number of a message, cut down to what the client can care for. -/
def clip (m : BufferManager n) (bigest smallestSeqnoICare : BitVec 32) : BitVec 32 :=
  let maxSeqnoLocalCare := smallestSeqnoICare + BitVec.ofNat 32 (maxBitmapRangeCnt n)
  m.withinFilm (if wrappableGreater bigest maxSeqnoLocalCare then maxSeqnoLocalCare else bigest)

/-- `bigest_sqno_i_know_` raised to a number of a message. -/
def raised (known bigest : BitVec 32) : BitVec 32 :=
  if wrappableLess known bigest then bigest else known

/-- The loop over the numbers a peer has; numbers already played are skipped. -/
def ownedLoop (m : BufferManager n) (known smallestSeqnoICare now : BitVec 32) :
    List (BitVec 32) → AbsentPacketList → AbsentPacketList
  | [], l => l
  | seqno :: rest, l =>
      if m.seqnoRange.any fun range => wrappableGreater seqno range.2 then l
      else if wrappableLess seqno smallestSeqnoICare then
        m.ownedLoop known smallestSeqnoICare now rest l
      else if wrappableGreater seqno known then l
      else
        m.ownedLoop known smallestSeqnoICare now rest
          (if m.lacks seqno now then justKnown l seqno smallestSeqnoICare now else l)

/-- `process_recvd_buffermap` on a list of numbers. `current_server_seqno_` is left out. -/
def processRecvdSeqnos (m : BufferManager n) (seqnomap : List (BitVec 32))
    (bigest smallestSeqnoICare now : BitVec 32) (addToOwner : Bool) : BufferManager n :=
  match m.bigestSqnoIKnow with
  | none => m
  | some known =>
      if seqnomap.isEmpty then m
      else
        let bigest := m.clip bigest smallestSeqnoICare
        let know := fun l seqno =>
          if m.lacks seqno now then justKnown l seqno smallestSeqnoICare now else l
        let l := learnUpTo know known bigest m.absentPacketList
        let known := raised known bigest
        let known := if wrappableGreater smallestSeqnoICare known then smallestSeqnoICare else known
        { m with
          bigestSqnoIKnow := some known
          absentPacketList :=
            if addToOwner then m.ownedLoop known smallestSeqnoICare now seqnomap l else l }

/-- The bits of a byte as `is_bit` reads them, the highest first. -/
def bits (byte : BitVec 8) : List Bool := (List.range 8).map fun j => byte.getLsbD (7 - j)

/-- The inner loop over a byte of the bitset: the numbers found, and whether the scan stops. -/
def scanBits (seqMin seqMax bigestSeqno : BitVec 32) : List Bool → BitVec 32 → List (BitVec 32) × Bool
  | [], _ => ([], false)
  | bit :: rest, firstSeqno =>
      if wrappableGreater firstSeqno bigestSeqno || wrappableGreater firstSeqno seqMax then ([], true)
      else
        let (found, stops) := scanBits seqMin seqMax bigestSeqno rest (firstSeqno+1)
        (if bit && wrappableGreaterEqual firstSeqno seqMin then firstSeqno :: found else found, stops)

def scanBytes (seqMin seqMax bigestSeqno : BitVec 32) : List (BitVec 8) → BitVec 32 → List (BitVec 32)
  | [], _ => []
  | byte :: rest, firstSeqno =>
      if byte=0 then scanBytes seqMin seqMax bigestSeqno rest (firstSeqno+8)
      else
        let (found, stops) := scanBits seqMin seqMax bigestSeqno (bits byte) firstSeqno
        if stops then found else found ++ scanBytes seqMin seqMax bigestSeqno rest (firstSeqno+8)

/-- The numbers of the bitset that the client still lacks; whole bytes before `seqMin` are
jumped over. -/
def bitsetSeqnos (bufmap : BuffermapInfo) (seqMin seqMax : BitVec 32) : List (BitVec 32) :=
  match bufmap.bitset, bufmap.firstSeqnoInBitset with
  | some bitset, some firstSeqno =>
      let i := if wrappableLess firstSeqno seqMin then (wrappableMinus seqMin firstSeqno).toNat / 8 else 0
      scanBytes seqMin seqMax (bufmap.bigestSeqnoIKnow.getD 0) (bitset.drop i)
        (firstSeqno + BitVec.ofNat 32 (i*8))
  | _, _ => []

/-- The bigest number of the bitset, or the one the peer says it knows if that is larger. -/
def bigestOf (bufmap : BuffermapInfo) (back : BitVec 32) : BitVec 32 :=
  match bufmap.bigestSeqnoIKnow with
  | some bigest => if wrappableLess back bigest then bigest else back
  | none => back

/-- The numbers received of late, for which only a live channel looks. -/
def recentSeqnos (m : BufferManager n) (bufmap : BuffermapInfo) (seqMin seqMax : BitVec 32) :
    List (BitVec 32) :=
  if m.isVod then []
  else
    (bufmap.recentSeqno.filter fun seqno =>
      wrappableLessEqual seqMin seqno && wrappableLessEqual seqno seqMax).mergeSort wrappableLessEqual

def seqMin (m : BufferManager n) (known : BitVec 32) : BitVec 32 :=
  m.absentPacketList.minSeqno.getD known

/-- `process_recvd_buffermap` on a message. -/
def processRecvdBuffermap (m : BufferManager n) (bufmap : BuffermapInfo)
    (smallestSeqnoICare now : BitVec 32) (addToOwner : Bool) : BufferManager n :=
  match m.bigestSqnoIKnow with
  | none => m
  | some known =>
      let seqMin := m.seqMin known
      let seqMax := seqMin + BitVec.ofNat 32 (maxBitmapRangeCnt n)
      let inBitset := bitsetSeqnos bufmap seqMin seqMax
      let recent := m.recentSeqnos bufmap seqMin seqMax
      let m :=
        match inBitset.getLast? with
        | some back =>
            m.processRecvdSeqnos inBitset (bigestOf bufmap back) smallestSeqnoICare now addToOwner
        | none => m
      match recent.getLast? with
      | some back => m.processRecvdSeqnos recent back smallestSeqnoICare now addToOwner
      | none => m

end BufferManager
end P2Streaming
