import P2Streaming.HttpHeader
import P2Streaming.TransitionRuns

/-!
# `basic_http_connection_impl`: receiving

The receive handler parses the header, hands on what stands behind it, and starts the next read.
It also runs without a read behind it: `keep_async_receiving` posts it when bytes were left in the
buffer while the reception was blocked. The application may block and resume the reception at any
time, also inside the callbacks the handler makes.
-/
namespace P2Streaming.Http
open BigEndianBytes PrefixScanners TransitionRuns

inductive RecvState where
  | recving | recved
  deriving DecidableEq, Repr

/-- What the application may call at any time, also inside a callback. -/
inductive Call where
  | blockAsyncReceiving | keepAsyncReceiving
  deriving DecidableEq, Repr

/-- The callbacks: `dispatch_request` or `dispatch_response`, and `dispatch_message`. -/
inductive Dispatch where
  | header (bytes : List Byte)
  | packet (data : List Byte)
  deriving DecidableEq, Repr

/-- The receiving side of a connected `basic_http_connection_impl`: `reads` counts the outstanding
reads and `posted` the posted handlers, `unread` is what no read has got yet. -/
structure HttpConnection where
  passive : Bool
  isRecvBlocked : Bool
  recvState : RecvState
  isHeaderRecvd : Bool
  closed : Bool
  recvBuf : List Byte
  reads : ℕ
  posted : ℕ
  unread : List Byte
  dispatched : List Dispatch
  deriving DecidableEq, Repr

namespace HttpConnection

def create (passive : Bool) (stream : List Byte) : HttpConnection where
  passive := passive
  isRecvBlocked := true
  recvState := .recved
  isHeaderRecvd := false
  closed := false
  recvBuf := []
  reads := 0
  posted := 0
  unread := stream
  dispatched := []

variable (c : HttpConnection)

/-- `async_read` into the stream buffer. -/
def asyncRead : HttpConnection :=
  { c with recvState := .recving, reads := c.reads + 1 }

def doKeepReceiving : HttpConnection := if c.closed then c else c.asyncRead

def keepAsyncReceiving : HttpConnection :=
  if c.isRecvBlocked ∧ c.recvState ≠ .recving then
    let c := { c with isRecvBlocked := false }
    if c.isHeaderRecvd ∧ c.recvBuf≠[] then { c with posted := c.posted + 1 }
    else c.doKeepReceiving
  else c

def call : Call → HttpConnection
  | .blockAsyncReceiving => { c with isRecvBlocked := true }
  | .keepAsyncReceiving => c.keepAsyncReceiving

def dispatch (d : Dispatch) (calls : List Call) : HttpConnection :=
  calls.foldl call { c with dispatched := c.dispatched ++ [d] }

/-- The handler once the header has been parsed; what stands behind it goes back into the buffer
if the application has blocked the reception. -/
def headerRecvd (len : ℕ) (inHeader inPacket : List Call) : HttpConnection :=
  let buf := c.recvBuf.drop len
  let c := { c with isHeaderRecvd := true, recvBuf := [] }.dispatch (.header (c.recvBuf.take len))
    inHeader
  if buf=[] then c.asyncRead
  else if c.isRecvBlocked then { c with recvBuf := c.recvBuf ++ buf }
  else (c.dispatch (.packet buf) inPacket).asyncRead

/-- `__async_recv_handler` without an error. -/
def asyncRecvHandler (inHeader inPacket : List Call) : HttpConnection :=
  if c.closed then c
  else
    let c := { c with recvState := .recved }
    if c.isRecvBlocked then c
    else if c.isHeaderRecvd then
      ({ c with recvBuf := [] }.dispatch (.packet c.recvBuf) inPacket).asyncRead
    else
      match parse c.passive c.recvBuf with
      | some (.accepted len) => if 0<len then c.headerRecvd len inHeader inPacket else c.asyncRead
      | some .rejected => { c with recvBuf := [], closed := true }
      | none => c.asyncRead

/-- What can happen: an outstanding read gets at least one and at most `k + 1` bytes, a posted
handler runs, or the application makes a call. -/
inductive Event where
  | read (k : ℕ) (inHeader inPacket : List Call)
  | runPosted (inHeader inPacket : List Call)
  | call (c : Call)
  deriving DecidableEq, Repr

def step : Event → HttpConnection
  | .read k inHeader inPacket =>
      if 0<c.reads ∧ c.unread≠[] then
        { c with
          reads := c.reads - 1
          recvBuf := c.recvBuf ++ c.unread.take (k+1)
          unread := c.unread.drop (k+1) }.asyncRecvHandler inHeader inPacket
      else c
  | .runPosted inHeader inPacket =>
      if 0<c.posted then { c with posted := c.posted - 1 }.asyncRecvHandler inHeader inPacket else c
  | .call a => c.call a

/-- A reception that was blocked is resumed; the first argument tells whether it is blocked. -/
def resumes : Bool → List Call → Bool
  | _, [] => false
  | _, .blockAsyncReceiving :: calls => resumes true calls
  | blocked, .keepAsyncReceiving :: calls => blocked || resumes blocked calls

/-- The application does not block and resume the reception inside a callback, and a posted
handler does not run while a read is outstanding. -/
def Harmless : Event → Prop
  | .read _ inHeader inPacket => resumes false inHeader = false ∧ resumes false inPacket = false
  | .runPosted inHeader inPacket =>
      c.reads = 0 ∧ resumes false inHeader = false ∧ resumes false inPacket = false
  | .call _ => True

instance : (e : Event) → Decidable (c.Harmless e)
  | .read _ _ _ => inferInstanceAs (Decidable (_ ∧ _))
  | .runPosted _ _ => inferInstanceAs (Decidable (_ ∧ _ ∧ _))
  | .call _ => inferInstanceAs (Decidable True)

/-- Where the reception stands in a stream of a header and a body. -/
inductive Place (header body : List Byte) (c : HttpConnection) : Prop
  | inHeader (hh : c.isHeaderRecvd=false) (hp : c.posted=0) (hd : c.dispatched=[])
      (hu : c.recvBuf ++ c.unread = header ++ body)
  | inBody (bufs : List (List Byte)) (hh : c.isHeaderRecvd=true)
      (hd : c.dispatched = .header header :: bufs.map .packet)
      (hu : bufs.flatten ++ (c.recvBuf++c.unread) = body)

/-- At most one read is outstanding, and `recv_state_` tells whether one is. -/
structure InStep (header body : List Byte) (c : HttpConnection) : Prop where
  isOpen : c.closed=false
  reads : c.reads = if c.recvState = .recving then 1 else 0
  accepts : parse c.passive (header++body) = some (.accepted header.length)
  place : c.Place header body

theorem inStep_create {passive : Bool} {header body : List Byte}
    (h : parse passive (header++body) = some (.accepted header.length)) :
    (create passive (header++body)).InStep header body :=
  ⟨rfl,rfl,h,.inHeader rfl rfl rfl rfl⟩

theorem foldl_call {calls : List Call} {c : HttpConnection} (h : resumes c.isRecvBlocked calls = false) :
    ∃ blocked, calls.foldl call c = { c with isRecvBlocked := blocked } := by
  induction calls generalizing c with
  | nil => exact ⟨c.isRecvBlocked,rfl⟩
  | cons a calls ih =>
    rw [List.foldl_cons]
    cases a with
    | blockAsyncReceiving =>
      exact ih (c := { c with isRecvBlocked := true }) h
    | keepAsyncReceiving =>
      obtain ⟨hblocked,hrest⟩ := Bool.or_eq_false_iff.mp h
      have hsame : c.call .keepAsyncReceiving = c := by
        rw [call,keepAsyncReceiving,if_neg (by simp [hblocked])]
      rw [hsame]
      exact ih hrest

theorem dispatch_eq {calls : List Call} {c : HttpConnection} (hb : c.isRecvBlocked=false)
    (h : resumes false calls = false) (d : Dispatch) : ∃ blocked, c.dispatch d calls =
      { c with isRecvBlocked := blocked, dispatched := c.dispatched ++ [d] } :=
  foldl_call (c := { c with dispatched := c.dispatched ++ [d] }) ((congrArg (resumes · calls) hb).trans h)

variable {header body : List Byte} {c}

theorem InStep.call (h : c.InStep header body) (a : Call) : (c.call a).InStep header body := by
  obtain ⟨ho,hreads,ha,hp⟩ := h
  cases a with
  | blockAsyncReceiving =>
    refine ⟨ho,hreads,ha,?_⟩
    cases hp with
    | inHeader hh hp hd hu => exact .inHeader hh hp hd hu
    | inBody bufs hh hd hu => exact .inBody bufs hh hd hu
  | keepAsyncReceiving =>
    rw [HttpConnection.call,keepAsyncReceiving]
    by_cases hgo : c.isRecvBlocked=true ∧ c.recvState ≠ .recving
    swap
    · rw [if_neg hgo]
      exact ⟨ho,hreads,ha,hp⟩
    dsimp only
    have hzero : c.reads=0 := by rw [hreads,if_neg hgo.2]
    split_ifs with hleft
    · refine ⟨ho,hreads,ha,?_⟩
      cases hp with
      | inHeader hh => simp [hh] at hleft
      | inBody bufs hh hd hu => exact .inBody bufs hh hd hu
    · rw [doKeepReceiving,if_neg (by simp [ho])]
      refine ⟨ho,by simp [asyncRead,hzero],ha,?_⟩
      cases hp with
      | inHeader hh hp hd hu => exact .inHeader hh hp hd hu
      | inBody bufs hh hd hu => exact .inBody bufs hh hd hu

theorem split_header {recvBuf unread : List Byte} (hu : recvBuf ++ unread = header ++ body)
    (hlen : header.length ≤ recvBuf.length) :
    recvBuf.take header.length = header ∧ recvBuf.drop header.length ++ unread = body := by
  have hsplit : recvBuf.take header.length ++ (recvBuf.drop header.length ++ unread) = header ++
    body := by
    rw [← List.append_assoc,List.take_append_drop,hu]
  exact List.append_inj hsplit (by simpa using hlen)

theorem headerRecvd_inStep (ho : c.closed=false) (hzero : c.reads=0)
    (hrecved : c.recvState = .recved) (hb : c.isRecvBlocked=false)
    (ha : parse c.passive (header++body) = some (.accepted header.length))
    (hd : c.dispatched=[]) (hu : c.recvBuf ++ c.unread = header ++ body)
    (hlen : header.length ≤ c.recvBuf.length) {inHeader inPacket : List Call}
    (h1 : resumes false inHeader = false) (h2 : resumes false inPacket = false) :
    (c.headerRecvd header.length inHeader inPacket).InStep header body := by
  obtain ⟨htake,hdrop⟩ := split_header hu hlen
  rw [headerRecvd,htake]
  obtain ⟨blocked,hdis⟩ := dispatch_eq (c := { c with isHeaderRecvd := true, recvBuf := [] }) hb h1
    (.header header)
  rw [hdis]
  generalize c.recvBuf.drop header.length = buf at hdrop
  split_ifs with hnil hblocked
  · refine ⟨ho,by simp [asyncRead,hzero],ha,.inBody [] rfl (by simp [asyncRead,hd]) ?_⟩
    simpa [asyncRead,hnil] using hdrop
  · refine ⟨ho,by simp [hzero,hrecved],ha,.inBody [] rfl (by simp [hd]) ?_⟩
    simpa using hdrop
  · obtain ⟨blocked',hdis'⟩ := dispatch_eq
      (c := { c with
        isHeaderRecvd := true
        recvBuf := []
        isRecvBlocked := blocked
        dispatched := c.dispatched ++ [.header header] }) (by simpa using hblocked) h2 (.packet buf)
    rw [hdis']
    refine ⟨ho,by simp [asyncRead,hzero],ha,.inBody [buf] rfl (by simp [asyncRead,hd]) ?_⟩
    simpa [asyncRead] using hdrop

theorem asyncRecvHandler_inStep (ho : c.closed=false) (hzero : c.reads=0)
    (ha : parse c.passive (header++body) = some (.accepted header.length))
    (hp : c.Place header body) {inHeader inPacket : List Call}
    (h1 : resumes false inHeader = false) (h2 : resumes false inPacket = false) :
    (c.asyncRecvHandler inHeader inPacket).InStep header body := by
  rw [asyncRecvHandler,if_neg (by simp [ho])]
  by_cases hb : c.isRecvBlocked=true
  · rw [if_pos hb]
    refine ⟨ho,hzero,ha,?_⟩
    cases hp with
    | inHeader hh hp hd hu => exact .inHeader hh hp hd hu
    | inBody bufs hh hd hu => exact .inBody bufs hh hd hu
  rw [if_neg hb]
  have hb' : c.isRecvBlocked=false := by simpa using hb
  cases hp with
  | inBody bufs hh hd hu =>
    rw [if_pos hh]
    obtain ⟨blocked,hdis⟩ := dispatch_eq
      (c := { c with recvState := .recved, recvBuf := [] }) hb' h2 (.packet c.recvBuf)
    rw [hdis]
    refine ⟨ho,by simp [asyncRead,hzero],ha,.inBody (bufs ++ [c.recvBuf]) hh ?_ ?_⟩
    · simp [asyncRead,hd]
    · simpa [asyncRead] using hu
  | inHeader hh hp hd hu =>
    rw [if_neg (by simp [hh])]
    have hread : ({ c with recvState := .recved } : HttpConnection).asyncRead.InStep header body :=
      ⟨ho,by simp [asyncRead,hzero],ha,.inHeader hh hp hd hu⟩
    -- the buffer holds a prefix of the stream, so the parser accepts the header or waits
    rcases parse_isPrefix ⟨c.unread,hu⟩ ha with hnone | hsome
    · rw [hnone]
      exact hread
    · rw [hsome]
      dsimp only
      split_ifs with hpos
      · exact headerRecvd_inStep (c := { c with recvState := .recved }) ho hzero rfl hb' ha hd hu
          (parse_accepted_le hsome) h1 h2
      · exact hread

theorem InStep.step (h : c.InStep header body) {e : Event} (hc : c.Harmless e) :
    (c.step e).InStep header body := by
  cases e with
  | call a => exact h.call a
  | read k inHeader inPacket =>
    rw [HttpConnection.step]
    split_ifs with hgo
    swap
    · exact h
    obtain ⟨ho,hreads,ha,hp⟩ := h
    have hone : c.reads=1 := by
      split_ifs at hreads
      · exact hreads
      · omega
    have hmove : ∀ l : List Byte, c.recvBuf ++ c.unread.take (k+1) ++ c.unread.drop (k+1) = l ↔
        c.recvBuf ++ c.unread = l := by
      intro l
      rw [List.append_assoc,List.take_append_drop]
    have hzero : c.reads - 1 = 0 := by omega
    refine asyncRecvHandler_inStep
      (c := { c with
        reads := c.reads - 1
        recvBuf := c.recvBuf ++ c.unread.take (k+1)
        unread := c.unread.drop (k+1) }) ho hzero ha ?_ hc.1 hc.2
    cases hp with
    | inHeader hh hp hd hu => exact .inHeader hh hp hd ((hmove _).mpr hu)
    | inBody bufs hh hd hu =>
      refine .inBody bufs hh hd ?_
      rw [← hu,(hmove _).mpr rfl]
  | runPosted inHeader inPacket =>
    rw [HttpConnection.step]
    split_ifs with hgo
    swap
    · exact h
    obtain ⟨ho,hreads,ha,hp⟩ := h
    obtain ⟨hzero,h1,h2⟩ := hc
    refine asyncRecvHandler_inStep (c := { c with posted := c.posted - 1 }) ho hzero ha ?_ h1 h2
    cases hp with
    | inHeader hh hp hd hu => omega
    | inBody bufs hh hd hu => exact .inBody bufs hh hd hu

/-- Nothing has been dispatched, or the header and behind it the beginning of the body. -/
def DispatchedInOrder (header body : List Byte) (dispatched : List Dispatch) : Prop :=
  dispatched=[] ∨ ∃ bufs : List (List Byte),
    dispatched = .header header :: bufs.map .packet ∧ bufs.flatten <+: body

/-- In every run of harmless events at most one read is outstanding and the header and the body
are dispatched in order, each byte once. -/
theorem dispatched_in_order {passive : Bool} {header body : List Byte}
    (haccepted : parse passive (header++body) = some (.accepted header.length))
    {events : List Event} (h : AlongRun step Harmless (create passive (header++body)) events) :
    (events.foldl step (create passive (header++body))).reads ≤ 1 ∧
      DispatchedInOrder header body
        (events.foldl step (create passive (header++body))).dispatched := by
  have hin := invariant_of_run (InStep header body) (fun c e hc hs => hs.step hc) h
    (inStep_create haccepted)
  constructor
  · rw [hin.reads]
    split_ifs <;> omega
  · cases hin.place with
    | inHeader hh hp hd hu => exact .inl hd
    | inBody bufs hh hd hu => exact .inr ⟨bufs,hd,_,hu⟩

def request : List Byte := ascii "GET / H\r\n\r\n"

/-- The request comes in two parts, the second with some bytes of the body. The application blocks
the reception inside `dispatch_request` and resumes it later. -/
def pausedRun : List Event :=
  [.call .keepAsyncReceiving,.read 5 [] [],.read 6 [.blockAsyncReceiving] [],
    .call .keepAsyncReceiving,.runPosted [] [],.read 0 [] [.blockAsyncReceiving],.read 0 [] []]

theorem paused_run_dispatched_in_order :
    (pausedRun.foldl step (create true (request ++ [1,2,3,4]))).reads ≤ 1 ∧
      DispatchedInOrder request [1,2,3,4]
        (pausedRun.foldl step (create true (request ++ [1,2,3,4]))).dispatched :=
  dispatched_in_order (by decide +kernel) (by decide +kernel)

/-- The application blocks and resumes the reception inside `dispatch_request`. -/
def resumedInside : List Event :=
  [.call .keepAsyncReceiving,.read 99 [.blockAsyncReceiving,.keepAsyncReceiving] []]

/-- The application blocks the reception inside `dispatch_request` and, behind it, resumes it twice
before the posted handler runs. -/
def resumedTwice : List Event :=
  [.call .keepAsyncReceiving,.read 99 [.blockAsyncReceiving] [],.call .keepAsyncReceiving,
    .call .blockAsyncReceiving,.call .keepAsyncReceiving,.runPosted [] [],.runPosted [] []]

/-- Both leave two reads outstanding. -/
theorem resumed_reception_reads_twice : parse true (request ++ [1]) = some (.accepted request.length) ∧
      (resumedInside.foldl step (create true (request ++ [1]))).reads = 2 ∧
      (resumedTwice.foldl step (create true (request ++ [1]))).reads = 2 := by
  decide +kernel

end HttpConnection
end P2Streaming.Http
