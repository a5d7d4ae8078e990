import P2Streaming.TrdpFlow

/-!
# `trdp_flow`: receiving over one TCP connection

`do_keep_receiving` is a coroutine that reads a length and a body in turns. Blocking only sets a
flag, which the coroutine looks at when a packet has been read, before and after it is processed;
`keep_async_receiving` clears the flag and starts a new coroutine. Every outstanding read of the
socket belongs to one coroutine.
-/
namespace P2Streaming.Trdp
open BigEndianBytes PacketStreams TransitionRuns List

inductive RecvState where
  | recving | recved
  deriving DecidableEq, Repr

/-- An outstanding `async_read` with the bytes it has got so far: of a length, or of a body. -/
inductive PendingRead where
  | length (got : List Byte)
  | body (packetLen : ℕ) (got : List Byte)
  deriving DecidableEq, Repr

def PendingRead.got : PendingRead → List Byte
  | .length got => got
  | .body _ got => got

def PendingRead.size : PendingRead → ℕ
  | .length _ => 2
  | .body packetLen _ => packetLen

def PendingRead.fill (bytes : List Byte) : PendingRead → PendingRead
  | .length got => .length (got++bytes)
  | .body packetLen got => .body packetLen (got++bytes)

/-- What the application may call at any time, also inside `on_received`. -/
inductive Call where
  | blockReceiving | keepAsyncReceiving
  deriving DecidableEq, Repr

/-- The receiving side of a connected `trdp_flow`: `unread` is what the peer has sent or will
send and no read has got yet, `received` lists the buffers given to `on_received`. -/
structure Reception where
  isRecvBlocked : Bool
  recvState : RecvState
  closed : Bool
  reads : List PendingRead
  unread : List Byte
  received : List (List Byte)
  deriving DecidableEq, Repr

namespace Reception

def create (stream : List Byte) : Reception where
  isRecvBlocked := true
  recvState := .recved
  closed := false
  reads := []
  unread := stream
  received := []

variable (r : Reception)

/-- The head of the loop of `do_keep_receiving`. -/
def readLength : Reception :=
  { r with recvState := .recving, reads := r.reads ++ [.length []] }

/-- A fresh call of `do_keep_receiving`. -/
def doKeepReceiving : Reception := if r.closed then r else r.readLength

def keepAsyncReceiving : Reception :=
  if r.isRecvBlocked ∧ r.recvState ≠ .recving then
    { r with isRecvBlocked := false }.doKeepReceiving
  else r

def call : Call → Reception
  | .blockReceiving => { r with isRecvBlocked := true }
  | .keepAsyncReceiving => r.keepAsyncReceiving

/-- `__process_data` on a body; `calls` is what the application does inside `on_received`. The
answer to a ping and the statistics are left out. -/
def processData (recvBuf : List Byte) (calls : List Call) : Reception × Bool :=
  match recvBuf with
  | _ :: pktType :: content =>
      if pktType=PktType.ping.code ∨ pktType=PktType.pong.code then
        if content.length≠8 then ({ r with closed := true }, false) else (r, true)
      else if pktType=PktType.data.code then
        if content.isEmpty then (r, true)
        else (calls.foldl call { r with received := r.received ++ [content] }, true)
      else (r, false)
  | _ => ({ r with closed := true }, false)

def lengthRead (header : List Byte) : Reception :=
  if r.closed then r
  else if beValue header = 0 then
    let r := { r with recvState := .recved }
    if r.isRecvBlocked then r else r.readLength
  else { r with reads := r.reads ++ [.body (beValue header) []] }

def bodyRead (recvBuf : List Byte) (calls : List Call) : Reception :=
  if r.closed then r
  else
    let r := { r with recvState := .recved }
    if r.isRecvBlocked then r
    else
      let (r, goesOn) := r.processData recvBuf calls
      if !goesOn then r
      else if r.isRecvBlocked then r
      else r.readLength

def completed (read : PendingRead) (calls : List Call) : Reception :=
  match read with
  | .length got => r.lengthRead got
  | .body _ got => r.bodyRead got calls

/-- One of the outstanding reads gets the next bytes of the stream, at least one and at most
`k + 1`. -/
def readSome (i k : ℕ) (calls : List Call) : Reception :=
  match r.reads[i]? with
  | none => r
  | some read =>
      let cnt := min (k+1) (read.size - read.got.length)
      let read := read.fill (r.unread.take cnt)
      let r := { r with unread := r.unread.drop cnt }
      if read.got.length < read.size then { r with reads := r.reads.set i read }
      else { r with reads := r.reads.eraseIdx i }.completed read calls

inductive Event where
  | readSome (i k : ℕ) (calls : List Call)
  | call (c : Call)
  deriving DecidableEq, Repr

def step : Event → Reception
  | .readSome i k calls => r.readSome i k calls
  | .call c => r.call c

end Reception

/-- A well-formed packet behind its length: a ping or a pong has eight bytes of time, and a data
packet is not empty. -/
structure WireFrame where
  id : Byte
  type : PktType
  content : List Byte
  fits : content.length+2<2^16
  wellFormed : if type = .data then content ≠ [] else content.length = 8

namespace WireFrame

def body (f : WireFrame) : List Byte := f.id :: f.type.code :: f.content

theorem length_body (f : WireFrame) : f.body.length=f.content.length+2 := rfl

end WireFrame

def streamOf (frames : List WireFrame) : List Byte :=
  (frames.map fun f => framed f.body).flatten

def payloads (frames : List WireFrame) : List (List Byte) :=
  (frames.filter fun f => f.type = .data).map WireFrame.content

@[simp] theorem streamOf_nil : streamOf [] = [] := rfl

@[simp] theorem streamOf_cons (f : WireFrame) (frames : List WireFrame) :
    streamOf (f::frames) = framed f.body ++ streamOf frames := rfl

theorem payloads_append_data (done : List WireFrame) {f : WireFrame} (h : f.type = .data) :
    payloads (done ++ [f]) = payloads done ++ [f.content] := by
  simp [payloads,h]

theorem payloads_append_other (done : List WireFrame) {f : WireFrame} (h : f.type ≠ .data) :
    payloads (done ++ [f]) = payloads done := by
  simp [payloads,h]

theorem payloads_isPrefix (done rest : List WireFrame) : payloads done <+: payloads (done++rest) := by
  simp [payloads]

namespace Reception

theorem length_of_streamOf {got unread : List Byte} {rest : List WireFrame} (hgot : got.length=2)
    (h : got ++ unread = streamOf rest) : ∃ f rest', rest = f :: rest' ∧ beValue got = f.body.length ∧
      unread = f.body ++ streamOf rest' := by
  cases rest with
  | nil =>
    have := congrArg List.length h
    simp [hgot] at this
  | cons f rest' =>
    rw [streamOf_cons,framed,append_assoc] at h
    obtain ⟨hg,hu⟩ := append_inj h (by rw [hgot,length_beBytes])
    have hfits : f.body.length<256^2 := by
      have := f.fits
      rw [f.length_body]
      omega
    exact ⟨f,rest',rfl,by rw [hg,beValue_beBytes hfits],hu⟩

/-- Where the reception stands in front of the frames that are still to be read. -/
inductive Place (r : Reception) : List WireFrame → Prop
  | paused {rest : List WireFrame} (hreads : r.reads=[]) (hstate : r.recvState = .recved)
      (hblocked : r.isRecvBlocked=true) (hunread : r.unread = streamOf rest) : Place r rest
  | length {rest : List WireFrame} (got : List Byte) (hreads : r.reads = [.length got])
      (hstate : r.recvState = .recving) (hgot : got.length<2)
      (hunread : got ++ r.unread = streamOf rest) : Place r rest
  | body (f : WireFrame) {rest : List WireFrame} (got : List Byte)
      (hreads : r.reads = [.body f.body.length got]) (hstate : r.recvState = .recving)
      (hgot : got.length<f.body.length) (hunread : got ++ r.unread = f.body ++ streamOf rest) :
      Place r (f::rest)

/-- The payloads of the frames read so far have been received, and no others. -/
structure InStep (r : Reception) (done rest : List WireFrame) : Prop where
  isOpen : r.closed=false
  received : r.received = payloads done
  place : r.Place rest

theorem inStep_create (frames : List WireFrame) : (create (streamOf frames)).InStep [] frames :=
  ⟨rfl,rfl,.paused rfl rfl rfl rfl⟩

variable {r : Reception}

theorem Place.atMostOne {rest : List WireFrame} (h : r.Place rest) : r.reads.length≤1 := by
  cases h with
  | paused hreads => simp [hreads]
  | length got hreads => simp [hreads]
  | body f got hreads => simp [hreads]

variable {done rest : List WireFrame}

theorem InStep.readLength (ho : r.closed=false)
    (hrecv : r.received = payloads done) (hreads : r.reads=[]) (hu : r.unread = streamOf rest) :
    r.readLength.InStep done rest := by
  refine ⟨ho,hrecv,.length [] ?_ rfl (by decide) hu⟩
  simp [Reception.readLength,hreads]

theorem InStep.call (h : r.InStep done rest) (c : Call) : (r.call c).InStep done rest := by
  obtain ⟨ho,hrecv,hp⟩ := h
  cases c with
  | blockReceiving =>
    refine ⟨ho,hrecv,?_⟩
    cases hp with
    | paused hreads hstate _ hu => exact .paused hreads hstate rfl hu
    | length got hreads hstate hg hu => exact .length got hreads hstate hg hu
    | body f got hreads hstate hg hu => exact .body f got hreads hstate hg hu
  | keepAsyncReceiving =>
    simp only [Reception.call,keepAsyncReceiving]
    cases hp with
    | paused hreads hstate hb hu =>
      rw [if_pos ⟨hb,by simp [hstate]⟩,doKeepReceiving,if_neg (by simp [ho])]
      exact .readLength ho hrecv hreads hu
    | length got hreads hstate hg hu =>
      rw [if_neg (by simp [hstate])]
      exact ⟨ho,hrecv,.length got hreads hstate hg hu⟩
    | body f got hreads hstate hg hu =>
      rw [if_neg (by simp [hstate])]
      exact ⟨ho,hrecv,.body f got hreads hstate hg hu⟩

/-- Whether calls inside `on_received` end with the reception going on although they have started
a new coroutine; the arguments tell whether it is blocked and whether one has been started. -/
def restarts : Bool → Bool → List Call → Bool
  | blocked, started, [] => started && !blocked
  | _, started, .blockReceiving :: calls => restarts true started calls
  | blocked, started, .keepAsyncReceiving :: calls =>
      if blocked && !started then restarts false true calls else restarts blocked started calls

/-- The flow inside `on_received`, where a read is outstanding only if a new coroutine has been
started. -/
structure Inside (r : Reception) (started : Bool) : Prop where
  isOpen : r.closed=false
  reads : r.reads = if started then [.length []] else []
  state : r.recvState = if started then .recving else .recved

theorem Inside.calls {started : Bool} (h : r.Inside started) (calls : List Call) :
    ∃ started', (calls.foldl call r).Inside started' ∧
      restarts r.isRecvBlocked started calls =
        (started' && !(calls.foldl call r).isRecvBlocked) ∧
      (calls.foldl call r).unread = r.unread ∧ (calls.foldl call r).received = r.received := by
  induction calls generalizing r started with
  | nil => exact ⟨started,h,rfl,rfl,rfl⟩
  | cons c calls ih =>
    rw [foldl_cons]
    obtain ⟨ho,hreads,hstate⟩ := h
    cases c with
    | blockReceiving => exact ih (r := r.call .blockReceiving) ⟨ho,hreads,hstate⟩
    | keepAsyncReceiving =>
      simp only [call,keepAsyncReceiving,restarts]
      cases started with
      | true =>
        rw [if_neg (by simp [hstate]),if_neg (by simp)]
        exact ih ⟨ho,hreads,hstate⟩
      | false =>
        cases hb : r.isRecvBlocked with
        | false =>
          have hinside : r.Inside false := ⟨ho,hreads,hstate⟩
          have hrest := ih hinside
          rwa [hb] at hrest
        | true =>
          rw [if_pos (by simp [hstate]),if_pos (by simp),doKeepReceiving,if_neg (by simp [ho])]
          have hinside : ({ r with isRecvBlocked := false }.readLength).Inside true :=
            ⟨ho,by simpa [readLength] using hreads,rfl⟩
          exact ih hinside

def completesData (r : Reception) (i k : ℕ) : Bool :=
  match r.reads[i]? with
  | some (.body packetLen got) =>
      decide (packetLen ≤ got.length + min (k+1) r.unread.length) &&
        decide ((got++r.unread)[1]? = some PktType.data.code)
  | _ => false

/-- A data packet comes in while the reception is not blocked, and inside `on_received` it is not
blocked and resumed for good. -/
def Harmless (r : Reception) : Event → Prop
  | .readSome i k calls =>
      r.completesData i k = true → r.isRecvBlocked=false ∧ restarts false false calls = false
  | .call _ => True

instance (r : Reception) : (e : Event) → Decidable (r.Harmless e)
  | .readSome _ _ _ => inferInstanceAs (Decidable (_ → _))
  | .call _ => inferInstanceAs (Decidable True)

variable {f : WireFrame}

theorem processData_data (r : Reception) (h : f.type = .data) (calls : List Call) :
    r.processData f.body calls =
      (calls.foldl call { r with received := r.received ++ [f.content] }, true) := by
  have hwell := f.wellFormed
  rw [if_pos h] at hwell
  simp [processData,WireFrame.body,h,PktType.code,hwell]

theorem processData_other (r : Reception) (h : f.type ≠ .data) (calls : List Call) :
    r.processData f.body calls = (r, true) := by
  have hwell := f.wellFormed
  rw [if_neg h] at hwell
  cases ht : f.type with
  | data => exact absurd ht h
  | ping => simp [processData,WireFrame.body,ht,PktType.code,hwell]
  | pong => simp [processData,WireFrame.body,ht,PktType.code,hwell]

theorem bodyRead_other (ho : r.closed=false)
    (hrecv : r.received = payloads done) (hreads : r.reads=[]) (hu : r.unread = streamOf rest)
    (hf : f.type ≠ .data) (calls : List Call) :
    (r.bodyRead f.body calls).InStep (done ++ [f]) rest := by
  have hpay : r.received = payloads (done ++ [f]) := by rw [payloads_append_other done hf,hrecv]
  rw [bodyRead,if_neg (by simp [ho])]
  dsimp only
  rw [processData_other _ hf]
  split_ifs with hb hgo
  · exact ⟨ho,hpay,.paused hreads rfl hb hu⟩
  · cases hgo
  · exact .readLength ho hpay hreads hu

theorem bodyRead_data (ho : r.closed=false)
    (hrecv : r.received = payloads done) (hreads : r.reads=[]) (hu : r.unread = streamOf rest)
    (hf : f.type = .data) {calls : List Call} (hb : r.isRecvBlocked=false)
    (hcalls : restarts false false calls = false) :
    (r.bodyRead f.body calls).InStep (done ++ [f]) rest := by
  rw [bodyRead,if_neg (by simp [ho])]
  rw [if_neg (by simp [hb]),processData_data _ hf]
  have hinside : Inside { r with recvState := .recved, received := r.received ++ [f.content] } false :=
    ⟨ho,hreads,rfl⟩
  obtain ⟨started,⟨ho',hreads',hstate'⟩,hrestarts,hu',hrecv'⟩ := hinside.calls calls
  simp only [hb,hcalls] at hrestarts hu' hrecv' hreads' hstate' ho' ⊢
  have hpay := hrecv'.trans (by rw [payloads_append_data done hf,← hrecv] :
    r.received ++ [f.content] = payloads (done ++ [f]))
  rw [if_neg (by simp)]
  split_ifs with hblocked
  · refine ⟨ho',hpay,?_⟩
    cases started with
    | false => exact .paused hreads' hstate' hblocked (hu'.trans hu)
    | true => exact .length [] hreads' hstate' (by decide) (hu'.trans hu)
  · have hstarted : started=false := by simpa [hblocked] using hrestarts.symm
    subst hstarted
    exact .readLength ho' hpay hreads' (hu'.trans hu)

/-- The reads get what they are for, and nothing of the stream is lost on the way. -/
theorem InStep.readSome (h : r.InStep done rest)
    {i k : ℕ} {calls : List Call} (hc : r.Harmless (.readSome i k calls)) :
    ∃ done' rest', done ++ rest = done' ++ rest' ∧ (r.readSome i k calls).InStep done' rest' := by
  obtain ⟨ho,hrecv,hp⟩ := h
  have hsame : r.InStep done rest := ⟨ho,hrecv,hp⟩
  cases hp with
  | paused hreads hstate hb hu =>
    refine ⟨done,rest,rfl,?_⟩
    simpa [Reception.readSome,hreads] using hsame
  | length got hreads hstate hgot hu =>
    cases i with
    | succ i =>
      refine ⟨done,rest,rfl,?_⟩
      simpa [Reception.readSome,hreads] using hsame
    | zero =>
      simp only [Reception.readSome,hreads,List.getElem?_cons_zero,PendingRead.size,
        PendingRead.got,PendingRead.fill]
      generalize hcnt : min (k+1) (2 - got.length) = cnt
      have hsplit : (got ++ r.unread.take cnt) ++ r.unread.drop cnt = streamOf rest := by
        rw [append_assoc,take_append_drop,hu]
      split_ifs with hmore
      · exact ⟨done,rest,rfl,ho,hrecv,.length _ rfl hstate hmore hsplit⟩
      · have hlen : (got ++ r.unread.take cnt).length = 2 := by
          simp only [length_append,length_take] at hmore ⊢
          omega
        obtain ⟨f,rest',rfl,hval,hu'⟩ := length_of_streamOf hlen hsplit
        have hpos : ¬ beValue (got ++ r.unread.take cnt) = 0 := by
          rw [hval,f.length_body]
          omega
        refine ⟨done,f::rest',rfl,?_⟩
        rw [completed,lengthRead,if_neg (by simp [ho]),if_neg hpos]
        refine ⟨ho,hrecv,.body f [] ?_ hstate ?_ hu'⟩
        · simp [hval]
        · simp [f.length_body]
  | body f got hreads hstate hgot hu =>
    rename_i rest'
    cases i with
    | succ i =>
      refine ⟨done,f::rest',rfl,?_⟩
      simpa [Reception.readSome,hreads] using hsame
    | zero =>
      simp only [Reception.readSome,hreads,List.getElem?_cons_zero,PendingRead.size,
        PendingRead.got,PendingRead.fill]
      generalize hcnt : min (k+1) (f.body.length - got.length) = cnt
      have hsplit : (got ++ r.unread.take cnt) ++ r.unread.drop cnt = f.body ++ streamOf rest' := by
        rw [append_assoc,take_append_drop,hu]
      split_ifs with hmore
      · exact ⟨done,f::rest',rfl,ho,hrecv,.body f _ rfl hstate hmore hsplit⟩
      · have hlen : (got ++ r.unread.take cnt).length = f.body.length := by
          simp only [length_append,length_take] at hmore ⊢
          omega
        obtain ⟨hbody,hu'⟩ := append_inj hsplit hlen
        refine ⟨done ++ [f],rest',by simp,?_⟩
        simp only [completed,hbody]
        by_cases hf : f.type = .data
        · have hdata : r.completesData 0 k = true := by
            have hle : f.body.length ≤ got.length + min (k+1) r.unread.length := by
              simp only [length_append,length_take] at hmore
              omega
            simp only [completesData,hreads,List.getElem?_cons_zero,Bool.and_eq_true,
              decide_eq_true_eq]
            exact ⟨hle,by simp [hu,WireFrame.body,hf]⟩
          obtain ⟨hb,hcalls⟩ := hc hdata
          exact bodyRead_data (r := { r with unread := r.unread.drop cnt, reads := [] })
            ho hrecv rfl hu' hf hb hcalls
        · exact bodyRead_other (r := { r with unread := r.unread.drop cnt, reads := [] })
            ho hrecv rfl hu' hf calls

theorem InStep.step (h : r.InStep done rest) {e : Event} (hc : r.Harmless e) :
    ∃ done' rest', done ++ rest = done' ++ rest' ∧ (r.step e).InStep done' rest' := by
  cases e with
  | readSome i k calls => exact h.readSome hc
  | call c => exact ⟨done,rest,rfl,h.call c⟩

/-- In every run of harmless events at most one read is outstanding, and what has been received
is the payloads of the data packets read so far, a prefix of those in the stream. -/
theorem received_in_order (frames : List WireFrame) {events : List Event}
    (h : AlongRun step Harmless (create (streamOf frames)) events) :
    (events.foldl step (create (streamOf frames))).reads.length ≤ 1 ∧
      (events.foldl step (create (streamOf frames))).received <+: payloads frames := by
  have hrun := invariant_of_run
    (fun r => ∃ done rest, frames = done ++ rest ∧ InStep r done rest)
    (fun r e hc ⟨done,rest,hall,hin⟩ => by
      obtain ⟨done',rest',hall',hin'⟩ := hin.step hc
      exact ⟨done',rest',hall.trans hall',hin'⟩)
    h ⟨[],frames,rfl,inStep_create frames⟩
  obtain ⟨done,rest,hall,hin⟩ := hrun
  refine ⟨hin.place.atMostOne,?_⟩
  rw [hin.received,hall]
  exact payloads_isPrefix done rest

def twoPackets : List WireFrame :=
  [⟨0,.data,[7],by decide,by decide⟩,⟨1,.data,[8],by decide,by decide⟩]

/-- The application blocks the reception inside `on_received` and resumes it later; the bytes come
in one or a few at a time. -/
def pausedRun : List Event :=
  [.call .keepAsyncReceiving,.readSome 0 1 [],.readSome 0 0 [],.readSome 0 9 [.blockReceiving],
    .call .keepAsyncReceiving,.readSome 0 0 [],.readSome 0 0 [],.readSome 0 9 []]

theorem paused_run_in_order : (pausedRun.foldl step (create (streamOf twoPackets))).reads.length ≤ 1 ∧
      (pausedRun.foldl step (create (streamOf twoPackets))).received <+: payloads twoPackets :=
  received_in_order twoPackets (by decide)

/-- The application blocks the reception while the body of the first packet is read, and resumes
it afterwards. -/
def blockedRun : List Event :=
  [.call .keepAsyncReceiving,.readSome 0 1 [],.call .blockReceiving,.readSome 0 9 [],
    .call .keepAsyncReceiving,.readSome 0 1 [],.readSome 0 9 []]

/-- The first packet is lost. And if the application blocks and resumes the reception inside
`on_received`, two reads are outstanding. -/
theorem blocked_packet_lost : (blockedRun.foldl step (create (streamOf twoPackets))).received = [[8]] ∧
      ¬ (blockedRun.foldl step (create (streamOf twoPackets))).received <+: payloads twoPackets ∧
      ([.call .keepAsyncReceiving,.readSome 0 1 [],
        .readSome 0 9 [.blockReceiving,.keepAsyncReceiving]].foldl step
          (create (streamOf twoPackets))).reads = [.length [],.length []] := by
  decide

end Reception
end P2Streaming.Trdp
