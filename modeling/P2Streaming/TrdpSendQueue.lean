import P2Streaming.TrdpFlow

/-!
# What reaches the stream of a `trdp_flow`

A packet that waits in `send_bufs_` loses its type: a ping or a pong comes out of the queue as
`DATA_PKT`, and a message whose type is `INVALID_MSGTYPE` comes out without one. Packets that
are not affected by this are written as they were issued and in that order.
-/
namespace P2Streaming.Trdp
open BigEndianBytes PacketStreams TransitionRuns List

theorem Frame.length_body (frame : Frame) :
    frame.body.length = 1 + frame.buffer.length + if frame.msgType.isSome then 2 else 0 := by
  cases h : frame.msgType <;> simp [Frame.body,h] <;> omega

/-- A packet that was not reliable and has seen its 250 milliseconds pass. -/
def Late (clock : ℕ) (i : Issue) : Prop := i.frame.alertWritable = false ∧ i.time+250<clock

/-- The packet on the stream is the one that was issued, behind a running id. -/
def Carries (p : List Byte) (i : Issue) : Prop := ∃ id : Byte, p = id :: i.frame.body

/-- The element is given to `__send` as it was issued. -/
def Element.Intact (elm : Element) : Prop :=
  elm.issue.frame.type = .data ∧ elm.issue.frame.msgType ≠ some invalidMsgType

instance (elm : Element) : Decidable elm.Intact := inferInstanceAs (Decidable (_ ∧ _))

def Request.Fits (r : Request) : Prop := r.frame.buffer.length ≤ 65531

/-- What was issued, without what still waits, stands on the stream in packets. -/
def Account (stream : List Byte) (issued waiting : List Issue) (clock : ℕ) : Prop :=
  ∃ gone sent ps, issued = gone ++ waiting ∧ Omits (Late clock) gone sent ∧
    stream = (ps.map framed).flatten ∧ (∀ p∈ps, p≠[] ∧ p.length<2^16) ∧
    List.Forall₂ Carries ps sent

namespace Account
variable {stream : List Byte} {issued waiting : List Issue} {clock : ℕ} {i : Issue}

theorem later (h : Account stream issued waiting clock) {clock' : ℕ} (hc : clock ≤ clock') :
    Account stream issued waiting clock' := by
  obtain ⟨gone,sent,ps,hissued,homits,hstream,hps,hcarries⟩ := h
  exact ⟨gone,sent,ps,hissued,homits.mono fun a ha => ⟨ha.1,ha.2.trans_le hc⟩,hstream,hps,
    hcarries⟩

theorem issue (h : Account stream issued waiting clock) (i : Issue) :
    Account stream (issued ++ [i]) (waiting ++ [i]) clock := by
  obtain ⟨gone,sent,ps,rfl,hrest⟩ := h
  exact ⟨gone,sent,ps,append_assoc _ _ _,hrest⟩

theorem write (h : Account stream issued (i::waiting) clock) (id : Byte)
    (hfits : i.frame.buffer.length≤65531) :
    Account (stream ++ framed (id::i.frame.body)) issued waiting clock := by
  obtain ⟨gone,sent,ps,rfl,homits,rfl,hps,hcarries⟩ := h
  refine ⟨gone ++ [i],sent ++ [i],ps ++ [id::i.frame.body],by simp,homits.sent i,by simp,
    fun p hp => ?_,rel_append hcarries (.cons ⟨id,rfl⟩ .nil)⟩
  rcases mem_append.mp hp with hp | hp
  · exact hps p hp
  · rw [mem_singleton.mp hp]
    refine ⟨nofun,?_⟩
    rw [length_cons,i.frame.length_body]
    split <;> omega

theorem drop (h : Account stream issued (i::waiting) clock) (late : Late clock i) :
    Account stream issued waiting clock := by
  obtain ⟨gone,sent,ps,rfl,homits,hrest⟩ := h
  exact ⟨gone ++ [i],sent,ps,by simp,homits.left late,hrest⟩

end Account

theorem Element.frame_of_intact (elm : Element)
    (queued : elm = elementFor elm.issue.frame elm.issue.time) (h : elm.Intact) :
    elm.frame=elm.issue.frame := by
  obtain ⟨htype,hmsg⟩ := h
  rw [queued]
  generalize elm.issue = i at htype hmsg
  obtain ⟨⟨type,msgType,buffer,alertWritable⟩,time⟩ := i
  cases htype
  cases msgType with
  | none => rfl
  | some t =>
    have ht : t≠invalidMsgType := fun he => hmsg (congrArg some he)
    simp [Element.frame,elementFor,ht]

theorem Element.late_of_not_inTime (elm : Element) {now clock : ℕ}
    (queued : elm = elementFor elm.issue.frame elm.issue.time) (h : elm.inTime now = false)
    (hclock : now ≤ clock) : Late clock elm.issue := by
  rw [queued] at h
  simp only [Element.inTime,elementFor] at h
  split at h
  · simp at h
  · rename_i hreliable
    simp only [Option.all_some,decide_eq_false_iff_not,Nat.not_le] at h
    exact ⟨by simpa using hreliable,by omega⟩

namespace TrdpFlow

/-- No packet is issued while an unreliable one has waited for ten seconds longer than it may. -/
def Issuable (f : TrdpFlow) (s : ℕ × Request) : Prop := s.2.Fits ∧ f.overdue s.1 = false

/-- What holds between any two calls of `__send`. -/
structure Inv (f : TrdpFlow) : Prop where
  connected : f.connected=true
  staying : f.closePosted=false
  elements : ∀ elm∈f.sendBufs, elm = elementFor elm.issue.frame elm.issue.time
  fits : ∀ i∈f.issued, i.frame.buffer.length≤65531
  account : Account f.stream f.issued (f.sendBufs.map Element.issue) f.clock

def Busy (f : TrdpFlow) : Prop := f.sendBufs ≠ [] → f.sending.isSome=true

theorem stream_write (f : TrdpFlow) (frame : Frame) :
    (f.write frame).stream = f.stream ++ framed ((f.idForLostRate+1) :: frame.body) := by
  have hlen : 2 + frame.buffer.length + (if frame.msgType.isSome then 2 else 0) =
      1 + frame.buffer.length + (if frame.msgType.isSome then 2 else 0) + 1 := by omega
  rw [framed,length_cons,frame.length_body,← hlen]
  rfl

namespace Inv
variable {f : TrdpFlow}

theorem write (h : f.Inv) {elm : Element} {rest : List Element} (head : f.sendBufs = elm :: rest)
    {frame : Frame} (same : frame=elm.issue.frame) : ({ f with sendBufs := rest }.write frame).Inv := by
  subst same
  have haccount := h.account
  rw [head,map_cons] at haccount
  obtain ⟨gone,-,-,hissued,-⟩ := id haccount
  have hfits := h.fits elm.issue (by simp [hissued])
  refine ⟨h.connected,h.staying,fun e he => h.elements e (by simp [head,show e ∈ rest from he]),
    h.fits,?_⟩
  rw [stream_write]
  exact haccount.write _ hfits

theorem drop (h : f.Inv) {elm : Element} {rest : List Element} (head : f.sendBufs = elm :: rest)
    (late : Late f.clock elm.issue) (id : Byte) :
    ({ f with sendBufs := rest, idForLostRate := id } : TrdpFlow).Inv := by
  have haccount := h.account
  rw [head,map_cons] at haccount
  exact ⟨h.connected,h.staying,fun e he => h.elements e (by simp [head,show e ∈ rest from he]),
    h.fits,haccount.drop late⟩

theorem issue (h : f.Inv) {now : ℕ} {r : Request} (hi : f.Issuable (now, r)) : (f.issue now r).Inv := by
  obtain ⟨hfits,hdue⟩ := hi
  have hall : ∀ i ∈ f.issued ++ [⟨r.frame,now⟩], i.frame.buffer.length≤65531 := by
    intro i hi
    rcases mem_append.mp hi with hi | hi
    · exact h.fits i hi
    · rw [mem_singleton.mp hi]
      exact hfits
  have haccount := (h.account.later (Nat.le_max_left f.clock now)).issue ⟨r.frame,now⟩
  have hconnected : ¬(!f.connected) = true := by simp [h.connected]
  rw [TrdpFlow.issue,send,if_neg (by exact hconnected)]
  split
  · rw [if_neg (by exact ne_true_of_eq_false hdue)]
    refine ⟨h.connected,h.staying,fun e he => ?_,hall,?_⟩
    · rcases mem_append.mp he with he | he
      · exact h.elements e he
      · rw [mem_singleton.mp he]
        rfl
    · rw [map_append]
      exact haccount
  · rename_i hfree
    have hempty : f.sendBufs=[] := by
      by_contra hne
      exact hfree (Or.inl ⟨hne,rfl⟩)
    rw [hempty] at haccount
    refine ⟨h.connected,h.staying,h.elements,hall,?_⟩
    rw [stream_write]
    simp only [TrdpFlow.write,hempty]
    exact haccount.write _ hfits

end Inv

variable {f : TrdpFlow}

theorem Busy.issue (hb : f.Busy) (h : f.Inv) {now : ℕ} {r : Request}
    (hi : f.Issuable (now, r)) : (f.issue now r).Busy := by
  have hconnected : ¬(!f.connected) = true := by simp [h.connected]
  rw [TrdpFlow.issue,send,if_neg (by exact hconnected)]
  split
  · rename_i hbusy
    rw [if_neg (by exact ne_true_of_eq_false hi.2)]
    rcases hbusy with ⟨hne,-⟩ | hs
    · exact fun _ => hb hne
    · exact fun _ => hs
  · exact fun _ => rfl

theorem Inv.onWritable (h : f.Inv) {sends : List (ℕ × Request)}
    (hi : AlongRun (fun f s => f.issue s.1 s.2) Issuable f sends) : (f.onWritable sends).Inv :=
  invariant_of_run Inv (fun _ _ hi h => h.issue hi) hi h

def next (f : TrdpFlow) (now : ℕ) : Option Element :=
  if f.sending.isSome then none else f.sendBufs.find? fun elm => elm.inTime now

theorem Inv.sendQueued {now : ℕ} (l : List Element) (h : f.Inv)
    (hl : f.sendBufs=l) (hclock : now≤f.clock) (intact : ∀ elm ∈ f.next now, elm.Intact) :
    (TrdpFlow.sendQueued now l f).Inv ∧ (TrdpFlow.sendQueued now l f).Busy := by
  induction l generalizing f with
  | nil => exact ⟨h,fun hne => absurd hl hne⟩
  | cons elm rest ih =>
    rw [TrdpFlow.sendQueued]
    split
    · rename_i hs
      exact ⟨h,fun _ => hs⟩
    rename_i hs
    have hqueued := h.elements elm (by simp [hl])
    dsimp only
    split
    · rename_i hin
      -- the packet is written, and the next round ends the loop
      have hintact : elm.Intact := intact elm (by simp [next,hs,hl,hin])
      have hsend : { f with sendBufs := rest }.send now elm.frame true =
          { f with sendBufs := rest }.write elm.frame := by
        simp [send,h.connected,hs]
      rw [hsend]
      have hw := h.write hl (elm.frame_of_intact hqueued hintact)
      have hend : TrdpFlow.sendQueued now rest ({ f with sendBufs := rest }.write elm.frame) =
          { f with sendBufs := rest }.write elm.frame := by
        cases rest <;> rfl
      rw [hend]
      exact ⟨hw,fun _ => rfl⟩
    · rename_i hin
      have hin : elm.inTime now = false := by simpa using hin
      refine ih (h.drop hl (elm.late_of_not_inTime hqueued hin hclock) _) rfl hclock fun e he => ?_
      refine intact e ?_
      simpa [next,hs,hl,hin] using he

/-- The events that do not run into what the queue forgets: nothing is issued while the queue is
stuck, and the packet that a completed write takes from the queue is one the queue keeps. -/
def Keeping (f : TrdpFlow) : Event → Prop
  | .issue now r => f.Issuable (now, r)
  | .sentPacket now sends => ∀ alertWritable∈f.sending,
      (alertWritable=true → AlongRun (fun f s => f.issue s.1 s.2) Issuable
        { f with sending := none, clock := max f.clock now } sends) ∧
      ∀ elm ∈ (f.completed now alertWritable sends).next now, elm.Intact
  | .closeHandler => True

theorem clock_le_issue (f : TrdpFlow) (now : ℕ) (r : Request) : f.clock ≤ (f.issue now r).clock := by
  have hmax := Nat.le_max_left f.clock now
  rw [issue,send]
  split
  · exact hmax
  split
  · split <;> exact hmax
  · exact hmax

theorem clock_le_onWritable (f : TrdpFlow) (sends : List (ℕ × Request)) :
    f.clock ≤ (f.onWritable sends).clock :=
  invariant_of_run (P := fun _ _ => True) (fun g : TrdpFlow => f.clock ≤ g.clock)
    (fun g s _ hg => hg.trans (g.clock_le_issue s.1 s.2))
      (alongRun_of_forall (fun _ _ => trivial) f sends)
    (Nat.le_refl _)

theorem le_clock_completed (f : TrdpFlow) (now : ℕ) (alertWritable : Bool)
    (sends : List (ℕ × Request)) : now ≤ (f.completed now alertWritable sends).clock := by
  have hmax := Nat.le_max_right f.clock now
  rw [completed]
  split
  · exact hmax.trans (clock_le_onWritable { f with sending := none, clock := max f.clock now } sends)
  · exact hmax

theorem Inv.completed (h : f.Inv) {now : ℕ} {alertWritable : Bool}
    {sends : List (ℕ × Request)} (hi : alertWritable=true →
      AlongRun (fun f s => f.issue s.1 s.2) Issuable
        { f with sending := none, clock := max f.clock now } sends) :
    (f.completed now alertWritable sends).Inv := by
  have hready : ({ f with sending := none, clock := max f.clock now } : TrdpFlow).Inv :=
    ⟨h.connected,h.staying,h.elements,h.fits,h.account.later (Nat.le_max_left _ _)⟩
  rw [TrdpFlow.completed]
  split
  · rename_i hw
    exact hready.onWritable (hi hw.2)
  · exact hready

theorem Inv.step {e : Event} (keeping : f.Keeping e) (h : f.Inv ∧ f.Busy) :
    (f.step e).Inv ∧ (f.step e).Busy := by
  obtain ⟨h,hb⟩ := h
  cases e with
  | issue now r => exact ⟨h.issue keeping,hb.issue h keeping⟩
  | sentPacket now sends =>
    rw [TrdpFlow.step,handleSentPacket]
    cases hs : f.sending with
    | none => exact ⟨h,hb⟩
    | some alertWritable =>
      obtain ⟨hi,hintact⟩ := keeping alertWritable hs
      have hc := h.completed hi
      dsimp only
      rw [if_neg (by simp [hc.connected])]
      exact hc.sendQueued _ rfl (f.le_clock_completed now alertWritable sends) hintact
  | closeHandler =>
    rw [TrdpFlow.step,if_neg (by simp [h.staying])]
    exact ⟨h,hb⟩

theorem inv_create (id : Byte) : (create id).Inv ∧ (create id).Busy :=
  ⟨⟨rfl,rfl,nofun,nofun,[],[],[],rfl,.nil,rfl,nofun,.nil⟩,fun hne => absurd rfl hne⟩

/-- In every state that such events lead to, the packets on the stream are those issued, in
order and as they were issued, without those that were late; the rest waits for a write that is
under way. -/
theorem frames_written_as_issued (id : Byte) (es : List Event)
    (keeping : AlongRun step Keeping (create id) es) :
    let f := (create id).run es
    ∃ gone sent, f.issued = gone ++ f.sendBufs.map Element.issue ∧
      (f.sendBufs≠[] → f.sending.isSome=true) ∧
      List.Forall₂ Carries (readPackets f.stream) sent ∧ Omits (Late f.clock) gone sent ∧
      sent.filter (fun i => i.frame.alertWritable) = gone.filter fun i => i.frame.alertWritable := by
  intro f
  obtain ⟨h,hb⟩ := invariant_of_run (fun f : TrdpFlow => f.Inv ∧ f.Busy)
    (fun _ _ hk h => Inv.step hk h) keeping (inv_create id)
  obtain ⟨gone,sent,ps,hissued,homits,hstream,hps,hcarries⟩ := h.account
  refine ⟨gone,sent,hissued,hb,?_,homits,homits.filter_eq fun i hi => hi.1⟩
  rw [show f.stream = (ps.map framed).flatten from hstream,readPackets_framed hps]
  exact hcarries

def pingDuringWrite : List Event :=
  [.issue 0 (.asyncSendReliable [7] 3),.issue 1 (.ping 1),.sentPacket 2 []]

/-- The ping reaches the peer as a data packet. -/
theorem queued_ping_written_as_data :
    let f := (create 0).run pingDuringWrite
    f.issued = [⟨⟨.data,some 3,[7],true⟩,0⟩,⟨⟨.ping,none,beBytes 8 1,false⟩,1⟩] ∧
      f.sendBufs = [] ∧
      readPackets f.stream = [1 :: PktType.data.code :: [0,3,7],
        2 :: PktType.data.code :: beBytes 8 1] ∧
      ¬∃ sent, List.Forall₂ Carries (readPackets f.stream) sent ∧
        Omits (Late f.clock) f.issued sent := by
  intro f
  have hissued : f.issued = [⟨⟨.data,some 3,[7],true⟩,0⟩,
    ⟨⟨.ping,none,beBytes 8 1,false⟩,1⟩] := by decide +kernel
  have hpackets : readPackets f.stream = [1 :: PktType.data.code :: [0,3,7],
    2 :: PktType.data.code :: beBytes 8 1] := by decide +kernel
  have hclock : f.clock=2 := by decide +kernel
  refine ⟨hissued,by decide +kernel,hpackets,?_⟩
  rintro ⟨sent,hcarries,homits⟩
  rw [hissued,hclock] at homits
  rw [hpackets] at hcarries
  -- two packets are on the stream, so the second one stands for the ping
  obtain _ | ⟨-,_ | ⟨⟨id,hid⟩,_ | _⟩⟩ := hcarries
  cases homits with
  | keep _ homits =>
    cases homits with
    | keep _ _ => simp [Frame.body,PktType.code] at hid
    | leave late _ => exact absurd late.2 (by decide)
  | leave late _ => exact absurd late.1 (by decide)

/-- A message that waits, one that waits too long, and a ping while nothing waits. -/
def quietPing : List Event :=
  [.issue 0 (.asyncSendReliable [7] 3),.issue 1 (.asyncSendUnreliable [8] 4),
    .issue 2 (.asyncSendReliable [9] 5),.sentPacket 300 [],.sentPacket 301 [],
    .issue 302 (.ping 302)]

theorem quiet_ping_written_as_ping :
    let f := (create 0).run quietPing
    readPackets f.stream = [[1,101,0,3,7],[3,101,0,5,9],4 :: 99 :: beBytes 8 302] ∧
      ∃ gone sent, f.issued = gone ++ f.sendBufs.map Element.issue ∧
        (f.sendBufs≠[] → f.sending.isSome=true) ∧
        List.Forall₂ Carries (readPackets f.stream) sent ∧ Omits (Late f.clock) gone sent ∧
        sent.filter (fun i => i.frame.alertWritable) =
          gone.filter fun i => i.frame.alertWritable := by
  refine ⟨by decide +kernel,frames_written_as_issued 0 quietPing ?_⟩
  have hfit {f : TrdpFlow} {now : ℕ} {r : Request} (hr : r.frame.buffer.length≤65531)
      (hf : f.overdue now = false) : f.Issuable (now, r) := ⟨hr,hf⟩
  refine ⟨hfit (by decide) (by decide),hfit (by decide) (by decide),hfit (by decide) (by decide),
    fun a ha => ⟨fun _ => trivial,?_⟩,fun a ha => ⟨fun _ => trivial,?_⟩,
    hfit (by decide) (by decide),trivial⟩
  · cases ha
    decide +kernel
  · cases ha
    decide +kernel

end TrdpFlow
end P2Streaming.Trdp
