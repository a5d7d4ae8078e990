import P2Streaming.TrdpSendQueue
import P2Streaming.TrdpReception

/-!
# From `__send` of one `trdp_flow` to `on_received` of the other

What one side asks for comes to the wire in well-formed frames, and those are what the other side reads.
-/
namespace P2Streaming.Trdp
open BigEndianBytes PacketStreams TransitionRuns List

/-- What stands behind the type of a packet. -/
def Frame.content (frame : Frame) : List Byte :=
  (frame.msgType.elim [] fun t => beBytes 2 t.toNat) ++ frame.buffer

/-- What `on_received` is to get of some packets. -/
def messages (l : List Issue) : List (List Byte) :=
  (l.filter fun i => i.frame.type = .data).map fun i => i.frame.content

/-- The packet is that of a call, and its length can be written in front of it. -/
def Issue.Proper (i : Issue) : Prop := (∃ r : Request, i.frame=r.frame) ∧ i.frame.buffer.length≤65531

theorem Issue.Proper.wellFormed {i : Issue} (h : i.Proper) : i.frame.content.length+2<2^16 ∧
    if i.frame.type = .data then i.frame.content ≠ [] else i.frame.content.length = 8 := by
  obtain ⟨⟨r,hr⟩,hfits⟩ := h
  rw [hr] at hfits ⊢
  cases r <;> simp [Request.frame,Frame.content,beBytes] at hfits ⊢ <;> omega

theorem exists_wireFrames {ps : List (List Byte)} {sent : List Issue}
    (hcarries : List.Forall₂ Carries ps sent) (proper : ∀ i∈sent, i.Proper) :
    ∃ frames : List WireFrame, (ps.map framed).flatten = streamOf frames ∧
      frames.map (fun w => (w.type, w.content)) = sent.map fun i => (i.frame.type, i.frame.content) := by
  induction hcarries with
  | nil => exact ⟨[],rfl,rfl⟩
  | @cons p i ps sent hp _ ih =>
    obtain ⟨id,rfl⟩ := hp
    obtain ⟨frames,hstream,hsent⟩ := ih fun j hj => proper j (mem_cons_of_mem _ hj)
    have hi := proper i mem_cons_self
    refine ⟨⟨id,i.frame.type,i.frame.content,hi.wellFormed.1,hi.wellFormed.2⟩::frames,?_,?_⟩
    · rw [streamOf_cons,← hstream]
      rfl
    · simp [hsent]

theorem payloads_eq_messages {frames : List WireFrame} {l : List Issue}
    (h : frames.map (fun w => (w.type, w.content)) = l.map fun i => (i.frame.type, i.frame.content)) :
    payloads frames = messages l := by
  induction frames generalizing l with
  | nil => simp_all [payloads,messages]
  | cons w frames ih =>
    cases l with
    | nil => simp at h
    | cons i l =>
      simp only [map_cons,List.cons.injEq,Prod.mk.injEq] at h
      have hrest := ih h.2
      simp only [payloads,messages,filter_cons,h.1.1] at hrest ⊢
      split <;> simp [hrest,h.1.2]

namespace Reception

/-- When every byte has been read, so has every frame. -/
theorem Place.rest_eq_nil {r : Reception} {rest : List WireFrame} (h : r.Place rest)
    (hu : r.unread=[]) : rest=[] := by
  have hframes {l : List WireFrame} (hl : (streamOf l).length<2) : l=[] := by
    cases l with
    | nil => rfl
    | cons w l =>
      simp only [streamOf_cons,framed,length_append,length_beBytes] at hl
      omega
  cases h with
  | paused _ _ _ hunread =>
    apply hframes
    rw [← hunread,hu]
    decide
  | length got _ _ hgot hunread =>
    apply hframes
    rwa [← hunread,hu,append_nil]
  | body f got _ _ hgot hunread =>
    have hlen := congrArg List.length hunread
    simp [hu] at hlen
    omega

end Reception

namespace TrdpFlow
variable {f : TrdpFlow}

def Requested (f : TrdpFlow) : Prop := ∀ i∈f.issued, ∃ r : Request, i.frame=r.frame

theorem issued_send (f : TrdpFlow) (now : ℕ) (frame : Frame) (fromQue : Bool) :
    (f.send now frame fromQue).issued=f.issued := by
  rw [send]
  split_ifs <;> rfl

theorem issued_sendQueued (now : ℕ) (l : List Element) (f : TrdpFlow) :
    (sendQueued now l f).issued=f.issued := by
  induction l generalizing f with
  | nil => rfl
  | cons elm rest ih =>
    rw [sendQueued]
    split_ifs
    · rfl
    · exact (ih _).trans (issued_send _ now elm.frame true)
    · exact ih _

theorem Requested.issue (h : f.Requested) (now : ℕ) (r : Request) : (f.issue now r).Requested := by
  intro i hi
  rw [TrdpFlow.issue,issued_send] at hi
  rcases mem_append.mp hi with hi | hi
  · exact h i hi
  · exact ⟨r,by rw [mem_singleton.mp hi]⟩

theorem Requested.onWritable (h : f.Requested) (sends : List (ℕ × Request)) :
    (f.onWritable sends).Requested := by
  induction sends generalizing f with
  | nil => exact h
  | cons s sends ih => exact ih (h.issue s.1 s.2)

theorem Requested.step (h : f.Requested) (e : Event) : (f.step e).Requested := by
  cases e with
  | issue now r => exact h.issue now r
  | sentPacket now sends =>
    rw [TrdpFlow.step,handleSentPacket]
    split
    · exact h
    rename_i alertWritable _
    have hcompleted : (f.completed now alertWritable sends).Requested := by
      rw [completed]
      split
      · exact onWritable (f := { f with sending := none, clock := max f.clock now }) h sends
      · exact h
    dsimp only
    split
    · exact hcompleted
    · intro i hi
      rw [issued_sendQueued] at hi
      exact hcompleted i hi
  | closeHandler =>
    rw [TrdpFlow.step]
    split <;> exact h

end TrdpFlow

/-- What `on_received` got are the messages of the first packets sent, each one once and in order, and of
all of them when every byte has been read. Packets were left out only if they were late, so the reliable
ones among those received are the first reliable ones issued. -/
def Conveyed (f : TrdpFlow) (r : Reception) : Prop :=
  ∃ gone sent got, f.issued = gone ++ f.sendBufs.map Element.issue ∧ Omits (Late f.clock) gone sent ∧
    got <+: sent ∧ r.closed=false ∧ r.received = messages got ∧ (r.unread=[] → got=sent) ∧
    (got.filter fun i => i.frame.alertWritable) <+: f.issued.filter fun i => i.frame.alertWritable

open TrdpFlow

/-- So it is whatever the two sides do, as long as the queue keeps the type of what it takes and the
reception is not blocked in the middle of a packet. -/
theorem received_as_issued (id : Byte) {es : List TrdpFlow.Event} {reads : List Reception.Event}
    (keeping : AlongRun TrdpFlow.step Keeping (create id) es)
    (harmless : AlongRun Reception.step Reception.Harmless (.create ((create id).run es).stream) reads) :
    Conveyed ((create id).run es) (reads.foldl Reception.step (.create ((create id).run es).stream)) := by
  obtain ⟨⟨hinv,-⟩,hreq⟩ := invariant_of_run (fun f : TrdpFlow => (f.Inv ∧ f.Busy) ∧ f.Requested)
    (fun g e hk h => ⟨Inv.step hk h.1,h.2.step e⟩) keeping ⟨inv_create id,nofun⟩
  obtain ⟨gone,sent,ps,hissued,homits,hstream,-,hcarries⟩ := hinv.account
  change ((create id).run es).issued = _ at hissued
  change ((create id).run es).stream = _ at hstream
  have proper : ∀ i∈sent, i.Proper := by
    intro i hi
    have hmem : i ∈ ((create id).run es).issued := by
      rw [hissued]
      exact mem_append_left _ (homits.sublist.subset hi)
    exact ⟨hreq i hmem,hinv.fits i hmem⟩
  obtain ⟨frames,hframes,hsent⟩ := exists_wireFrames hcarries proper
  rw [hframes] at hstream
  obtain ⟨done,rest,hall,hin⟩ := invariant_of_run
    (fun r : Reception => ∃ done rest, frames = done ++ rest ∧ r.InStep done rest)
    (fun r e hc ⟨done,rest,hall,hin⟩ => by
      obtain ⟨done',rest',hall',hin'⟩ := hin.step hc
      exact ⟨done',rest',hall.trans hall',hin'⟩)
    harmless ⟨[],frames,rfl,by rw [hstream]; exact Reception.inStep_create frames⟩
  -- the frames read so far are those of as many packets
  have hgot : done.map (fun w => (w.type, w.content)) =
      (sent.take done.length).map fun i => (i.frame.type, i.frame.content) := by
    rw [map_take,← hsent,hall,map_append,← length_map,take_left]
  have hfront := take_prefix done.length sent
  refine ⟨gone,sent,sent.take done.length,hissued,homits,hfront,hin.isOpen,
    hin.received.trans (payloads_eq_messages hgot),fun hu => ?_,?_⟩
  · have hlen := congrArg List.length hsent
    rw [hall,hin.place.rest_eq_nil hu] at hlen
    apply take_of_length_le
    simpa using hlen.ge
  · rw [hissued,filter_append,← homits.filter_eq fun i hi => hi.1]
    exact (hfront.filter _).trans (prefix_append _ _)

/-- A message goes out, and behind it one that has waited too long. -/
theorem late_message_not_received :
    let f := (create 0).run [.issue 0 (.asyncSendReliable [7] 3),.issue 1 (.asyncSendUnreliable [8] 4),
      .sentPacket 300 []]
    let r := [.call .keepAsyncReceiving,.readSome 0 1 [],
      .readSome 0 9 []].foldl Reception.step (.create f.stream)
    r.received = [[0,3,7]] ∧ Conveyed f r := by
  refine ⟨by decide +kernel,received_as_issued 0 ⟨⟨Nat.le_of_ble_eq_true rfl,by decide⟩,
    ⟨Nat.le_of_ble_eq_true rfl,by decide⟩,fun a ha => ⟨fun _ => trivial,?_⟩,trivial⟩ (by decide +kernel)⟩
  cases ha
  decide +kernel

end P2Streaming.Trdp
