import P2Streaming.UrdpSequenceShift

/-!
# Moving the origin of the sequence numbers on the receiving side

The two plain comparisons are here: the functions that make them commute with a shift as far
as the comparison comes out the same.
-/
namespace P2Streaming.Urdp
open BigEndianBytes WrappableInteger SerialNumbers

variable {k : BitVec 32} {φ : BitVec 8 → BitVec 8}

theorem modLess_shift (a b k : BitVec 32) : modLess (a+k) (b+k) = modLess a b := wrappableLess_shift a b k

theorem modLessEqual_shift (a b k : BitVec 32) : modLessEqual (a+k) (b+k) = modLessEqual a b :=
  wrappableLessEqual_shift a b k

theorem modMinus_shift (a b k : BitVec 32) : modMinus (a+k) (b+k) = modMinus a b :=
  wrappableMinus_shift a b k

variable (l : List RSegment)

theorem lengthBytes_shift : lengthBytes (l.map (RSegment.shift k)) = lengthBytes l := by
  rcases l with _ | ⟨⟨_ | ⟨b₀,_ | ⟨b₁,bs⟩⟩,s⟩,_ | ⟨⟨_ | ⟨c,cs⟩,s'⟩,rest⟩⟩ <;> rfl

theorem takeBytes_shift (n : ℕ) :
    takeBytes (l.map (RSegment.shift k)) n = (takeBytes l n).map
      (Prod.map id (List.map (RSegment.shift k))) := by
  induction l generalizing n with
  | nil => cases n <;> rfl
  | cons segment rest ih =>
    cases n with
    | zero => rfl
    | succ n =>
      refine ite_eq_map Iff.rfl (fun _ => ?_) fun _ => ?_
      · rw [ih,Option.map_map,Option.map_map]
        rfl
      · simp [RSegment.shift,Prod.map,add_right_comm]

theorem insertRSegment_shift (rseg : RSegment) (l : List RSegment) :
    insertRSegment (rseg.shift k) (l.map (RSegment.shift k)) =
      Prod.map (List.map (RSegment.shift k)) id (insertRSegment rseg l) := by
  induction l with
  | nil => rfl
  | cons s rest ih =>
    refine ite_eq_map (by simp [RSegment.shift,modLess_shift]) (fun _ => ?_) fun _ => ?_
    · rw [ih]
      rfl
    · exact ite_eq_map (by simp [RSegment.shift,modLess_shift]) (fun _ => rfl) fun _ => rfl

theorem advanceRcvNxt_shift (rcvNxt rlen : BitVec 32) (newData : Bool) :
    advanceRcvNxt (l.map (RSegment.shift k)) (rcvNxt+k) rlen newData =
      Prod.map (· + k) id (advanceRcvNxt l rcvNxt rlen newData) := by
  induction l generalizing rcvNxt rlen newData with
  | nil => rfl
  | cons it rest ih =>
    rw [List.map_cons,advanceRcvNxt,advanceRcvNxt]
    have hend : (it.shift k).seq + BitVec.ofNat 32 (it.shift k).buf.length =
        it.seq + BitVec.ofNat 32 it.buf.length + k := add_right_comm _ _ _
    dsimp only
    rw [hend]
    refine ite_eq_map (by simp [RSegment.shift,modLessEqual_shift]) (fun _ => ?_) fun _ => rfl
    refine ite_eq_map (by simp [modLess_shift]) (fun _ => ?_) fun _ => ih _ _ _
    rw [shift_sub_shift,add_right_comm,ih]

theorem popAcked_shift (sndUna : BitVec 32) (l : List SSegment) :
    popAcked (sndUna+k) (l.map (SSegment.shift k)) = (popAcked sndUna l).map (SSegment.shift k) := by
  induction l with
  | nil => rfl
  | cons seg rest ih =>
    exact ite_eq_map (by simp [SSegment.shift,modMinus_shift]) (fun _ => ih) fun _ => rfl

theorem Outgoing.acked_shift (o : Outgoing) (ackno : BitVec 32) :
    (o.shift k).acked (ackno+k) = (o.acked ackno).shift k := by
  simp [Outgoing.acked,Outgoing.shift,popAcked_shift]

namespace Flow

variable (f : Flow)

theorem canLetTransportRead_moved : (f.moved k φ).canLetTransportRead = f.canLetTransportRead := by
  unfold canLetTransportRead
  simp only [ctl_moved,unrel_moved,rcv_moved,Incoming.rlen_shift,Incoming.rlist_shift,lengthBytes_shift]
  rfl

variable (env : Env)

theorem reopenWindow_moved :
    (f.moved k φ).reopenWindow env = (f.reopenWindow env).moved k φ := by
  unfold reopenWindow
  -- the sizes stay closed, or the comparison below would count up to them
  generalize recvBufSize = size
  refine ite_eq_map Iff.rfl (fun _ => ite_eq_map Iff.rfl (fun _ => ?_) fun _ => rfl) fun _ => rfl
  exact attemptSend_moved { f with rcv.rcvWnd := BitVec.ofNat 32 size - f.rcv.rlen } env .immediateAck

theorem recv_moved : (f.moved k φ).recv env = Prod.map (moved k φ) id (f.recv env) := by
  refine ite_eq_map Iff.rfl (fun _ => rfl) fun _ => ?_
  rw [canLetTransportRead_moved]
  cases f.canLetTransportRead with
  | none => rfl
  | some maxReadLen =>
    refine ite_eq_map Iff.rfl (fun _ => rfl) fun _ => ?_
    rw [unrel_moved]
    cases f.unrel.rlist with
    | cons buf rest => rfl
    | nil =>
      simp only [rcv_moved,Incoming.rlist_shift,Incoming.rlen_shift,takeBytes_shift]
      cases takeBytes f.rcv.rlist maxReadLen.toNat with
      | none => rfl
      | some r =>
        simp only [Option.map_some,Prod.map]
        rw [← reopenWindow_moved,← emit_moved]
        rfl

theorem allertConnected_moved (ec : Option ErrorCode) :
    (f.moved k φ).allertConnected env ec = (f.allertConnected env ec).moved k φ := by
  refine ite_eq_map Iff.rfl (fun _ => doClose_moved (f.noteEstablished env) env true) fun _ => ?_
  cases ec with
  | none =>
    exact (congrArg (call · env _) (keepAsyncReceiving_moved (f.noteEstablished env))).trans
      (call_moved _ env _)
  | some ec =>
    exact (congrArg toClosedState (call_moved (f.noteEstablished env) env _)).trans
      (toClosedState_moved _)

theorem allertDisconnected_moved (ec : Option ErrorCode) :
    (f.moved k φ).allertDisconnected env ec = (f.allertDisconnected env ec).moved k φ := by
  have hnote : (if ec = some .timedOut then (f.moved k φ).emit .timedOut else f.moved k φ) =
      moved k φ (if ec = some .timedOut then f.emit .timedOut else f) :=
    ite_eq_map Iff.rfl (fun _ => emit_moved f .timedOut) fun _ => rfl
  unfold allertDisconnected
  rw [hnote]
  obtain ⟨g,hg⟩ : ∃ g, (if ec = some .timedOut then f.emit .timedOut else f) = g := ⟨_,rfl⟩
  rw [hg]
  refine ite_eq_map Iff.rfl (fun _ => toClosedState_moved g) fun _ => ?_
  rw [← toClosedState_moved]
  refine congrArg toClosedState (ite_eq_map Iff.rfl (fun _ => ?_) fun _ => rfl)
  exact ite_eq_map Iff.rfl (fun _ => call_moved g env _) fun _ =>
    ite_eq_map Iff.rfl (fun _ => call_moved g env _) fun _ => rfl

theorem allertReceived_moved (buf : List Byte) :
    (f.moved k φ).allertReceived env buf = (f.allertReceived env buf).moved k φ :=
  ite_eq_map Iff.rfl (fun _ => doClose_moved f env true) fun _ => call_moved f env _

theorem asyncReceive_moved (n : ℕ) (f : Flow) :
    asyncReceive env n (f.moved k φ) = (asyncReceive env n f).moved k φ := by
  induction n generalizing f with
  | zero => rfl
  | succ n ih =>
    refine ite_eq_map Iff.rfl (fun _ => rfl) fun _ => ite_eq_map Iff.rfl (fun _ => rfl) fun _ => ?_
    rw [recv_moved]
    obtain ⟨g,r⟩ := f.recv env
    rcases r with ec | buf
    · cases ec with
      | wouldBlock => rfl
      | _ => exact allertDisconnected_moved g env _
    · exact (congrArg (asyncReceive env n) (allertReceived_moved g env buf)).trans (ih _)

theorem allertReadable_moved :
    (f.moved k φ).allertReadable env = (f.allertReadable env).moved k φ := by
  refine ite_eq_map Iff.rfl (fun _ => doClose_moved f env true) fun _ =>
    ite_eq_map Iff.rfl (fun _ => rfl) fun _ => ?_
  rw [canLetTransportRead_moved]
  cases f.canLetTransportRead with
  | none => rfl
  | some maxReadLen =>
    exact ite_eq_map Iff.rfl (fun _ => rfl) fun _ => ite_eq_map Iff.rfl
      (fun _ => asyncReceive_moved env _ { f with rcv.detectReadable := false }) fun _ => rfl

theorem allertWriteable_moved :
    (f.moved k φ).allertWriteable env = (f.allertWriteable env).moved k φ :=
  ite_eq_map Iff.rfl (fun _ => doClose_moved f env true) fun _ =>
    ite_eq_map Iff.rfl (fun _ => call_moved { f with cc.detectWritable := false } env _) fun _ => rfl

theorem acceptFlow_moved : (f.moved k φ).acceptFlow env = (f.acceptFlow env).moved k φ :=
  ite_eq_map Iff.rfl (fun _ => call_moved { f with ctl.socket := true } env _) fun _ => rfl

theorem allertAccepted_moved :
    (f.moved k φ).allertAccepted env = (f.allertAccepted env).moved k φ := by
  refine ite_eq_map Iff.rfl (fun _ => doClose_moved f env true) fun _ => ?_
  have hkeep := keepAsyncReceiving_moved (k := k) (φ := φ) (f.noteEstablished env)
  cases env.accepting with
  | dispatched => exact (congrArg (acceptFlow · env) hkeep).trans (acceptFlow_moved _ env)
  | pending => exact congrArg (fun g : Flow => { g with ctl.acceptPending := true }) hkeep
  | expired => exact close_moved (f.noteEstablished env) env true

theorem updateRtt_moved (rtt : ℤ) : (f.moved k φ).updateRtt rtt = (f.updateRtt rtt).moved k φ :=
  ite_eq_map Iff.rfl (fun _ => rfl) fun _ => rfl

theorem retransmit_moved :
    (f.moved k φ).retransmit env = Prod.map (moved k φ) id (f.retransmit env) := by
  unfold retransmit
  rw [transmitRetrans_moved]
  obtain ⟨g,sent⟩ := f.transmitRetrans env
  cases sent with
  | true => rfl
  | false => exact congrArg (·, false) (allertDisconnected_moved g env _)

theorem echoRtt_moved (timeEcho : BitVec 16) :
    (f.moved k φ).echoRtt env timeEcho = (f.echoRtt env timeEcho).moved k φ :=
  ite_eq_map Iff.rfl (fun _ => rfl) fun _ => updateRtt_moved f _

variable (h : ReliableHeader)

theorem takeAck_moved :
    (f.moved k φ).takeAck env (h.shift k) = (f.takeAck env h).moved k φ := by
  unfold takeAck
  have hecho : (f.moved k φ).echoRtt env (h.shift k).timeEcho = (f.echoRtt env h.timeEcho).moved k φ :=
    echoRtt_moved f env h.timeEcho
  rw [hecho]
  obtain ⟨g,hg⟩ : ∃ g, f.echoRtt env h.timeEcho = g := ⟨_,rfl⟩
  have hacked : (g.moved k φ).snd.acked (h.shift k).ackno = (g.snd.acked h.ackno).shift k :=
    g.snd.acked_shift h.ackno
  dsimp only
  rw [hg,hacked]
  simp only [Outgoing.retransSlist_shift,Outgoing.sndUna_shift,Outgoing.sndNxt_shift,List.map_eq_nil_iff,
    add_left_inj,tim_moved]
  rfl

theorem takeAck_cc :
    (f.takeAck env h).cc = { f.cc with sndWnd := h.window.setWidth 32 } := by
  have hecho : (f.echoRtt env h.timeEcho).cc = f.cc := by
    unfold echoRtt updateRtt
    split_ifs <;> rfl
  exact congrArg (fun cc : Congestion => { cc with sndWnd := h.window.setWidth 32 }) hecho

theorem adjustWindow_shift (nAcked : BitVec 32)
    (hrec : 3≤f.cc.dupAcks.toNat → (f.cc.recover+k≤f.snd.sndUna+k ↔ f.cc.recover≤f.snd.sndUna)) :
    (f.shift k).adjustWindow env nAcked = Prod.map (shift k) id (f.adjustWindow env nAcked) := by
  refine ite_eq_map Iff.rfl (fun hdup => ?_) fun _ => rfl
  refine ite_eq_map (hrec hdup) (fun _ => ?_) fun _ => ?_
  · have hflight : (f.shift k).snd.sndNxt - (f.shift k).snd.sndUna = f.snd.sndNxt - f.snd.sndUna :=
      shift_sub_shift _ _ k
    rw [hflight]
    rfl
  · have hre : (f.shift k).retransmit env = Prod.map (shift k) id (f.retransmit env) :=
      retransmit_moved (φ := id) f env
    rw [hre]
    obtain ⟨g,sent⟩ := f.retransmit env
    cases sent <;> rfl

theorem processNewAck_shift (hrec : 3≤f.cc.dupAcks.toNat →
    (f.cc.recover+k≤h.ackno+k ↔ f.cc.recover≤h.ackno)) :
    (f.shift k).processNewAck env (h.shift k) = Prod.map (shift k) id (f.processNewAck env h) := by
  have htake : (f.shift k).takeAck env (h.shift k) = (f.takeAck env h).shift k :=
    takeAck_moved (φ := id) f env h
  have hacked : (h.shift k).ackno - (f.shift k).snd.sndUna = h.ackno - f.snd.sndUna :=
    shift_sub_shift _ _ k
  unfold processNewAck
  rw [htake,hacked,adjustWindow_shift _ env _ (by rw [takeAck_cc]; exact hrec)]
  obtain ⟨g,taken⟩ := (f.takeAck env h).adjustWindow env (h.ackno - f.snd.sndUna)
  cases taken with
  | false => rfl
  | true => exact ite_eq_map Iff.rfl (fun _ => rfl) fun _ => rfl

theorem countDupAck_shift :
    (f.shift k).countDupAck env = Prod.map (shift k) id (f.countDupAck env) := by
  refine ite_eq_map Iff.rfl (fun _ => ?_) fun _ => rfl
  have hflight : (f.shift k).snd.sndNxt - (f.shift k).snd.sndUna = f.snd.sndNxt - f.snd.sndUna :=
    shift_sub_shift _ _ k
  rw [hflight]
  exact retransmit_moved (φ := id) { f with cc := { f.cc with
    dupAcks := f.cc.dupAcks+1
    ssthresh := BitVec.ofNat 32 (max (((f.snd.sndNxt - f.snd.sndUna) * 3).toNat / 4) (3*mss))
    recover := f.snd.sndNxt } } env

variable (data : List Byte)

theorem processDupAck_shift :
    (f.shift k).processDupAck env (h.shift k) data =
    Prod.map (shift k) id (f.processDupAck env h data) := by
  refine ite_eq_map Iff.rfl (fun _ => rfl) fun _ => ite_eq_map (add_left_inj k) (fun _ => rfl) fun _ => ?_
  have hcount : countDupAck { f.shift k with cc.sndWnd := (h.shift k).window.setWidth 32 } env =
      Prod.map (shift k) id (countDupAck { f with cc.sndWnd := h.window.setWidth 32 } env) :=
    countDupAck_shift { f with cc.sndWnd := h.window.setWidth 32 } env
  rw [hcount]
  obtain ⟨g,sent⟩ := countDupAck { f with cc.sndWnd := h.window.setWidth 32 } env
  cases sent <;> rfl

theorem processAck_shift (hrec : modLess f.snd.sndUna h.ackno ∧ modLessEqual h.ackno f.snd.sndNxt →
    3≤f.cc.dupAcks.toNat →
      (f.cc.recover+k≤h.ackno+k ↔ f.cc.recover≤h.ackno)) :
    (f.shift k).processAck env (h.shift k) data = Prod.map (shift k) id (f.processAck env h data) := by
  refine ite_eq_map ?_ (fun hnew => processNewAck_shift f env h (hrec hnew)) fun _ => ?_
  · exact Iff.of_eq (congrArg₂ (fun a b : Bool => a = true ∧ b=true) (modLess_shift _ _ k)
      (modLessEqual_shift _ _ k))
  · exact ite_eq_map (add_left_inj k) (fun _ => processDupAck_shift f env h data) fun _ => rfl

theorem insertData_moved (seqno : BitVec 32) (data : List Byte) :
    (f.moved k φ).insertData (seqno+k) data = Prod.map (moved k φ) id (f.insertData seqno data) := by
  have hinsert : insertRSegment ⟨data,seqno+k⟩ (f.moved k φ).rcv.rlist =
      Prod.map (List.map (RSegment.shift k)) id (insertRSegment ⟨data,seqno⟩ f.rcv.rlist) :=
    insertRSegment_shift ⟨data,seqno⟩ f.rcv.rlist
  unfold insertData
  rw [hinsert]
  obtain ⟨rlist,inserted⟩ := insertRSegment ⟨data,seqno⟩ f.rcv.rlist
  refine ite_eq_map (add_left_inj k) (fun _ => ?_) fun _ => rfl
  have hadvance : advanceRcvNxt (rlist.map (RSegment.shift k)) (f.moved k φ).rcv.rcvNxt
    (f.moved k φ).rcv.rlen false =
      Prod.map (· + k) id (advanceRcvNxt rlist f.rcv.rcvNxt f.rcv.rlen false) :=
      advanceRcvNxt_shift rlist _ _ _
  rw [hadvance]
  rfl

theorem notify_moved (connected newData accepted : Bool) :
    (f.moved k φ).notify env connected newData accepted =
    (f.notify env connected newData accepted).moved k φ := by
  unfold notify
  obtain ⟨readable,hreadable⟩ : ∃ r, (newData && f.rcv.detectReadable) = r := ⟨_,rfl⟩
  obtain ⟨writable,hwritable⟩ : ∃ w,
      (f.cc.detectWritable && decide (f.snd.slen.toNat < (sndBufSize+recvBufSize) / 2)) = w := ⟨_,rfl⟩
  have hreadable' : (newData && (f.moved k φ).rcv.detectReadable) = readable := hreadable
  have hwritable' : ((f.moved k φ).cc.detectWritable &&
      decide ((f.moved k φ).snd.slen.toNat < (sndBufSize+recvBufSize) / 2)) = writable := hwritable
  dsimp only
  rw [hreadable,hwritable,hreadable',hwritable',
    ite_eq_map (φ := moved k φ) Iff.rfl (fun _ => allertConnected_moved f env none) fun _ => rfl]
  generalize (if connected=true then f.allertConnected env none else f) = g₁
  rw [ite_eq_map (φ := moved k φ) Iff.rfl (fun _ => allertWriteable_moved g₁ env) fun _ => rfl]
  generalize (if writable=true then g₁.allertWriteable env else g₁) = g₂
  rw [ite_eq_map (φ := moved k φ) Iff.rfl (fun _ => allertReadable_moved g₂ env) fun _ => rfl]
  generalize (if readable=true then g₂.allertReadable env else g₂) = g₃
  exact ite_eq_map Iff.rfl (fun _ => allertAccepted_moved g₃ env) fun _ => rfl

theorem respond_moved (ackno : BitVec 32) (sflags : SendFlags)
    (connected newData accepted : Bool) : (f.moved k φ).respond env
    (ackno+k) sflags connected newData accepted =
      (f.respond env ackno sflags connected newData accepted).moved k φ := by
  refine ite_eq_map (and_congr_right fun _ => add_left_inj k) (fun _ => sendFin_moved f env) fun _ => ?_
  rw [attemptSend_moved,notify_moved]

theorem trimSegment_shift (rcvNxt seqno : BitVec 32) (data : List Byte)
    (hold : seqno+k < rcvNxt+k ↔ seqno < rcvNxt) :
    trimSegment (rcvNxt+k) (seqno+k) data = Prod.map (· + k) id (trimSegment rcvNxt seqno data) := by
  refine ite_eq_map hold (fun _ => ?_) fun _ => rfl
  rw [shift_sub_shift]
  refine ite_eq_map Iff.rfl (fun _ => ?_) fun _ => rfl
  rw [add_right_comm]
  rfl

theorem trimSegment_nil (rcvNxt seqno : BitVec 32) : (trimSegment rcvNxt seqno []).2 = [] := by
  unfold trimSegment
  split_ifs <;> simp

theorem processData_nil (control : Ctrl) (seqno : BitVec 32) :
    f.processData control seqno [] = (f, false) :=
  if_pos (Or.inl (trimSegment_nil f.rcv.rcvNxt seqno))

theorem processData_moved (control : Ctrl) (seqno : BitVec 32) (data : List Byte)
    (hold : data≠[] → (seqno+k<f.rcv.rcvNxt+k ↔ seqno<f.rcv.rcvNxt)) :
    (f.moved k φ).processData control (seqno+k) data =
    Prod.map (moved k φ) id (f.processData control seqno data) := by
  rcases eq_or_ne data [] with rfl | hdata
  · rw [processData_nil,processData_nil]
    rfl
  obtain ⟨⟨seqno',data'⟩,hcut⟩ : ∃ r, trimSegment f.rcv.rcvNxt seqno data = r := ⟨_,rfl⟩
  have hcut' : trimSegment (f.moved k φ).rcv.rcvNxt (seqno+k) data = (seqno'+k, data') :=
    (trimSegment_shift _ _ data (hold hdata)).trans (congrArg (Prod.map (· + k) id) hcut)
  have hpast : modMinus (seqno' + k + BitVec.ofNat 32 data'.length) (f.moved k φ).rcv.rcvNxt =
      modMinus (seqno' + BitVec.ofNat 32 data'.length) f.rcv.rcvNxt := by
    rw [add_right_comm]
    exact modMinus_shift _ _ k
  have hempty : (f.moved k φ).rcv.rlist ≠ [] ↔ f.rcv.rlist≠[] := not_congr List.map_eq_nil_iff
  unfold processData
  rw [hcut,hcut']
  dsimp only
  rw [hpast]
  refine ite_eq_map (or_congr_right (and_congr_left fun _ => hempty)) (fun _ => rfl) fun _ => ?_
  refine ite_eq_map Iff.rfl (fun _ => ?_) fun _ => insertData_moved f seqno' data'
  refine ite_eq_map (add_left_inj k) (fun _ => ?_) fun _ => rfl
  have hnxt : (f.moved k φ).rcv.rcvNxt + BitVec.ofNat 32 data'.length =
      f.rcv.rcvNxt + BitVec.ofNat 32 data'.length + k := add_right_comm _ _ _
  rw [hnxt]
  rfl

theorem processRest_moved (connected accepted : Bool)
    (hold : data≠[] → (h.seqno+k<f.rcv.rcvNxt+k ↔ h.seqno<f.rcv.rcvNxt)) :
    (f.moved k φ).processRest env (h.shift k) data connected accepted =
      (f.processRest env h data connected accepted).moved k φ := by
  have hdata : (f.moved k φ).processData (h.shift k).control (h.shift k).seqno data =
      Prod.map (moved k φ) id (f.processData h.control h.seqno data) :=
      processData_moved f h.control h.seqno data hold
  have hseq : (h.shift k).seqno ≠ (f.moved k φ).rcv.rcvNxt ↔ h.seqno≠f.rcv.rcvNxt :=
    not_congr (add_left_inj k)
  unfold processRest
  rw [hdata]
  simp only [hseq]
  obtain ⟨g,newData⟩ := f.processData h.control h.seqno data
  exact respond_moved g env h.ackno _ connected newData accepted

theorem updateTimes_moved :
    (f.moved k φ).updateTimes env (h.shift k) data = (f.updateTimes env h data).moved k φ := by
  refine ite_eq_map ?_ (fun _ => rfl) fun _ => rfl
  have hend : (h.shift k).seqno + BitVec.ofNat 32 data.length = h.seqno +
    BitVec.ofNat 32 data.length + k :=
    add_right_comm _ _ _
  rw [hend]
  exact Iff.of_eq (congrArg₂ (fun a b : Bool => a = true ∧ b=true) (modLessEqual_shift _ _ k)
    (modLess_shift _ _ k))

theorem processPunch_moved (src : Endpoint) :
    (f.moved k φ).processPunch env src = (f.processPunch env src).moved k φ := by
  unfold processPunch
  dsimp only
  rw [snd_moved,Outgoing.retransSlist_shift]
  rcases f.snd.retransSlist with _ | ⟨seg,_ | ⟨seg',rest⟩⟩
  · rfl
  · refine ite_eq_map Iff.rfl (fun _ => ?_) fun _ => rfl
    exact congrArg Prod.fst (transmitRetrans_moved { f with
      ctl.remoteEndpoint := src
      tim := { f.tim with tLasttraffic := env.now, tLastrecv := env.now }
      snd.retransSlist := [{ seg with xmit := 1 }] } env)
  · rfl

end Flow
end P2Streaming.Urdp
