import P2Streaming.UrdpFlowReceiving

/-!
# `urdp_flow`: connecting, the clock, and runs of one endpoint

The timer of a flow may fire at any moment: `__schedule_timer` and `__clock_check`
only choose when, and no result below depends on their choice.
-/
namespace P2Streaming.Urdp
open BigEndianBytes WrappableInteger

namespace Flow

variable (f : Flow)

def asyncConnect (env : Env) (remoteEnp : Endpoint) (domainName : List Byte)
    (timeOut : ℕ) : Flow :=
  if .init < f.ctl.state then
    f.post (.allertConnected
      (if f.ctl.state = .established then .alreadyConnected else .inProgress))
  else
    let t := if timeOut=0 then idleTimeout else timeOut
    let f := { f with
      tim.tCloseBase := some (env.now + BitVec.ofNat 32 t)
      ctl := { f.ctl with remoteEndpoint := remoteEnp, active := true, state := .synSent } }
    (f.queue domainName .connect).attemptSend env .none

def incressRto (env : Env) : Flow :=
  let rto := if f.ctl.state < .established then f.tim.rto + min env.rtoLimit f.tim.rto
    else
      let rto := 2*f.tim.rto
      if 0<f.tim.srtt ∧ 16*f.tim.srtt < rto ∧ minRto < rto then 16 * f.tim.srtt else rto
  { f with tim.rto := bound minRto rto maxRto }

/-- The retransmission part of `__on_clock`. The answer is absent when the call ends here and
else says whether a reliable datagram went out. -/
def clockRetransmit (env : Env) : Flow × Option Bool :=
  if f.tim.tRtoBase≠0 ∧ modLessEqual (f.tim.tRtoBase + BitVec.ofNat 32 f.tim.rto) env.now then
    if f.snd.retransSlist=[] then ({ f with tim.tRtoBase := 0 }, some false)
    else match f.retransmit env with
      | (f, false) => (f, none)
      | (f, true) =>
          let nInFlight := f.snd.sndNxt - f.snd.sndUna
          let ssthresh := max ((nInFlight*3).toNat / 4) (2*mss)
          let f := { f with
            cc.ssthresh := BitVec.ofNat 32 ssthresh
            cc.cwnd := BitVec.ofNat 32 (max (ssthresh / 2) (2*mss))
            tim.tRtoBase := scapeZero env.now }
          (f.incressRto env, some true)
  else (f, some false)

/-- The loop of `__on_clock` over unreliable segments that are due. A segment is put back with
a later time, so each is sent at most once in a call. -/
def clockUnreliable (env : Env) : ℕ → Flow → Flow
  | 0, f => f
  | n + 1, f =>
      match f.unrel.slist with
      | [] => f
      | seg :: rest =>
          if modLessEqual seg.timeout env.now then
            let (f, seg) := f.packetAsUnreliableAndSendout env seg
            let slist := if seg.remainXmit≤0 then rest else insertUnreliable seg rest
            clockUnreliable env n { f with unrel.slist := slist }
          else f

/-- The ping part of `__on_clock`. -/
def clockPing (env : Env) (sent : Bool) : Flow × Bool :=
  let pingBaseTime := if f.ctl.active then f.tim.tLastsend else f.tim.tLastrecv + 5000
  if f.ctl.state = .established ∧
      modLessEqual (pingBaseTime + BitVec.ofNat 32 f.tim.pingInterval) env.now ∧
      f.snd.slist = [] ∧ f.snd.retransSlist=[] then
    (f.ping env, true)
  else (f, sent)

/-- The delayed acknowledgement of `__on_clock`. -/
def clockAck (env : Env) (sent : Bool) : Flow :=
  if !sent ∧ f.tim.tAck≠0 ∧ modLessEqual (f.tim.tAck + BitVec.ofNat 32 ackDelay) env.now then
    f.packetAsReliableAndSendout env f.snd.sndNxt .ack []
  else f

/-- The window probe of `__on_clock` and what follows it. -/
def clockProbe (env : Env) (sent : Bool) : Flow :=
  if f.ctl.state = .established ∧ f.cc.sndWnd=0 ∧
      modLessEqual (f.tim.tLastsend + BitVec.ofNat 32 f.tim.rto) env.now then
    if 15000 ≤ modMinus env.now f.tim.tLastrecv then
      let f := f.emit .timedOut
      let f := f.packetAsReliableAndSendout env f.snd.sndNxt .rst []
      (f.allertDisconnected env (some .timedOut)).toClosedState
    else
      let f := if sent then f
        else f.packetAsReliableAndSendout env (f.snd.sndNxt - 1) .ack []
      (f.incressRto env).clockAck env true
  else f.clockAck env sent

def onClock (env : Env) : Flow :=
  if f.ctl.state = .closed then f
  else if f.tim.tCloseBase.any fun t => modLessEqual t env.now then
    f.allertDisconnected env (some .timedOut)
  else if f.ctl.state = .established ∧
      modLessEqual (f.tim.tLastrecv + BitVec.ofNat 32 (f.tim.pingInterval+defaultTimeout))
        env.now then
    f.allertDisconnected env (some .timedOut)
  else match f.clockRetransmit env with
    | (f, none) => f
    | (f, some sent) =>
        let f := clockUnreliable env f.unrel.slist.length f
        let (f, sent) := f.clockPing env sent
        f.clockProbe env sent

/-- A handler the `io_service` runs; those posted with an operation mark do nothing once the
flow is cancelled. -/
def runPosted (env : Env) : Posted → Flow
  | .asyncReceive => asyncReceive env f.receiveRounds f
  | .allertWriteable => if f.ctl.canceled then f else f.allertWriteable env
  | .allertDisconnected ec => if f.ctl.canceled then f else f.allertDisconnected env (some ec)
  | .allertConnected ec => if f.ctl.canceled then f else f.allertConnected env (some ec)
  | .flowUnregister => f.emit .unregistered

end Flow

/-- What can happen to a flow: a datagram, the timer, the oldest posted handler, a call of the
application, or an acceptor that turns to a flow it kept waiting. -/
inductive Event where
  | received (sbuf : List Byte) (src : Endpoint)
  | clock
  | posted
  | op (op : AppOp)
  | connect (remoteEnp : Endpoint) (domainName : List Byte) (timeOut : ℕ)
  | acceptPending
  deriving DecidableEq, Repr

namespace Flow

def step (f : Flow) (env : Env) (ev : Event) : Flow :=
  if f.fault.isSome then f
  else match ev with
    | .received sbuf src => f.onReceived env sbuf src
    | .clock => f.onClock env
    | .posted =>
        match f.posted with
        | [] => f
        | p :: rest => { f with posted := rest }.runPosted env p
    | .op op => f.runOp env op
    | .connect remoteEnp domainName timeOut =>
        if f.ctl.socket then f.asyncConnect env remoteEnp domainName timeOut else f
    | .acceptPending =>
        if f.ctl.acceptPending then { f with ctl.acceptPending := false }.acceptFlow env else f

def run (f : Flow) (evs : List (Env × Event)) : Flow :=
  evs.foldl (fun f e => f.step e.1 e.2) f

end Flow
end P2Streaming.Urdp
