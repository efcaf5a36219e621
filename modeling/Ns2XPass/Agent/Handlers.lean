import Ns2XPass.Agent.State

/-! # The handlers of an XPass agent

Each handler of `xpass.cc` takes the clock and the agent to the new agent and
its effects, or to the exit it takes. `react` gathers them: an input is a
command of the application, a received packet or the expiry of a timer.
-/

namespace Ns2XPass

/-- The five timers of an agent. -/
inductive AgentTimer | sendCredit | creditStop | senderRetransmit | receiverRetransmit | fct
  deriving DecidableEq, Repr

inductive Input
  | advanceBytes (nb : ℤ)
  | recv (p : Packet) (r : Rand)
  | expire (t : AgentTimer) (r : Rand)

namespace XPassAgent

def timer (a : XPassAgent) : AgentTimer → TimerHandler
  | .sendCredit => a.sendCreditTimer
  | .creditStop => a.creditStopTimer
  | .senderRetransmit => a.senderRetransmitTimer
  | .receiverRetransmit => a.receiverRetransmitTimer
  | .fct => a.fctTimer

def setTimer (a : XPassAgent) (h : TimerHandler) : AgentTimer → XPassAgent
  | .sendCredit => { a with sendCreditTimer := h }
  | .creditStop => { a with creditStopTimer := h }
  | .senderRetransmit => { a with senderRetransmitTimer := h }
  | .receiverRetransmit => { a with receiverRetransmitTimer := h }
  | .fct => { a with fctTimer := h }

variable (cfg : Config) (now : ℚ)

def init (a : XPassAgent) : XPassAgent := { a with w := cfg.wInit, lastCreditRateUpdate := now }

def updateRtt (p : Packet) (a : XPassAgent) : XPassAgent :=
  let rtt := now - p.creditSentTime
  { a with rtt := if 0 < a.rtt then 4 / 5 * a.rtt + 1 / 5 * rtt else rtt }

/-- `credit_dropped_ / (double)credit_total_`. -/
def lossRate (a : XPassAgent) : ℚ := a.creditDropped / a.creditTotal

def targetLoss (a : XPassAgent) : ℚ :=
  (1 - (a.curCreditRate : ℚ) / cfg.maxCreditRate) * cfg.targetLossScaling

/-- The rate and `w` after a measurement above the target loss. -/
def decreaseRate (a : XPassAgent) : XPassAgent :=
  let rate :=
    if 1 ≤ a.lossRate then toInt (cfg.avgCreditSize / a.rtt)
    else toInt (cfg.avgCreditSize * (a.creditTotal - a.creditDropped : ℤ)
      / (now - a.lastCreditRateUpdate) * (1 + a.targetLoss cfg))
  { a with
    curCreditRate := if a.curCreditRate < rate then a.curCreditRate else rate
    w := max (a.w / 2) cfg.minW
    canIncreaseW := false }

/-- The rate and `w` after a measurement that shows no congestion. -/
def increaseRate (a : XPassAgent) : XPassAgent :=
  let w := if a.canIncreaseW then min (a.w + 1 / 20) (1 / 2) else a.w
  { a with
    w := w
    canIncreaseW := true
    curCreditRate :=
      if a.curCreditRate < cfg.maxCreditRate then
        toInt (w * cfg.maxCreditRate + (1 - w) * a.curCreditRate)
      else a.curCreditRate }

def creditFeedbackControl (a : XPassAgent) : XPassAgent :=
  if a.rtt ≤ 0 then a
  else if now - a.lastCreditRateUpdate < a.rtt then a
  else if a.creditTotal = 0 then a
  else
    let minRate := toInt (cfg.avgCreditSize / a.rtt)
    let a := if a.targetLoss cfg < a.lossRate then a.decreaseRate cfg now else a.increaseRate cfg
    let rate := if cfg.maxCreditRate < a.curCreditRate then cfg.maxCreditRate else a.curCreditRate
    { a with
      curCreditRate := if rate < minRate then minRate else rate
      creditTotal := 0
      creditDropped := 0
      lastCreditRateUpdate := now }

/-- `avg_credit_size / cur_credit_rate_`, infinite when the rate is zero. -/
def creditDelay (a : XPassAgent) : WithTop ℚ :=
  if a.curCreditRate = 0 then ⊤ else ((cfg.avgCreditSize / a.curCreditRate : ℚ) : WithTop ℚ)

/-- The inter-credit delay with its jitter. -/
def jitteredDelay (r : Rand) (a : XPassAgent) : WithTop ℚ :=
  if cfg.minJitter < cfg.maxJitter then
    let jitter : ℚ := (r.jitter.val : ℚ) / RAND_MAX
    let jitter := jitter * (cfg.maxJitter - cfg.minJitter) + cfg.minJitter
    (a.creditDelay cfg).map (· * (1 + jitter))
  else a.creditDelay cfg

def sendCredit (r : Rand) (a : XPassAgent) : Except Exit (XPassAgent × List Effect) := do
  let a := a.creditFeedbackControl cfg now
  let (p, a) ← a.constructCredit cfg now r
  if cfg.maxJitter < cfg.minJitter then .error .jitterBounds
  else pure ({ a with sendCreditTimer := .resched now (a.jitteredDelay cfg r) }, [.send p])

def sendCreditStop (a : XPassAgent) : XPassAgent × List Effect :=
  ({ a with
    senderRetransmitTimer :=
      .resched now ((if 0 < a.rtt then 2 * a.rtt else cfg.defaultCreditStopTimeout : ℚ) : WithTop ℚ)
    creditRecvState := .creditStopSent },
    [.send (a.constructCreditStop cfg)])

/-- The statements that send a CREDIT_REQUEST and wait for its answer. -/
def sendCreditRequest (a : XPassAgent) : XPassAgent × List Effect :=
  let (p, a) := a.constructCreditRequest cfg now
  ({ a with
    senderRetransmitTimer := .resched now (cfg.retransmitTimeout : WithTop ℚ)
    creditRecvState := .creditRequestSent },
    [.send p])

/-- `advance_bytes` schedules its timer with `sched`, which aborts unless the timer is idle. -/
def advanceBytes (nb : ℤ) (a : XPassAgent) : Except Exit (XPassAgent × List Effect) := do
  let a := { a with curseq := a.curseq + nb }
  let (p, a) := a.constructCreditRequest cfg now
  let h ← (a.senderRetransmitTimer.sched now cfg.retransmitTimeout).mapError .timer
  pure ({ a with senderRetransmitTimer := h, creditRecvState := .creditRequestSent }, [.send p])

/-- The statements of `recv_credit_request` before the first credit is sent. -/
def startCredits (p : Packet) (a : XPassAgent) : XPassAgent :=
  let lalpha := if 40 ≤ p.sendbuffer then cfg.alpha else cfg.alpha * p.sendbuffer / 40
  { a.init cfg now with
    curCreditRate := toInt (lalpha * cfg.maxCreditRate)
    fst := p.creditSentTime }

/-- The body of the case XPASS_SEND_CLOSED, also reached from XPASS_SEND_CLOSE_WAIT. -/
def acceptCreditRequest (r : Rand) (p : Packet) (a : XPassAgent) :
    Except Exit (XPassAgent × List Effect) := do
  let (a, out) ← (a.startCredits cfg now p).sendCredit cfg now r
  pure ({ a with creditSendState := .creditSending }, out)

def recvCreditRequest (r : Rand) (p : Packet) (a : XPassAgent) :
    Except Exit (XPassAgent × List Effect) :=
  match a.creditSendState with
  | .closeWait => { a with fctTimer := a.fctTimer.forceCancel }.acceptCreditRequest cfg now r p
  | .closed => a.acceptCreditRequest cfg now r p
  | .creditSending | .creditStopReceived => .ok (a, [])

/-- The statements that schedule the CREDIT_STOP with no delay. -/
def scheduleCreditStop (a : XPassAgent) : Except Exit XPassAgent := do
  if a.creditStopTimer.status ≠ .idle then .error .creditStopTimerScheduledTwice
  else
    let h ← (a.creditStopTimer.sched now 0).mapError .timer
    pure { a with creditStopTimer := h }

/-- `send(construct_data(pkt), 0)`, guarded by `datalen_remaining() > 0`. -/
def sendData (p : Packet) (a : XPassAgent) : Except Exit (XPassAgent × List Effect) := do
  if 0 < a.datalenRemaining then
    let (d, a) ← a.constructData cfg p
    pure (a, [.send d])
  else pure (a, [])

/-- Early credit stop: enough credits came in the last round trip to finish the flow. -/
def earlyCreditStop (a : XPassAgent) : Except Exit XPassAgent :=
  if a.pktRemaining cfg ≤ a.creditRecvedRtt then a.scheduleCreditStop now else .ok a

/-- What follows the sending of data in the case XPASS_RECV_CREDIT_RECEIVING. -/
def checkCreditStop (a : XPassAgent) : Except Exit XPassAgent := do
  if a.datalenRemaining = 0 then a.scheduleCreditStop now
  else if a.rtt ≤ now - a.lastCreditRecvUpdate then
    let a ← a.earlyCreditStop cfg now
    pure { a with creditRecvedRtt := 0, lastCreditRecvUpdate := now }
  else pure a

/-- The body of the case XPASS_RECV_CREDIT_RECEIVING. -/
def creditReceiving (p : Packet) (a : XPassAgent) : Except Exit (XPassAgent × List Effect) := do
  let (a, out) ← a.sendData cfg p
  let a ← a.checkCreditStop cfg now
  pure (a, out)

/-- The transition of the case XPASS_RECV_CREDIT_REQUEST_SENT, before it falls through. -/
def firstCredit (a : XPassAgent) : XPassAgent :=
  { a with
    senderRetransmitTimer := a.senderRetransmitTimer.forceCancel
    creditRecvState := .creditReceiving
    rtt := now - a.rtt
    lastCreditRecvUpdate := now }

def recvCredit (p : Packet) (a : XPassAgent) : Except Exit (XPassAgent × List Effect) :=
  let a := { a with creditRecvedRtt := wrap32 (a.creditRecvedRtt + 1) }
  match a.creditRecvState with
  | .creditRequestSent => (a.firstCredit now).creditReceiving cfg now p
  | .creditReceiving => a.creditReceiving cfg now p
  | .creditStopSent => do
    let wasted := if 0 < a.datalenRemaining then a.creditWasted else wrap32 (a.creditWasted + 1)
    let (a, out) ← a.sendData cfg p
    pure ({ a with creditWasted := wasted, creditRecved := wrap32 (a.creditRecved + 1) }, out)
  | .closeWait | .closed => .ok ({ a with creditWasted := wrap32 (a.creditWasted + 1) }, [])

/-- `process_ack`: the payload length is the packet size less the header length. -/
def processAck (p : Packet) (a : XPassAgent) : Except Exit (XPassAgent × List Effect) :=
  let datalen := p.size - p.hlen
  if datalen < 0 then .error .negativeLength
  else if a.recvNext < p.seqno then
    if a.waitRetransmission then .ok (a, [])
    else .ok
      ({ a with
        waitRetransmission := true
        receiverRetransmitTimer := .resched now cfg.retransmitTimeout },
        [.send (constructNack cfg a.recvNext)])
  else if p.seqno = a.recvNext then
    .ok
      ({ a with
        waitRetransmission := false
        receiverRetransmitTimer :=
          if a.waitRetransmission then a.receiverRetransmitTimer.forceCancel
          else a.receiverRetransmitTimer
        recvNext := a.recvNext + datalen },
        [])
  else .ok (a, [])

/-- The counters of `recv_data`: `distance` is an `int`. -/
def countCredits (p : Packet) (a : XPassAgent) : XPassAgent :=
  let distance := wrap32 (p.creditSeq - a.cRecvNext)
  { a with
    creditTotal := wrap32 (a.creditTotal + (distance + 1))
    creditDropped := wrap32 (a.creditDropped + distance)
    cRecvNext := p.creditSeq + 1 }

def recvData (p : Packet) (a : XPassAgent) : Except Exit (XPassAgent × List Effect) := do
  if wrap32 (p.creditSeq - a.cRecvNext) < 0 then .error .creditSequenceReverted
  else
    let (a, out) ← (a.countCredits p).processAck cfg now p
    pure (a.updateRtt now p, out)

/-- `recv_nack`: in three states a CREDIT_REQUEST is sent before `t_seqno_` is set. -/
def recvNack (p : Packet) (a : XPassAgent) : XPassAgent × List Effect :=
  match a.creditRecvState with
  | .creditStopSent | .closeWait | .closed =>
    let (a, out) := a.sendCreditRequest cfg now
    ({ a with tSeqno := p.ackno }, out)
  | .creditRequestSent | .creditReceiving => ({ a with tSeqno := p.ackno }, [])

def recvCreditStop (a : XPassAgent) : Except Exit (XPassAgent × List Effect) := do
  let h ← (a.fctTimer.sched now cfg.defaultCreditStopTimeout).mapError .timer
  pure
    ({ a with
      fct := now - a.fst
      fctTimer := h
      sendCreditTimer := a.sendCreditTimer.forceCancel
      creditSendState := .closeWait },
      [])

def handleFct (a : XPassAgent) : XPassAgent × List Effect :=
  ({ a with creditSendState := .closed }, [.fctOut cfg.fid (a.recvNext - 1) a.fct])

def handleSenderRetransmit (a : XPassAgent) : Except Exit (XPassAgent × List Effect) :=
  match a.creditRecvState with
  | .creditRequestSent => .ok (a.sendCreditRequest cfg now)
  | .creditStopSent =>
    if 0 < a.datalenRemaining then .ok (a.sendCreditRequest cfg now)
    else .ok
      ({ a with
        creditRecvState := .closeWait
        creditRecved := 0
        senderRetransmitTimer := .resched now
          ((if 0 < a.rtt then a.rtt else cfg.defaultCreditStopTimeout : ℚ) : WithTop ℚ) },
        [])
  | .closeWait =>
    if a.creditRecved = 0 then .ok
      ({ a with
        creditRecvState := .closed
        senderRetransmitTimer := a.senderRetransmitTimer.forceCancel },
        [.wasteOut cfg.fid (a.curseq - 1) a.creditWasted])
    else .ok (a.sendCreditStop cfg now)
  | .closed => .error .senderRetransmitWhileClosed
  | .creditReceiving => .ok (a, [])

def handleReceiverRetransmit (a : XPassAgent) : XPassAgent × List Effect :=
  if a.waitRetransmission then
    ({ a with receiverRetransmitTimer := .resched now cfg.retransmitTimeout },
      [.send (constructNack cfg a.recvNext)])
  else (a, [])

/-- `recv`: other packet types are dropped. -/
def recv (r : Rand) (p : Packet) (a : XPassAgent) : Except Exit (XPassAgent × List Effect) :=
  match p.ptype with
  | .xpassCreditRequest => a.recvCreditRequest cfg now r p
  | .xpassCredit => a.recvCredit cfg now p
  | .xpassData => a.recvData cfg now p
  | .xpassCreditStop => a.recvCreditStop cfg now
  | .xpassNack => .ok (a.recvNack cfg now p)
  | .other _ => .ok (a, [])

/-- The virtual `expire` of the five timers. -/
def expire (r : Rand) (a : XPassAgent) : AgentTimer → Except Exit (XPassAgent × List Effect)
  | .sendCredit => a.sendCredit cfg now r
  | .creditStop => .ok (a.sendCreditStop cfg now)
  | .senderRetransmit => a.handleSenderRetransmit cfg now
  | .receiverRetransmit => .ok (a.handleReceiverRetransmit cfg now)
  | .fct => .ok (a.handleFct cfg)

/-- `TimerHandler::handle`, which calls `expire` between two changes of the status. -/
def handle (r : Rand) (t : AgentTimer) (a : XPassAgent) :
    Except Exit (XPassAgent × List Effect) := do
  let h ← (a.timer t).beginHandle.mapError .timer
  let (a, out) ← (a.setTimer h t).expire cfg now r t
  pure (a.setTimer (a.timer t).endHandle t, out)

def react (a : XPassAgent) : Input → Except Exit (XPassAgent × List Effect)
  | .advanceBytes nb => a.advanceBytes cfg now nb
  | .recv p r => a.recv cfg now r p
  | .expire t r => a.handle cfg now r t

end XPassAgent

end Ns2XPass
