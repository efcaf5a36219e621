import Mathlib.Algebra.Order.Ring.Rat
import Ns2XPass.Dccp.Features
import Ns2XPass.Library.Machine

/-! # A DCCP agent

A `DCCPAgent` opens and closes connections, sends the packets of its buffer, and
answers those that it receives. The application is called in the middle of some
functions: what is left to do is a frame, and the application may call the agent
before it returns.
-/

namespace Ns2XPass

inductive DccpState
  | closed | listen | respond | request | open | closeReq | closing
  deriving DecidableEq, Repr

/-- `DCCPRetransmitTimer`. A timer that is being handled is not pending. -/
structure RetransmitTimer where
  pending : Bool := false
  backoffFailed : Bool := false
  delay : ℚ := 0
  totDelay : ℚ := 0
  maxTotDelay : ℚ := 0
  deriving DecidableEq

namespace RetransmitTimer

variable (t : RetransmitTimer)

def forceCancel : RetransmitTimer := { t with pending := false }

def init (delay maxTotDelay : ℚ) : RetransmitTimer :=
  { pending := false, backoffFailed := false, delay, totDelay := 0, maxTotDelay }

/-- Back off by a factor of two. The last delay reaches the greatest total. -/
def backOff : RetransmitTimer :=
  let t :=
    if t.totDelay = 0 then t
    else if t.totDelay + t.delay * 2 ≤ t.maxTotDelay then { t with delay := t.delay * 2 }
    else { t with delay := t.maxTotDelay - t.totDelay, backoffFailed := true }
  let t := { t with totDelay := t.totDelay + t.delay }
  if 0 < t.delay then { t with pending := true } else t

end RetransmitTimer

/-- The bound variables of an agent. -/
structure DccpConfig where
  initialRtxTo : ℚ
  maxRtxTo : ℚ
  sndDelay : ℚ
  sbSize : ℕ
  packetSize : ℤ
  ackRatio : ℤ

/-- `DCCP_FEAT_DEF_ACK_RATIO`. -/
def defAckRatio : ℤ := 2

structure DccpPacket where
  type : DccpPacketType
  seqNum : UInt32
  ackNum : UInt32
  error : Bool
  dataSize : ℤ

/-- What the options of a packet do: parsing may fail, with a Reset packet, and features may be
changed or confirmed. -/
structure ParsedOptions where
  ok : Bool
  sendsReset : Bool
  confirms : Bool
  ackRatio : Option ℤ

inductive DccpAbort
  | timerRunning
  | sndDelay
  deriving DecidableEq

/-- What is left to do when the application returns: of `output` behind `idle`, and of `recv` behind
`recvBytes` and `idle`. -/
inductive DccpFrame
  | outputIdle
  | recvBytes (tellApp : Bool)
  | recvIdle
  deriving DecidableEq

/-- The packets that have been sent are listed by type. `outputWanted` is `output_`. -/
structure DccpAgent where
  state : DccpState := .closed
  server : Bool := false
  packetSent : Bool := false
  packetRecv : Bool := false
  closeOnEmpty : Bool := false
  infiniteSend : Bool := false
  connEst : Bool := false
  sendAck : Bool := false
  outputWanted : Bool := false
  outputFlag : Bool := false
  sb : List ℤ := []
  seqNum : UInt32 := 0
  seqNumRecv : UInt32 := 0
  ackNumRecv : UInt32 := 0
  ackNum : UInt32 := 0
  arUnacked : ℤ := 0
  ackRatioLocal : ℤ
  timerRtx : RetransmitTimer := {}
  timerSnd : Bool := false
  frames : List DccpFrame := []
  sent : List DccpPacketType := []
  abort : Option DccpAbort := none

namespace DccpAgent

variable (cfg : DccpConfig) (s : DccpAgent)

def new : DccpAgent := { ackRatioLocal := cfg.ackRatio }

def cancelTimers : DccpAgent :=
  { s with timerSnd := false, timerRtx := s.timerRtx.forceCancel }

def changeState (newState : DccpState) : DccpAgent :=
  let s := { s with state := newState }
  match newState with
  | .respond => { s with timerRtx := { s.timerRtx.forceCancel with pending := true } }
  | .open => { s with timerRtx := s.timerRtx.forceCancel }
  | .request | .closeReq | .closing =>
    let s := s.cancelTimers
    { s with timerRtx := .init cfg.initialRtxTo cfg.maxRtxTo }
  | .closed | .listen => s

def reset : DccpAgent :=
  let s := s.cancelTimers
  let s := if s.server then s.changeState cfg .listen else s
  let s := if s.state ≠ .listen ∧ s.state ≠ .closed then s.changeState cfg .closed else s
  { s with
    server := false
    packetSent := false
    packetRecv := false
    closeOnEmpty := false
    infiniteSend := false
    connEst := false
    sendAck := false
    outputWanted := false
    outputFlag := false
    sb := []
    seqNum := 0
    seqNumRecv := 0
    ackNumRecv := 0
    ackNum := 0
    arUnacked := 0
    ackRatioLocal := defAckRatio }

/-- `sendReset`, which numbers the packet only in a connection. -/
def sendReset : DccpAgent :=
  let s := if s.state ≠ .closed ∧ s.state ≠ .listen then { s with seqNum := s.seqNum + 1 } else s
  { s with sent := s.sent ++ [.reset] }

def send_askPermToSend (dataSize : ℤ) : Bool := dataSize = 0 || !s.timerSnd

def send_packetSent : DccpAgent :=
  if 0 < cfg.sndDelay then { s with timerSnd := true } else { s with abort := some .sndDelay }

/-- The end of `output`: the packet is sent, and the result tells whether to go on. -/
def sendPacket (type : DccpPacketType) (tellCc tellApp : Bool) : DccpAgent × Bool :=
  let moreToSend := s.state = .open && (s.infiniteSend || !s.sb.isEmpty)
  let s := { s with seqNum := s.seqNum + 1 }
  let s := if tellCc then s.send_packetSent cfg else s
  let s := { s with sent := s.sent ++ [type] }
  if tellApp then ({ s with frames := .outputIdle :: s.frames }, false) else (s, moreToSend)

/-- A packet of the size is sent in an open connection. -/
def sendOpen (type : DccpPacketType) (dataSize : ℤ) : DccpAgent × Bool :=
  let removes := 0 < dataSize && !s.infiniteSend
  let s := if removes then { s with sb := s.sb.tail } else s
  { s with sendAck := false }.sendPacket cfg type true (removes && s.sb.isEmpty)

/-- `output` in an open connection. -/
def outputOpen (tryPureAck : Bool) : DccpAgent × Bool :=
  if !s.connEst then { s with sendAck := false, connEst := true }.sendPacket cfg .ack false false
  else
    let dataSize :=
      if s.infiniteSend then cfg.packetSize else s.sb.headD 0
    if !s.sendAck && dataSize = 0 then (s, false)
    else
      let type := if 0 < dataSize && s.sendAck then .dataAck else if s.sendAck then .ack else .data
      if s.send_askPermToSend dataSize then s.sendOpen cfg type dataSize
      else if tryPureAck && 0 < dataSize && s.sendAck then
        if s.send_askPermToSend 0 then s.sendOpen cfg .ack 0 else (s, false)
      else (s, false)

/-- One packet of `output`. The type of a new header is that of a Request. -/
def outputOnce (tryPureAck : Bool) : DccpAgent × Bool :=
  match s.state with
  | .request =>
    { s with packetSent := true, timerRtx := s.timerRtx.backOff }.sendPacket cfg .request false false
  | .respond => { s with packetSent := true }.sendPacket cfg .response false false
  | .open => s.outputOpen cfg tryPureAck
  | .closeReq => { s with timerRtx := s.timerRtx.backOff }.sendPacket cfg .closeReq false false
  | .closing => { s with timerRtx := s.timerRtx.backOff }.sendPacket cfg .close false false
  | .closed | .listen => s.sendPacket cfg .request false false

/-- The loop of `output`. -/
def outputFrom (tryPureAck : Bool) : ℕ → DccpAgent → DccpAgent
  | 0, s => s
  | n + 1, s =>
    match s.outputOnce cfg tryPureAck with
    | (s, again) => if again && s.abort.isNone then outputFrom tryPureAck n s else s

/-- At most three packets are sent: one that completes the handshake, one before the send timer
runs, and one after that is refused. -/
def outputSteps : ℕ := 4

def output (tryPureAck : Bool) : DccpAgent := outputFrom cfg tryPureAck outputSteps s

/-! ### Calls of the application -/

def listen : DccpAgent :=
  if s.state = .closed then { s with server := true }.changeState cfg .listen else s

def close : DccpAgent :=
  match s.state with
  | .respond => (s.changeState cfg .closeReq).output cfg false
  | .request => s.sendReset.reset cfg
  | .open =>
    if s.server then (s.changeState cfg .closeReq).output cfg false
    else (s.changeState cfg .closing).output cfg false
  | .listen => (s.reset cfg).changeState cfg .closed
  | .closed | .closeReq | .closing => s

/-- The capacity of the send buffer. -/
def capacity : ℕ := max cfg.sbSize 1

def connected (state : DccpState) : Bool :=
  state = .closed || state = .respond || state = .request || state = .open

/-- A connection is opened, or data are sent. -/
def sendData : DccpAgent :=
  if s.state = .closed then (s.changeState cfg .request).output cfg false
  else if s.state = .open then s.output cfg false
  else s

def sendmsg (nbytes : ℤ) (eof : Bool) : DccpAgent :=
  if s.infiniteSend || !connected s.state || nbytes = 0 then s
  else
    let s :=
      if 0 < nbytes then
        if s.sb.length < capacity cfg then { s with sb := s.sb ++ [nbytes] } else s
      else { s with infiniteSend := true }
    let s := if eof then { s with closeOnEmpty := true } else s
    s.sendData cfg

def advanceby (delta : ℤ) : DccpAgent :=
  if delta ≤ 0 || s.infiniteSend || !connected s.state then s
  else
    let added := min delta.toNat (capacity cfg - s.sb.length)
    { s with sb := s.sb ++ List.replicate added cfg.packetSize }.sendData cfg

/-! ### Packets -/

/-- The packets that a state accepts. -/
def accepts (pkt : DccpPacket) : Bool :=
  let new := s.seqNumRecv < pkt.seqNum
  match s.state, pkt.type with
  | _, .reset => true
  | .closed, _ => false
  | .listen, type => type = .request
  | .respond, .close => true
  | .respond, type => new && (type = .request || type = .ack || type = .dataAck)
  | .open, .closeReq => !s.server
  | .open, type => type = .close || type = .ack || type = .data || type = .dataAck
  | .request, .response => pkt.ackNum = s.seqNum - 1
  | .request, type => type = .close
  | .closeReq, type => type = .close || type = .ack || type = .data || type = .dataAck
  | .closing, type => type = .closeReq || type = .ack || type = .data || type = .dataAck

def checkPacket (pkt : DccpPacket) : DccpAgent × Bool :=
  let ackRecv := pkt.type ≠ .data && pkt.type ≠ .request
  if pkt.error then (s, false)
  else if ackRecv && s.packetSent && s.seqNum ≤ pkt.ackNum then (s, false)
  else if ackRecv && !s.packetSent && !(pkt.type = .reset && pkt.ackNum = 0) then (s, false)
  else if s.accepts pkt then
    ({ s with
        seqNumRecv := if s.seqNumRecv < pkt.seqNum then pkt.seqNum else s.seqNumRecv
        ackNumRecv := if ackRecv && s.ackNumRecv < pkt.ackNum then pkt.ackNum else s.ackNumRecv },
      true)
  else (s, false)

def parseOptions (o : ParsedOptions) : DccpAgent :=
  let s := if o.confirms && s.state = .open then
      { s with sendAck := true, ackNum := s.seqNumRecv } else s
  let s := { s with ackRatioLocal := o.ackRatio.getD s.ackRatioLocal }
  if !o.ok && o.sendsReset then s.sendReset else s

/-- Data packets are acknowledged according to the ack ratio. -/
def recv_packetRecv (type : DccpPacketType) : DccpAgent :=
  if type = .data || type = .dataAck then
    if s.ackRatioLocal ≤ s.arUnacked + 1 then
      { s with
        arUnacked := 0
        sendAck := true
        ackNum := s.seqNumRecv
        outputWanted := true
        outputFlag := true }
    else { s with arUnacked := s.arUnacked + 1 }
  else s

/-- The end of `recv`. -/
def finishRecv : DccpAgent := if s.outputWanted then s.output cfg s.outputFlag else s

/-- `recv` from the label `data` on. -/
def deliver (tellCc : Bool) (type : DccpPacketType) (dataSize : ℤ) (tellApp : Bool) : DccpAgent :=
  let s := if tellCc then s.recv_packetRecv type else s
  if 0 < dataSize then { s with frames := .recvBytes tellApp :: s.frames }
  else if tellApp then { s with frames := .recvIdle :: s.frames }
  else s.finishRecv cfg

def wantOutput : DccpAgent := { s with outputWanted := true }

/-- The switch of `recv` on the state. -/
def react (pkt : DccpPacket) : DccpAgent :=
  let dataOrAck := pkt.type = .data || pkt.type = .dataAck || pkt.type = .ack
  let dataSize := if pkt.type = .data || pkt.type = .dataAck then pkt.dataSize else 0
  match s.state with
  | .closed => s
  | .listen =>
    if pkt.type = .request then
      (({ s with packetRecv := true }.changeState cfg .respond).wantOutput).finishRecv cfg
    else s
  | .respond =>
    if pkt.type = .request then s.wantOutput.finishRecv cfg
    else if pkt.type = .close then s.sendReset.reset cfg
    else if (pkt.type = .ack || pkt.type = .dataAck) && pkt.ackNum = s.seqNum - 1 then
      let tellApp := !s.infiniteSend && s.sb.isEmpty
      let type := if 0 < dataSize then .data else pkt.type
      ({ s with connEst := true }.changeState cfg .open).deliver cfg (0 < dataSize) type dataSize
        tellApp
    else s
  | .open =>
    if pkt.type = .close then s.sendReset.reset cfg
    else if pkt.type = .closeReq then ((s.changeState cfg .closing).wantOutput).finishRecv cfg
    else if dataOrAck then s.deliver cfg true pkt.type dataSize false
    else s
  | .request =>
    if pkt.type = .response then
      let s := { s with packetRecv := true }.changeState cfg .open
      ({ s with sendAck := true, ackNum := s.seqNumRecv }.wantOutput).finishRecv cfg
    else if pkt.type = .close then s.sendReset.reset cfg
    else s
  | .closeReq =>
    if pkt.type = .close then s.sendReset.reset cfg
    else if dataOrAck then s.deliver cfg false pkt.type dataSize false
    else s
  | .closing =>
    if pkt.type = .closeReq then ((s.changeState cfg .closing).wantOutput).finishRecv cfg
    else if dataOrAck then s.deliver cfg false pkt.type dataSize false
    else s

/-- Options are not parsed on closing packets. -/
def parses (pkt : DccpPacket) : Bool := pkt.type ≠ .close && pkt.type ≠ .closeReq

def recv (pkt : DccpPacket) (o : ParsedOptions) : DccpAgent :=
  let s := { s with outputWanted := false, outputFlag := false }
  match s.checkPacket pkt with
  | (s, false) => s
  | (s, true) =>
    if pkt.type = .reset then s.reset cfg
    else if parses pkt then
      let s := s.parseOptions o
      if o.ok then s.react cfg pkt else s.reset cfg
    else s.react cfg pkt

/-! ### Timers -/

/-- A retransmission, unless the last back-off has been used. -/
def retry : DccpAgent :=
  if s.timerRtx.backoffFailed then s.sendReset.reset cfg else s.output cfg false

def timeoutRtx : DccpAgent :=
  let s := { s with timerRtx := s.timerRtx.forceCancel }
  match s.state with
  | .respond => s.sendReset.reset cfg
  | .request | .closeReq => s.retry cfg
  | .closing => if s.timerRtx.backoffFailed then s.reset cfg else s.output cfg false
  | .closed | .listen | .open => { s with abort := some .timerRunning }

def timeoutSnd : DccpAgent :=
  let s := { s with timerSnd := false }
  match s.state with
  | .open => s.output cfg false
  | _ => { s with abort := some .timerRunning }

/-- The application returns from the last call. -/
def callbackReturns : DccpAgent :=
  match s.frames with
  | [] => s
  | .outputIdle :: frames =>
    let s := { s with frames := frames }
    if s.closeOnEmpty then s.close cfg else s
  | .recvBytes tellApp :: frames =>
    if tellApp then { s with frames := .recvIdle :: frames }
    else { s with frames := frames }.finishRecv cfg
  | .recvIdle :: frames => { s with frames := frames }.finishRecv cfg

end DccpAgent

inductive DccpEvent
  | listen
  | sendmsg (nbytes : ℤ) (eof : Bool)
  | advanceby (delta : ℤ)
  | close
  | recv (pkt : DccpPacket) (o : ParsedOptions)
  | timeoutRtx
  | timeoutSnd
  | callbackReturns

/-- The application may call at any time. Packets and timers wait until it has returned. -/
def dccpMachine (cfg : DccpConfig) : Machine DccpAgent DccpEvent Empty where
  Init s := s = .new cfg
  Enabled s x := s.abort = none ∧
    match x with
    | .listen | .sendmsg _ _ | .advanceby _ | .close => True
    | .recv _ _ => s.frames = []
    | .timeoutRtx => s.frames = [] ∧ s.timerRtx.pending = true
    | .timeoutSnd => s.frames = [] ∧ s.timerSnd = true
    | .callbackReturns => s.frames ≠ []
  step s x := .ok <| match x with
    | .listen => s.listen cfg
    | .sendmsg nbytes eof => s.sendmsg cfg nbytes eof
    | .advanceby delta => s.advanceby cfg delta
    | .close => s.close cfg
    | .recv pkt o => s.recv cfg pkt o
    | .timeoutRtx => s.timeoutRtx cfg
    | .timeoutSnd => s.timeoutSnd cfg
    | .callbackReturns => s.callbackReturns cfg

end Ns2XPass
