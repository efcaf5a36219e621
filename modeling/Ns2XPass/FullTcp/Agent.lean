import Mathlib.Algebra.GroupWithZero.Nat
import Ns2XPass.Common.Numeric
import Ns2XPass.Reassembly.Basic

/-! # Agents of two-way TCP

A `FullTcpAgent` sends and receives a byte stream. Sequence numbers are integers
of 64 bits, while some variables and intermediate results are of type `int`.
The window grows and shrinks by the standard algorithm (`wnd_option_` is 1), and
ECN and timestamps are off. Of the timers only whether they are pending is kept.
-/

namespace Ns2XPass

inductive TcpState
  | closed
  | listen
  | synSent
  | synReceived
  | established
  | closeWait
  | finWait1
  | closing
  | lastAck
  | finWait2
  deriving DecidableEq

/-- `last_cwnd_action_`. -/
inductive CwndAction
  | none
  | dupack
  | timeout
  | ecn
  deriving DecidableEq

inductive Reason
  | normal
  | timeout
  | dupack
  deriving DecidableEq

namespace TcpFlag

def fin : TcpFlag := 0x01

def syn : TcpFlag := 0x02

def push : TcpFlag := 0x08

def ack : TcpFlag := 0x10

/-- Whether a flag is set. -/
def has (flags flag : TcpFlag) : Bool := flags &&& flag ≠ 0

end TcpFlag

/-- What an agent does apart from changing its variables. -/
inductive TcpEvent
  | recvBytes (nbytes : ℤ)
  | sendpacket (seqno ackno : ℤ) (flags : TcpFlag) (datalen : ℤ) (reason : Reason)
  | fastRetx (seqno : ℤ)
  | idle
  | doneData
  deriving DecidableEq

structure FullTcpConfig where
  iss : ℤ
  headersize : ℤ
  segsPerAck : ℤ
  spaThresh : ℤ
  maxburst : ℤ
  tcprexmtthresh : ℤ
  nodelay : Bool
  dataOnSyn : Bool
  closeOnEmpty : Bool
  renoFastrecov : Bool
  dupsegFix : Bool
  dupackReset : Bool
  halfclose : Bool
  openCwndOnPack : Bool
  delayGrowth : Bool
  slowStartRestart : Bool
  bugFix : Bool
  precisionReduce : Bool
  decreaseNum : ℚ
  increaseNum : ℚ
  maxSsthresh : ℤ
  maxcwnd : ℤ
  wnd : ℚ
  wndInit : ℚ
  wndRestart : ℚ
  /-- `overhead_` is not zero, so that sending may be delayed. -/
  overhead : Bool

/-- The defaults, with a sequence of bytes that starts from zero. -/
def FullTcpConfig.defaults : FullTcpConfig where
  iss := 0
  headersize := 40
  segsPerAck := 1
  spaThresh := 0
  maxburst := 0
  tcprexmtthresh := 3
  nodelay := false
  dataOnSyn := false
  closeOnEmpty := false
  renoFastrecov := true
  dupsegFix := true
  dupackReset := false
  halfclose := false
  openCwndOnPack := true
  delayGrowth := true
  slowStartRestart := true
  bugFix := true
  precisionReduce := true
  decreaseNum := 1 / 2
  increaseNum := 1
  maxSsthresh := 0
  maxcwnd := 0
  wnd := 20
  wndInit := 2
  wndRestart := 1
  overhead := false

/-- The flags of `flags_`. -/
structure FullTcpFlags where
  acknow : Bool
  delack : Bool
  needfin : Bool
  needclose : Bool
  deriving DecidableEq

structure FullTcp where
  state : TcpState
  flags : FullTcpFlags
  highestAck : ℤ
  tSeqno : ℤ
  maxseq : ℤ
  curseq : ℤ
  recover : ℤ
  irs : ℤ
  lastAckSent : ℤ
  dupacks : ℤ
  fastrecov : Bool
  pipe : ℤ
  pipectrl : Bool
  rtxbytes : ℤ
  maxseg : ℤ
  size : ℤ
  cwnd : ℚ
  ssthresh : ℤ
  firstDecrease : Bool
  lastCwndAction : CwndAction
  infiniteSend : Bool
  signalOnEmpty : Bool
  rtxPending : Bool
  delsndPending : Bool
  /-- Enough time has elapsed since data was sent for a restart (`idle_restart`). -/
  idle : Bool
  rq : ReassemblyQueue
  events : List TcpEvent

namespace FullTcp

/-- A connection that has just been established: a SYN has been sent and received. -/
def opened (cfg : FullTcpConfig) (irs maxseg : ℤ) : FullTcp where
  state := .established
  flags := ⟨false, false, false, false⟩
  highestAck := cfg.iss + 1
  tSeqno := cfg.iss + 1
  maxseq := cfg.iss + 1
  curseq := cfg.iss
  recover := 0
  irs := irs
  lastAckSent := wrap32 (irs + 1)
  dupacks := 0
  fastrecov := false
  pipe := 0
  pipectrl := false
  rtxbytes := 0
  maxseg := maxseg
  size := maxseg + cfg.headersize
  cwnd := cfg.wndInit
  ssthresh := toInt cfg.wnd
  firstDecrease := true
  lastCwndAction := .none
  infiniteSend := false
  signalOnEmpty := false
  rtxPending := false
  delsndPending := false
  idle := false
  rq :=
    { fifo := ⟨fun _ => none, fun _ => none, none, none⟩
      lifo := ⟨fun _ => none, fun _ => none, none, none⟩
      startseq := fun _ => 0
      endseq := fun _ => 0
      pflags := fun _ => 0
      rqflags := fun _ => 0
      cnt := fun _ => 0
      freelist := none
      brk := 0
      hint := none
      total := 0
      rcvNxt := irs + 1 }
  events := []

variable (cfg : FullTcpConfig) (s : FullTcp)

/-- `rcv_nxt_`, to which the reassembly queue refers. -/
def rcvNxt : ℤ := s.rq.rcvNxt

def emit (e : TcpEvent) : FullTcp := { s with events := e :: s.events }

/-- The flags that depend on the state only. -/
def outflags : TcpFlag :=
  match s.state with
  | .listen => 0
  | .synSent => .syn
  | .synReceived => .syn ||| .ack
  | .closed | .established | .closeWait | .finWait2 => .ack
  | .finWait1 | .closing | .lastAck => .fin ||| .ack

/-! ## Windows -/

def window : ℤ := if s.cwnd < cfg.wnd then toInt s.cwnd else toInt cfg.wnd

def windowd : ℚ := if s.cwnd < cfg.wnd then s.cwnd else cfg.wnd

inductive CloseCwnd
  | half
  | restart
  | init
  | one
  deriving DecidableEq

/-- The window after it has been halved, and after a decrease by `decrease_num_`. -/
def decreased : ℚ × ℚ :=
  if cfg.precisionReduce then (s.windowd cfg / 2, cfg.decreaseNum * s.windowd cfg)
  else ((s.window cfg).tdiv 2, toInt (cfg.decreaseNum * s.window cfg))

def slowdown (ssthreshHalf : Bool) (how : CloseCwnd) : FullTcp :=
  let slowstart : Bool := s.cwnd < s.ssthresh
  let (halfwin, decreasewin) := s.decreased cfg
  let ssthresh :=
    if ssthreshHalf then
      if s.firstDecrease ∨ slowstart ∨ s.lastCwndAction = .timeout then toInt halfwin
      else toInt decreasewin
    else s.ssthresh
  let cwnd : ℚ :=
    match how with
    | .half =>
      if s.firstDecrease ∨ slowstart ∨ cfg.decreaseNum = 1 / 2 then halfwin else decreasewin
    | .restart => toInt cfg.wndRestart
    | .init => toInt cfg.wndInit
    | .one => 1
  { s with
    ssthresh := max ssthresh 2
    cwnd := cwnd
    firstDecrease := false }

def limitedSlowStart (cwnd : ℚ) (maxSsthresh : ℤ) (increment : ℚ) : ℚ :=
  if maxSsthresh ≤ 0 then increment
  else
    let round := toInt (cwnd / (maxSsthresh / 2))
    max increment (if 0 < round then 1 / round else 0)

def opencwnd : FullTcp :=
  let cwnd :=
    if s.cwnd < s.ssthresh then s.cwnd + 1
    else
      let increment := cfg.increaseNum / s.cwnd
      if (s.lastCwndAction = .none ∨ s.lastCwndAction = .timeout) ∧ 0 < cfg.maxSsthresh then
        s.cwnd + limitedSlowStart s.cwnd cfg.maxSsthresh increment
      else s.cwnd + increment
  { s with cwnd := if cfg.maxcwnd ≠ 0 ∧ cfg.maxcwnd < toInt cwnd then cfg.maxcwnd else cwnd }

/-! ## Acknowledgments and timeouts -/

/-- Whether an ACK or a window update should be sent now. -/
def needSend : Bool :=
  if s.flags.acknow then true
  else
    let spa := if 0 < cfg.spaThresh ∧ s.rcvNxt - s.irs < cfg.spaThresh then 1 else cfg.segsPerAck
    wrap32 (spa * s.maxseg) ≤ s.rcvNxt - s.lastAckSent

/-- A sequence number may be sent if it is in the window. -/
def sendAllowed (seq : ℤ) : Bool :=
  let win := wrap32 (s.window cfg * s.maxseg)
  let topwin :=
    if s.highestAck + win < s.curseq ∨ s.infiniteSend then s.highestAck + win else s.curseq
  seq < topwin

def setRtxTimer : FullTcp := { s with rtxPending := true }

def cancelRtxTimer : FullTcp := { s with rtxPending := false }

def timeoutAction : FullTcp :=
  let s := { s with recover := s.maxseq }
  let s := if s.cwnd < 1 then { s with cwnd := 1 } else s
  let s :=
    if s.lastCwndAction = .ecn then s.slowdown cfg false .one
    else { s.slowdown cfg true .restart with lastCwndAction := .timeout }
  { s.setRtxTimer with
    tSeqno := if s.highestAck < 0 then cfg.iss else wrap32 s.highestAck
    fastrecov := false
    dupacks := 0 }

end FullTcp

end Ns2XPass
