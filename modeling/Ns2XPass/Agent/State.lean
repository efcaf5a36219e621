import Mathlib.Data.Rat.Floor
import Ns2XPass.Common.Numeric
import Ns2XPass.Common.Packet
import Ns2XPass.Common.TimerHandler

/-! # The state of an XPass agent

One agent holds a sender role (the `recv` states: it receives credits and sends
data) and a receiver role (the `send` states: it sends credits and receives
data). The packets it builds are functions of this state.
-/

namespace Ns2XPass

/-- `XPASS_SEND_STATE`: how an agent as receiver of data sends credits. -/
inductive SendState | closed | closeWait | creditSending | creditStopReceived
  deriving DecidableEq, Repr

/-- `XPASS_RECV_STATE`: how an agent as sender of data receives credits. -/
inductive RecvState | closed | closeWait | creditRequestSent | creditReceiving | creditStopSent
  deriving DecidableEq, Repr

/-- The bound variables of an agent, with the defaults of `ns-default.tcl`. -/
structure Config where
  fid : ℤ := 0
  minEthernetSize : ℤ := 84
  maxEthernetSize : ℤ := 1538
  minCreditSize : ℤ := 84
  maxCreditSize : ℤ := 84
  xpassHdrSize : ℤ := 78
  maxCreditRate : ℤ := 64734895
  alpha : ℚ := 1 / 2
  targetLossScaling : ℚ := 1 / 8
  wInit : ℚ := 1 / 2
  minW : ℚ := 1 / 100
  minJitter : ℚ := -1 / 10
  maxJitter : ℚ := 1 / 10
  retransmitTimeout : ℚ := 1 / 10
  defaultCreditStopTimeout : ℚ := 1 / 500

def Config.maxSegment (cfg : Config) : ℤ := cfg.maxEthernetSize - cfg.xpassHdrSize

def Config.avgCreditSize (cfg : Config) : ℚ := ((cfg.minCreditSize + cfg.maxCreditSize : ℤ) : ℚ) / 2

/-- The members the constructor sets have its values as defaults; it leaves the
last four unset. -/
structure XPassAgent where
  creditSendState : SendState := .closed
  creditRecvState : RecvState := .closed
  lastCreditRateUpdate : ℚ := 0
  creditTotal : ℤ := 0
  creditDropped : ℤ := 0
  canIncreaseW : Bool := false
  sendCreditTimer : TimerHandler := {}
  creditStopTimer : TimerHandler := {}
  senderRetransmitTimer : TimerHandler := {}
  receiverRetransmitTimer : TimerHandler := {}
  fctTimer : TimerHandler := {}
  curseq : ℤ := 1
  tSeqno : ℤ := 1
  recvNext : ℤ := 1
  cSeqno : ℤ := 1
  cRecvNext : ℤ := 1
  rtt : ℚ := 0
  creditRecved : ℤ := 0
  waitRetransmission : Bool := false
  creditWasted : ℤ := 0
  creditRecvedRtt : ℤ := 0
  lastCreditRecvUpdate : ℚ := 0
  curCreditRate : ℤ
  w : ℚ
  fst : ℚ
  fct : ℚ
  deriving DecidableEq

instance : Inhabited XPassAgent := ⟨{ curCreditRate := 0, w := 0, fst := 0, fct := 0 }⟩

/-- The calls of `exit` and `abort` an agent can reach. -/
inductive Exit
  | timer (a : TimerHandler.Abort)
  | creditStopTimerScheduledTwice
  | creditSequenceReverted
  | senderRetransmitWhileClosed
  | creditSizes
  | dataLength
  | jitterBounds
  | negativeLength
  deriving DecidableEq

/-- What an agent does beside changing its state: `send`, and the lines it
appends to `outputs/fct.out` and `outputs/waste.out`. -/
inductive Effect
  | send (p : Packet)
  | fctOut (fid bytes : ℤ) (fct : ℚ)
  | wasteOut (fid bytes wasted : ℤ)
  deriving DecidableEq

def RAND_MAX : ℕ := 2147483647

/-- The values of the calls of `rand` in `construct_credit` and `send_credit`. -/
structure Rand where
  credit : Fin (RAND_MAX + 1)
  jitter : Fin (RAND_MAX + 1)

instance : Inhabited Rand := ⟨⟨0, 0⟩⟩

namespace XPassAgent

/-- A new agent: the members that the constructor leaves unset have any value. -/
def IsNew (a : XPassAgent) : Prop :=
  a = { curCreditRate := a.curCreditRate, w := a.w, fst := a.fst, fct := a.fct }

variable (cfg : Config) (now : ℚ) (a : XPassAgent)

def datalenRemaining : ℤ := a.curseq - a.tSeqno

def pktRemaining : ℤ := ⌈(a.datalenRemaining : ℚ) / cfg.maxSegment⌉

def creditRequestPacket : Packet where
  ptype := .xpassCreditRequest
  size := cfg.minEthernetSize
  seqno := a.tSeqno
  ackno := a.recvNext
  hlen := cfg.xpassHdrSize
  creditSeq := 0
  creditSentTime := now
  sendbuffer := a.pktRemaining cfg

/-- Building a CREDIT_REQUEST stores the clock in `rtt`. -/
def constructCreditRequest : Packet × XPassAgent :=
  (a.creditRequestPacket cfg now, { a with rtt := now })

def constructCreditStop : Packet where
  ptype := .xpassCreditStop
  size := cfg.minEthernetSize
  seqno := a.tSeqno
  ackno := a.recvNext
  hlen := cfg.xpassHdrSize
  creditSeq := 0

def creditPacket (creditSize : ℤ) : Packet where
  ptype := .xpassCredit
  size := creditSize
  seqno := a.tSeqno
  ackno := a.recvNext
  hlen := creditSize
  creditSentTime := now
  creditSeq := a.cSeqno

/-- The size of the next CREDIT: between the two bounds, at random if they differ. -/
def creditSize (r : Rand) : Except Exit ℤ :=
  if cfg.minCreditSize < cfg.maxCreditSize then
    .ok (cfg.minCreditSize + r.credit.val % (cfg.maxCreditSize - cfg.minCreditSize + 1))
  else if cfg.minCreditSize ≠ cfg.maxCreditSize then .error .creditSizes
  else .ok cfg.minCreditSize

def constructCredit (r : Rand) : Except Exit (Packet × XPassAgent) := do
  let size ← creditSize cfg r
  pure (a.creditPacket now size, { a with cSeqno := max 1 (a.cSeqno + 1) })

/-- The payload length of the next DATA packet. -/
def datalen : ℤ := min cfg.maxSegment a.datalenRemaining

def dataPacket (credit : Packet) : Packet where
  ptype := .xpassData
  size := max cfg.minEthernetSize (cfg.xpassHdrSize + a.datalen cfg)
  seqno := a.tSeqno
  ackno := a.recvNext
  hlen := cfg.xpassHdrSize
  creditSentTime := credit.creditSentTime
  creditSeq := credit.creditSeq

def constructData (credit : Packet) : Except Exit (Packet × XPassAgent) :=
  if a.datalen cfg ≤ 0 then .error .dataLength
  else .ok (a.dataPacket cfg credit, { a with tSeqno := a.tSeqno + a.datalen cfg })

def constructNack (seqNo : ℤ) : Packet where
  ptype := .xpassNack
  size := cfg.minEthernetSize
  ackno := seqNo
  hlen := cfg.xpassHdrSize

end XPassAgent

end Ns2XPass
