import Ns2XPass.FullTcp.Output

/-! # The input of an agent

A segment that arrives in the state ESTABLISHED or CLOSE_WAIT is either handled by
header prediction or goes the slow path: it is trimmed, its acknowledgment is
processed, and then its data and its FIN.
-/

namespace Ns2XPass

/-- What a received packet holds. The number of its data bytes is its size without the headers. -/
structure TcpSegment where
  seqno : ℤ
  ackno : ℤ
  flags : TcpFlag
  length : ℤ
  saLength : ℕ

/-- The ways that `recv` fails: a call of the reassembly queue does, or `reass` aborts. -/
inductive FullTcpError
  | reassembly (e : RqError)
  | zeroLength
  deriving DecidableEq

namespace FullTcp

variable (cfg : FullTcpConfig) (s : FullTcp) (p : TcpSegment)

def recvBytes (nbytes : ℤ) : FullTcp := s.emit (.recvBytes (wrap32 nbytes))

def setAcknow : FullTcp := { s with flags := { s.flags with acknow := true } }

def setDelack : FullTcp := { s with flags := { s.flags with delack := true } }

def setRcvNxt (rcvNxt : ℤ) : FullTcp := { s with rq := { s.rq with rcvNxt := rcvNxt } }

/-! ## Acknowledgments -/

/-- `newack`, without the estimate of the round-trip time. -/
def newack (ackno : ℤ) : FullTcp :=
  let s :=
    if ackno = s.maxseq then s.cancelRtxTimer
    else if s.highestAck < ackno then s.setRtxTimer
    else s
  let s := if s.highestAck < ackno then { s with highestAck := ackno } else s
  if s.tSeqno < s.highestAck then { s with tSeqno := s.highestAck } else s

/-- Whether an ACK is a partial one. -/
def pack (ackno : ℤ) : Bool := s.fastrecov ∧ s.highestAck ≤ ackno ∧ ackno < s.recover

/-- The action on a partial ACK and, in the base class, on every other one. -/
def packAction : FullTcp :=
  { s with
    cwnd := if cfg.renoFastrecov ∧ s.fastrecov ∧ s.ssthresh < s.cwnd then s.ssthresh else s.cwnd
    fastrecov := false
    dupacks := 0 }

def fastRetransmit (seq : ℤ) : FullTcp :=
  let s := s.emit (.fastRetx seq)
  ({ s with recover := s.maxseq, lastCwndAction := .dupack }.foutput cfg seq .dupack).1

def dupackAction : FullTcp :=
  let recovered : Bool := s.recover < s.highestAck
  let s := { s with fastrecov := true, rtxbytes := 0 }
  if recovered ∨ ¬ cfg.bugFix ∨ s.lastCwndAction = .dupack ∨ s.highestAck = 0 then
    let s := (s.slowdown cfg true .half).cancelRtxTimer
    let s := { s with recover := s.maxseq }.fastRetransmit cfg s.highestAck
    { s with cwnd := s.ssthresh + s.dupacks }
  else s

def extraAck : FullTcp := { s with cwnd := if cfg.renoFastrecov then s.cwnd + 1 else s.cwnd }

/-- What is left to do after the acknowledgment: the segment is dropped, or its data is processed
and then some output may be needed. -/
inductive Acked
  | drop (s : FullTcp)
  | step6 (s : FullTcp) (needoutput : Bool)

/-- An ACK that is not new. -/
def oldAck (ackno datalen : ℤ) (dupseg : Bool) : Acked :=
  if datalen = 0 ∧ (¬ cfg.dupsegFix ∨ ¬ dupseg) then
    if ¬ s.rtxPending ∨ ackno < s.highestAck then .step6 { s with dupacks := 0 } false
    else
      let s := { s with dupacks := wrap32 (s.dupacks + 1) }
      if s.dupacks = cfg.tcprexmtthresh then .drop (s.dupackAction cfg)
      else if cfg.tcprexmtthresh < s.dupacks then
        .drop ((s.extraAck cfg).sendMuch cfg false .dupack cfg.maxburst)
      else .step6 s false
  else if cfg.dupackReset then .step6 { s with dupacks := 0, fastrecov := false } false
  else .step6 s false

/-- An ACK that acknowledges something. -/
def processAck (ackno : ℤ) : Acked :=
  if s.maxseq < ackno then .drop (s.setAcknow.sendMuch cfg true .normal cfg.maxburst)
  else
    let wasEstablished : Bool := s.state = .established
    let s := s.newack ackno
    let part := s.pack ackno
    let s := s.packAction cfg
    let opens : Bool :=
      ackno ≠ s.highestAck + 1 ∧ (¬ cfg.delayGrowth ∨ 0 < s.rcvNxt) ∧ wasEstablished ∧
        (¬ part ∨ cfg.openCwndOnPack)
    .step6 (if opens then s.opencwnd cfg else s) (ackno = s.maxseq)

def ackInput (ackno datalen : ℤ) (dupseg : Bool) : Acked :=
  let s :=
    if s.fastrecov ∧ (datalen = 0 ∨ s.highestAck < ackno) then
      { s with pipe := wrap32 (s.pipe - s.maxseg) }
    else s
  if ackno ≤ s.highestAck then s.oldAck cfg ackno datalen dupseg else s.processAck cfg ackno

/-! ## Data -/

/-- A segment without the data that has been received before. The size in its header counts a SYN,
while `datalen` does not. -/
structure Trimmed where
  seqno : ℤ
  length : ℤ
  datalen : ℤ
  tiflags : TcpFlag
  dupseg : Bool

def trim : FullTcp × Trimmed :=
  let todrop := wrap32 (s.rcvNxt - p.seqno)
  let syn := p.flags.has .syn
  if 0 < todrop ∧ (syn ∨ 0 < p.length) then
    let tiflags := if syn then p.flags &&& ~~~.syn else p.flags
    let seqno := if syn then p.seqno + 1 else p.seqno
    let length := if syn then p.length - 1 else p.length
    let todrop := if syn then todrop - 1 else todrop
    if p.length < todrop ∨ (todrop = p.length ∧ ¬ tiflags.has .fin) then
      (s.setAcknow,
        { seqno := seqno + p.length
          length := length - p.length
          datalen := 0
          tiflags := tiflags &&& ~~~.fin
          dupseg := true })
    else
      (s,
        { seqno := seqno + todrop
          length := length - todrop
          datalen := p.length - todrop
          tiflags := tiflags
          dupseg := false })
  else
    (s,
      { seqno := p.seqno
        length := p.length
        datalen := p.length
        tiflags := p.flags
        dupseg := false })

/-- Add a segment to the reassembly queue, and collect the flags of what is complete then. -/
def reass (t : Trimmed) : Except FullTcpError (FullTcp × TcpFlag) := do
  let fillshole : Bool := t.seqno = s.rcvNxt
  if t.length = 0 ∧ ¬ p.flags.has .fin then .error .zeroLength
  else
    let (rq, flags) ←
      (s.rq.add t.seqno (t.seqno + t.length) p.flags 0).mapError .reassembly
    if ¬ fillshole then return ({ s with rq := rq }, 0)
    else
      let (rq, cleared) ← rq.cleartonxt.mapError .reassembly
      return ({ s with rq := rq }, flags ||| cleared)

/-- The data of a segment. The results are the flags that are received with it, and whether some
output is needed. -/
def dataInput (t : Trimmed) (needoutput : Bool) :
    Except FullTcpError (FullTcp × TcpFlag × Bool) := do
  if (0 < t.datalen ∨ t.tiflags.has .fin) ∧ s.state ≠ .closeWait then
    if t.seqno = s.rcvNxt ∧ s.rq.empty then
      let s := s.setDelack.setRcvNxt (s.rcvNxt + t.datalen)
      let s := if t.datalen ≠ 0 then s.recvBytes t.datalen else s
      return (s, p.flags &&& .fin, s.needSend cfg)
    else
      let rcvNxtOld := wrap32 s.rcvNxt
      let (s, tiflags) ← s.reass p t
      let s := if rcvNxtOld < s.rcvNxt then s.recvBytes (s.rcvNxt - rcvNxtOld) else s
      let s := s.setAcknow
      return (s, tiflags, if tiflags.has .push then s.needSend cfg else needoutput)
  else return (s, t.tiflags &&& ~~~.fin, needoutput)

/-- A FIN has been received. -/
def finInput (tiflags : TcpFlag) : FullTcp :=
  if tiflags.has .fin then
    let s := s.setAcknow.setRcvNxt (s.rcvNxt + 1)
    if s.state = .established then { s with state := .closeWait } else s
  else s

def usrclosed : FullTcp :=
  { s with
    curseq := s.maxseq - 1
    infiniteSend := false
    state := .lastAck
    flags := { s.flags with needfin := true } }.sendMuch cfg true .normal cfg.maxburst

def finalOutput (needoutput : Bool) : FullTcp :=
  let s :=
    if needoutput ∨ s.flags.acknow then s.sendMuch cfg true .normal cfg.maxburst
    else if s.highestAck ≤ s.curseq ∨ s.infiniteSend then s.sendMuch cfg false .normal cfg.maxburst
    else s
  if ¬ cfg.halfclose ∧ s.state = .closeWait ∧ s.highestAck = s.maxseq then s.usrclosed cfg else s

/-! ## Both paths -/

def predictOk : Bool :=
  s.state = .established ∧ p.flags.has .ack ∧ ¬ p.flags.has .syn ∧ ¬ p.flags.has .fin ∧
    ¬ s.flags.needfin ∧ p.seqno = s.rcvNxt ∧ s.tSeqno = s.maxseq ∧ p.saLength = 0

/-- Header prediction takes a pure ACK that is new. -/
def predictsAck : Bool :=
  s.predictOk p ∧ p.length = 0 ∧ s.highestAck < p.ackno ∧ p.ackno < s.maxseq ∧
    cfg.wnd ≤ s.cwnd ∧ ¬ s.fastrecov

/-- Header prediction takes data that is in order. -/
def predictsData : Bool :=
  s.predictOk p ∧ p.length ≠ 0 ∧ p.ackno = s.highestAck ∧ s.rq.empty

def fastAck : FullTcp := (s.newack p.ackno).sendMuch cfg false .normal cfg.maxburst

def fastData : FullTcp :=
  let s := (s.setRcvNxt (s.rcvNxt + p.length)).setDelack.recvBytes p.length
  if s.needSend cfg then s.sendMuch cfg true .normal cfg.maxburst else s

/-- A segment with an unexpected SYN is answered. -/
def dropWithReset (t : Trimmed) : FullTcp :=
  if t.tiflags.has .ack then s.sendpacket p.ackno 0 0 0 .normal
  else s.sendpacket 0 (wrap32 (t.seqno + t.datalen - 1)) .ack 0 .normal

def slowPath : Except FullTcpError FullTcp := do
  let (s, t) := s.trim p
  if t.tiflags.has .syn then return s.dropWithReset p t
  else if ¬ t.tiflags.has .ack then return s
  else
    match s.ackInput cfg p.ackno t.datalen t.dupseg with
    | .drop s => return s
    | .step6 s needoutput =>
      let (s, tiflags, needoutput) ← s.dataInput cfg p t needoutput
      return (s.finInput tiflags).finalOutput cfg needoutput

/-- The reception of a segment in the state ESTABLISHED or CLOSE_WAIT. -/
def recv (nopredict : Bool) : Except FullTcpError FullTcp :=
  if ¬ nopredict ∧ s.predictsAck cfg p then .ok (s.fastAck cfg p)
  else if ¬ nopredict ∧ s.predictsData p then .ok (s.fastData cfg p)
  else s.slowPath cfg p

end FullTcp

end Ns2XPass
