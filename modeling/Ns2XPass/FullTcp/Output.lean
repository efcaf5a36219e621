import Ns2XPass.FullTcp.Agent

/-! # The output of an agent

`foutput` sends one segment if there is a reason to, and `send_much` sends as
many as are allowed.
-/

namespace Ns2XPass

namespace TcpState

/-- A FIN is sent with the data only before the connection is being closed. -/
def beforeClose : TcpState → Bool
  | .listen | .synSent | .synReceived | .established => true
  | _ => false

end TcpState

/-- `TCP_MAXSEQ`. -/
def tcpMaxseq : ℤ := 2 ^ 30

namespace FullTcp

variable (cfg : FullTcpConfig) (s : FullTcp)

def sendpacket (seqno ackno : ℤ) (flags : TcpFlag) (datalen : ℤ) (reason : Reason) : FullTcp :=
  { s.emit (.sendpacket seqno ackno flags datalen reason) with
    lastAckSent := wrap32 ackno
    idle := if 0 < datalen then false else s.idle }

def bufferempty : FullTcp := { s.emit .doneData with signalOnEmpty := false }

def bufferedBytes : ℤ :=
  if s.infiniteSend then tcpMaxseq
  else if s.highestAck < 0 then s.curseq - cfg.iss
  else s.curseq - s.highestAck + 1

/-- The number of bytes from `seqno` on that may be sent, before it is limited to one segment. -/
def available (seqno : ℤ) : ℤ :=
  let win := wrap32 (s.window cfg * s.maxseg)
  let off := wrap32 (seqno - if s.highestAck < 0 then cfg.iss else s.highestAck)
  if seqno = cfg.iss ∧ ¬ cfg.dataOnSyn then 0
  else if s.pipectrl then wrap32 (s.bufferedBytes cfg - off)
  else wrap32 (min (s.bufferedBytes cfg) win - off)

/-- What is sent from `seqno` on, if anything is. -/
structure Outgoing where
  seqno : ℤ
  datalen : ℤ
  pflags : TcpFlag
  isRetransmit : Bool
  quiet : Bool
  emptyingBuffer : Bool

/-- The part of `foutput` that finds out what could be sent. -/
def prepare (seqno : ℤ) : FullTcp × Outgoing :=
  let s :=
    if s.maxseg = 0 then { s with maxseg := s.size - cfg.headersize }
    else { s with size := s.maxseg + cfg.headersize }
  let quiet : Bool := s.highestAck = s.maxseq
  let syn : Bool := seqno = cfg.iss
  let datalen := s.available cfg seqno
  let drained : Bool := s.bufferedBytes cfg = 0
  let s := if s.signalOnEmpty && drained && !syn then s.bufferempty else s
  let datalen := if datalen < 0 then 0 else min datalen s.maxseg
  let sending : Bool := 0 < datalen
  let s := if cfg.slowStartRestart && quiet && sending && s.idle then s.slowdown cfg false .init else s
  let last : Bool := s.curseq < seqno + datalen
  let emptying := !s.infiniteSend && (last || (syn && datalen == 0))
  let s := if emptying && !syn then s.emit .idle else s
  let s :=
    if emptying && !syn && cfg.closeOnEmpty && quiet then
      { s with flags := { s.flags with needclose := true } }
    else s
  let pflags := if emptying then s.outflags ||| .push else s.outflags &&& ~~~.fin
  let pflags := if s.infiniteSend && syn && datalen == 0 then pflags ||| .push else pflags
  (s,
    { seqno := seqno
      datalen := datalen
      pflags := pflags
      isRetransmit := seqno < s.maxseq
      quiet := quiet
      emptyingBuffer := emptying })

/-- The reasons to send a segment. -/
def mustSend (o : Outgoing) : Bool :=
  0 < o.datalen ∧
    (o.datalen = s.maxseg ∨ ((o.quiet ∨ cfg.nodelay) ∧ o.emptyingBuffer) ∨ o.isRetransmit ∨
      cfg.wnd * s.maxseg / 2 ≤ o.datalen) ∨
  s.needSend cfg ∨ s.flags.acknow ∨ s.flags.needclose ∨ o.pflags.has .syn ∨ o.pflags.has .fin

/-- Send a segment. The result is the number of bytes sent, where a SYN and a FIN count. -/
def transmit (o : Outgoing) (reason : Reason) : FullTcp × ℤ :=
  let syn : ℤ := if o.pflags.has .syn then 1 else 0
  let closing : Bool := s.flags.needclose ∧ s.state.beforeClose
  let pflags := if closing then o.pflags ||| .fin else o.pflags
  let fin : ℤ := if pflags.has .fin then 1 else 0
  let s := if closing then { s with state := .finWait1 } else s
  let s := s.sendpacket o.seqno s.rcvNxt pflags o.datalen reason
  let reliable := o.datalen + syn + fin
  ({ s with
      flags := { s.flags with acknow := false, delack := false, needclose := false }
      maxseq := max s.maxseq (o.seqno + reliable)
      rtxPending := s.rtxPending ∨ reliable ≠ 0 }, reliable)

def foutput (seqno : ℤ) (reason : Reason) : FullTcp × ℤ :=
  let (s, o) := s.prepare cfg seqno
  if s.mustSend cfg o then s.transmit o reason else (s, 0)

def sent (seq amt : ℤ) : FullTcp :=
  { s with
    tSeqno := if seq = s.tSeqno then s.tSeqno + amt else s.tSeqno
    pipe := wrap32 (s.pipe + amt)
    rtxbytes := if seq < wrap32 s.maxseq then wrap32 (s.rtxbytes + amt) else s.rtxbytes }

/-- The loop of `send_much`, which has sent `npackets` segments. -/
def sendMuchFrom (reason : Reason) (maxburst : ℤ) : ℕ → ℤ → Bool → FullTcp → FullTcp
  | 0, _, _, s => s
  | n + 1, npackets, force, s =>
    let seq := s.tSeqno
    if ¬ force ∧ ¬ s.sendAllowed cfg seq then s
    else if ¬ force ∧ cfg.overhead ∧ ¬ s.delsndPending then { s with delsndPending := true }
    else
      let (s, amt) := s.foutput cfg seq reason
      if amt ≤ 0 then s
      else
        let s := s.sent seq (if s.outflags.has .fin then amt - 1 else amt)
        if s.outflags.has .syn ∨ s.outflags.has .fin ∨ (maxburst ≠ 0 ∧ maxburst ≤ npackets + 1) then s
        else sendMuchFrom reason maxburst n (npackets + 1) false s

/-- More steps than these cannot be made, since the numbers sent stay within the window. -/
def sendSteps : ℕ := (s.highestAck + 2 ^ 31 - s.tSeqno).toNat + 2

def sendMuch (force : Bool) (reason : Reason) (maxburst : ℤ) : FullTcp :=
  if ¬ force ∧ s.delsndPending then s
  else sendMuchFrom cfg reason maxburst s.sendSteps 0 force s

end FullTcp

end Ns2XPass
