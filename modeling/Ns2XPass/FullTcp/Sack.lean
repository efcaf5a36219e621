import Ns2XPass.FullTcp.Agent
import Ns2XPass.Reassembly.Shift

/-! # Agents with selective acknowledgments

A `SackFullTcpAgent` keeps the blocks that its peer has reported, and resends
from the holes between them.
-/

namespace Ns2XPass

structure SackFullTcpConfig extends FullTcpConfig where
  sackRtxThreshmode : ℤ
  sackRtxCthresh : ℤ
  sackRtxBthresh : ℤ

/-- `sq_` refers to `sack_min_`, which is the lowest number that it may hold. -/
structure SackFullTcp extends FullTcp where
  sq : ReassemblyQueue
  hSeqno : ℤ

namespace SackFullTcp

variable (cfg : SackFullTcpConfig) (s : SackFullTcp)

/-- `topawin`, the end of the window of the receiver. -/
def topawin : ℤ := wrap32 (s.highestAck + wrap32 (toInt cfg.wnd * s.maxseg))

def sendAllowed (seq : ℤ) : Bool :=
  if ¬ s.pipectrl then s.toFullTcp.sendAllowed cfg.toFullTcpConfig seq
  else if s.topawin cfg ≤ seq then false
  else if s.state ≠ .established ∧ s.curseq < seq then false
  else s.pipe < wrap32 (toInt s.cwnd * s.maxseg)

/-- Whether the blocks above a hole are large enough to resend it. -/
def meetsThreshold (fcnt fbytes : ℤ) : Bool :=
  cfg.sackRtxThreshmode = 0 ∨
  cfg.sackRtxThreshmode = 1 ∧ cfg.sackRtxCthresh ≤ fcnt ∨
  cfg.sackRtxThreshmode = 2 ∧ cfg.sackRtxBthresh ≤ fbytes ∨
  cfg.sackRtxThreshmode = 3 ∧ (cfg.sackRtxCthresh ≤ fcnt ∨ cfg.sackRtxBthresh ≤ fbytes) ∨
  cfg.sackRtxThreshmode = 4 ∧ cfg.sackRtxCthresh ≤ fcnt ∧ cfg.sackRtxBthresh ≤ fbytes

/-- The loop of `nxt_tseq`, whose variable `seq` is an `int`. -/
def nxtTseqFrom : ℕ → ℤ → SackFullTcp → Except RqError (SackFullTcp × ℤ)
  | 0, _, _ => .error .outOfSteps
  | n + 1, seq, s => do
    let (sq, seq, fcnt, fbytes) ← s.sq.nexthole seq
    let s := { s with sq := sq }
    if seq ≤ 0 then return (s, s.tSeqno)
    else if meetsThreshold cfg fcnt fbytes then
      return ({ s with hSeqno := if s.hSeqno < seq then seq else s.hSeqno }, seq)
    else if fcnt ≤ 0 then return (s, s.tSeqno)
    else nxtTseqFrom n (wrap32 (seq + s.maxseg)) s

/-- The next number to send, where the loop makes at most `n` steps. -/
def nxtTseq (n : ℕ) : Except RqError (SackFullTcp × ℤ) :=
  if s.highestAck < s.recover then nxtTseqFrom cfg n (wrap32 s.hSeqno) s
  else .ok (s, s.tSeqno)

end SackFullTcp

end Ns2XPass
