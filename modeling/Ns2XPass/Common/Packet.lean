import Mathlib.Data.Rat.Defs

/-! # Packets

The fields of `hdr_cmn`, `hdr_ip`, `hdr_tcp` and `hdr_xpass` that the protocol and the
queues read. A packet is allocated with all header bytes zero.
-/

namespace Ns2XPass

/-- `hdr_cmn::ptype_`. -/
inductive PacketType
  | xpassCreditRequest | xpassCreditStop | xpassCredit | xpassData | xpassNack
  | other (code : ℕ)
  deriving DecidableEq, Repr

structure Packet where
  ptype : PacketType
  size : ℤ
  seqno : ℤ := 0
  ackno : ℤ := 0
  hlen : ℤ := 0
  creditSentTime : ℚ := 0
  creditSeq : ℤ := 0
  sendbuffer : ℤ := 0
  deriving DecidableEq

/-- The fields of `hdr_ip`. -/
structure IpHeader where
  saddr : BitVec 32
  daddr : BitVec 32
  flowid : BitVec 32
  deriving DecidableEq

end Ns2XPass
