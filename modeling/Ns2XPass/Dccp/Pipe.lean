import Ns2XPass.Dccp.AckMerge
import Ns2XPass.Dccp.TcpLike

/-! # The pipe of TCP-like DCCP

A sender keeps the data packets that it has sent, from the newest one on, and an
ack vector that merges those it has received. Of an acknowledgement both vectors
are walked in step, and each data packet is counted by its old and its new state.
Whether an acknowledgement was lost or marked, and whether the other side is
quiescent, is not found here. Of the timeout timer only whether it is pending is kept.
-/

namespace Ns2XPass

/-- The ways that `send_packetRecv` aborts, and a loop that does not end. -/
inductive PipeError
  | histNewer
  | recvEmpty
  | notAligned
  | storedEmpty
  | pipeNegative
  | outOfSteps
  deriving DecidableEq

/-- The packets that a walk counts, those inside a window and those before it. -/
structure AckCounts where
  numLost : Bool → ℤ := fun _ => 0
  numMarked : Bool → ℤ := fun _ => 0
  numOk : Bool → ℤ := fun _ => 0
  numOkMark : Bool → ℤ := fun _ => 0
  numAck : Bool → ℤ := fun _ => 0
  numPipe : Bool → ℤ := fun _ => 0
  /-- The packets that have been counted in `numPipe`. -/
  leaving : List ℕ := []

/-- The variables of the walk through both ack vectors, where `elm` is the rest of the history. -/
structure AckScan where
  elm : List ℕ
  numPackets : ℕ := 0
  newSeqAllDone : ℕ := 0
  counts : AckCounts := {}

structure TcpLikeSender where
  window : TcpLike
  numDupAcks : ℕ
  storedAckv : AckVector
  sendHist : List ℕ := []
  histLastSeq : ℕ := 0
  highAckRecv : ℕ := 0
  seqAllDone : ℕ := 0
  timerTo : Bool := false

/-- The matrix that the constructor sets: a packet that was marked stays marked. After a reset it is
that of any ack vector. -/
def likeCons : PacketState → PacketState → PacketState
  | .recv, .ecn => .ecn
  | old, new => newAckvCons old new

namespace AckCounts

variable (c : AckCounts) (b : Bool)

def bump (f : Bool → ℤ) : Bool → ℤ := Function.update f b (f b + 1)

def lost : AckCounts := { c with numLost := bump b c.numLost }

def marked : AckCounts := { c with numMarked := bump b c.numMarked }

def ok : AckCounts := { c with numOk := bump b c.numOk }

def okMark : AckCounts := { c with numOkMark := bump b c.numOkMark }

/-- The packet is acknowledged or given up, and leaves the pipe. -/
def leave (seqnum : ℕ) (ack pipe : Bool) : AckCounts :=
  { c with
    numAck := bump ack c.numAck
    numPipe := bump pipe c.numPipe
    leaving := seqnum :: c.leaving }

end AckCounts

namespace TcpLikeSender

/-- The packets from the newest one that is not newer than `seqNum`. -/
def findPacketInSendHistory (seqNum : ℕ) (elm : List ℕ) : List ℕ :=
  elm.dropWhile fun q => seqNum < q

/-- The packets down to the newest one that is not newer than `trimTo`. -/
def historyTo (trimTo : ℕ) : List ℕ → List ℕ
  | [] => []
  | q :: l => if trimTo < q then q :: historyTo trimTo l else [q]

section Calls

variable (junk : ℕ → ℕ → ℕ) (s : TcpLikeSender)

def trimSendHistory (trimTo : ℕ) : TcpLikeSender :=
  if s.histLastSeq < trimTo then
    { s with sendHist := historyTo trimTo s.sendHist, histLastSeq := trimTo }
  else s

/-- Count a data packet whose state was `old` and is `new`. -/
def tally (seqnum numPackets : ℕ) (old new : PacketState) (c : AckCounts) : AckCounts :=
  let win : Bool := s.window.seqWinStart ≤ seqnum
  let ack : Bool := s.window.ackWinStart ≤ seqnum
  let pipe : Bool := s.window.seqPipeStart ≤ seqnum
  if new ≠ old then
    if old = .notRecv ∧ new = .recv then (c.ok win).leave seqnum ack pipe
    else if old = .notRecv ∧ new = .ecn then (c.marked win).leave seqnum ack pipe
    else if old = .recv ∧ new = .ecn then (c.marked win).okMark win
    else c
  else if new = .notRecv ∧ s.numDupAcks ≤ numPackets then (c.lost win).leave seqnum ack pipe
  else c

/-- `new_seq_all_done`: the first packet with enough newer ones that are reported. -/
def doneBy (seqnum : ℕ) (r : AckScan) : ℕ :=
  if r.newSeqAllDone = 0 ∧ r.numPackets = s.numDupAcks then seqnum else r.newSeqAllDone

/-- One packet of the walk. -/
def visit (seqnum : ℕ) (old new : PacketState) (r : AckScan) : AckScan :=
  let elm := findPacketInSendHistory seqnum r.elm
  { elm := elm
    numPackets := if new ≠ .notRecv then r.numPackets + 1 else r.numPackets
    newSeqAllDone := s.doneBy seqnum r
    counts :=
      if elm.head? = some seqnum then s.tally seqnum r.numPackets old new r.counts
      else r.counts }

/-- The number and the state of the packet in the stored ack vector. -/
def storedState (firstStored seqnum : ℕ) (w : PacketWalk) :
    Option ((ℕ × PacketState) × PacketWalk) :=
  if firstStored < seqnum then some ((seqnum, .notRecv), w) else s.storedAckv.nextPacket w

/-- The loop over the packets. Those that the received ack vector does not reach keep their
states. -/
def scanFrom (ackv : AckVector) : ℕ → ℕ → PacketState → PacketState → PacketWalk → PacketWalk →
    AckScan → Except PipeError AckScan
  | 0, _, _, _, _, _, _ => .error .outOfSteps
  | n + 1, seqnum, old, new, wOld, wNew, r =>
    if seqnum ≤ s.seqAllDone then .ok r
    else
      let r := s.visit seqnum old (s.storedAckv.ackvCons old new) r
      let next := ackv.nextPacket wNew
      let seqnum := (next.map (·.1.1)).getD (sub32 seqnum 1)
      if seqnum = s.seqAllDone then .ok r
      else
        match s.storedState s.storedAckv.seqHead seqnum wOld with
        | none => .error .storedEmpty
        | some ((_, old), wOld) =>
          scanFrom ackv n seqnum old ((next.map (·.1.2)).getD old) wOld
            ((next.map (·.2)).getD wNew) r

/-- The walk that counts what a received ack vector tells. -/
def scan (ackNum : ℕ) (ackv : AckVector) : Except PipeError AckScan :=
  if s.seqAllDone < s.histLastSeq then .error .histNewer
  else
    match ackv.nextPacket ackv.startPacketWalk with
    | none => .error .recvEmpty
    | some ((seqnum, new), wNew) =>
      match s.storedState s.storedAckv.seqHead seqnum s.storedAckv.startPacketWalk with
      | none => .error .notAligned
      | some ((seqnumOld, old), wOld) =>
        if seqnumOld ≠ seqnum then .error .notAligned
        else
          s.scanFrom ackv (seqnum + 1) seqnum old new wOld wNew
            { elm := findPacketInSendHistory ackNum s.sendHist }

/-- An empty ack vector is started with the ends of the one that is received. -/
def start (ackv : AckVector) : TcpLikeSender :=
  if s.storedAckv.size = 0 then
    let v := (s.storedAckv.addPacket junk ackv.seqTail .notRecv).1
    { s with
      storedAckv := (v.addPacket junk ackv.seqHead .notRecv).1
      seqAllDone := if s.seqAllDone = 0 then sub32 ackv.seqTail 1 else s.seqAllDone }
  else s

/-- The received ack vector is stored, and the packets that are done with are removed. -/
def store (ackv : AckVector) (newSeqAllDone : ℕ) : Except PipeError TcpLikeSender :=
  let seqAllDone := max s.seqAllDone newSeqAllDone
  match s.storedAckv.mergeWith junk (some ackv) with
  | none => .error .outOfSteps
  | some (v, _) =>
    .ok ({ s with
        storedAckv := v.removePackets seqAllDone
        seqAllDone := seqAllDone }.trimSendHistory (min ackv.seqTail seqAllDone))

/-- `num_inc_cwnd`, which counts the packets before the window too. -/
def numIncCwnd (c : AckCounts) : ℤ :=
  c.numOk true + c.numMarked true - c.numOkMark true + c.numOk false + c.numMarked false -
    c.numOkMark false

/-- The packets leave the pipe. -/
def drain (c : AckCounts) : Except PipeError TcpLikeSender :=
  let pipe := s.window.pipe - c.numPipe true
  if pipe < 0 then .error .pipeNegative
  else
    .ok { s with
      window := { s.window with pipe := pipe }
      timerTo := if pipe = 0 then false else if 0 < numIncCwnd c then true else s.timerTo }

/-- What the counts do to the congestion window and to the ratio. -/
def react (c : AckCounts) (lostAck quiescent : Bool) : Except PipeError TcpLikeSender :=
  match s.window.updateCwnd (numIncCwnd c) quiescent with
  | none => .error .outOfSteps
  | some p =>
    let lost : Bool := 0 < c.numLost true ∨ 0 < c.numMarked true
    let restarts := lost && ({ p.lostOrMarkedData with numAckInWin := 0 }.checkAckRatio).2
    let p := if lost then p.dataLost quiescent else p
    .ok { s with
      window :=
        if p.skipAckLoss = false ∧ lostAck then p.lostOrMarkedAck
        else p.updateAckRatio (if restarts then 0 else c.numAck true) }

/-- An acknowledgement with an ack vector is processed. The packets that leave the pipe are listed
beside the sender. -/
def processAck (ackNum : ℕ) (ackv : AckVector) (lostAck quiescent : Bool) :
    Except PipeError (List ℕ × TcpLikeSender) := do
  let s := { s with highAckRecv := ackNum }.start junk ackv
  let r ← s.scan ackNum ackv
  let s ← s.store junk ackv r.newSeqAllDone
  let s ← s.drain r.counts
  let s ← s.react r.counts lostAck quiescent
  return (r.counts.leaving, s)

def lostOrMarkedAck : TcpLikeSender := { s with window := s.window.lostOrMarkedAck }

/-- What is known of an acknowledgement beside its number and its ack vector: the timeout that its
round-trip time leads to, whether another one has been lost or it is marked, whether the other side
is quiescent, and whether the ratio may be changed now. -/
structure AckInput where
  rto : ℚ
  lostAck : Bool
  quiescent : Bool
  changes : Bool

/-- The part of `send_packetRecv` for acknowledgements. -/
def recvAck (ackNum : ℕ) (ackv : Option AckVector) (i : AckInput) :
    Except PipeError (List ℕ × TcpLikeSender) :=
  let skips : Bool := (ackNum : ℤ) < s.window.ackWinStart
  let s := { s with window := { s.window with skipAckLoss := skips } }
  match ackv.filter fun v => 0 < v.size with
  | none => .ok ([], if i.lostAck then s.lostOrMarkedAck else s)
  | some ackv =>
    let measured := (findPacketInSendHistory ackNum s.sendHist).head? = some ackNum
    let s := { s with window := { s.window with rto := if measured then i.rto else s.window.rto } }
    if ackNum < s.highAckRecv then
      .ok ([], if skips = false ∧ i.lostAck then s.lostOrMarkedAck else s)
    else s.processAck junk ackNum ackv i.lostAck i.quiescent

/-- The part of `send_packetRecv` for data. -/
def recvData (lostAck : Bool) : TcpLikeSender :=
  if s.window.skipAckLoss = false ∧ lostAck then s.lostOrMarkedAck else s

def changeRemoteAckRatio (changes : Bool) : TcpLikeSender :=
  { s with window := s.window.changeRemoteAckRatio changes }

/-- A packet is sent, and `send_packetSent` enters it in the history if it carries data. -/
def send (data : Bool) : TcpLikeSender :=
  let sent := { s with window := { s.window with seqNum := (s.window.seqNum + 1) % 2 ^ 32 } }
  if data then
    { sent with
      sendHist := s.window.seqNum.toNat :: s.sendHist
      window := { sent.window with pipe := s.window.pipe + 1 }
      timerTo := true }
  else sent

/-- The timeout timer expires. -/
def timeout (cfg : TcpLikeSettings) (changes : Bool) : TcpLikeSender :=
  { s with window := s.window.timeoutTo cfg changes, timerTo := false }

end Calls

end TcpLikeSender

end Ns2XPass
