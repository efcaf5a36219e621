import Ns2XPass.Common.TimerHandler
import Ns2XPass.Routing.PathMaps

/-! # Messages of the link-state protocol

All nodes share one message center. Advertisements and topology messages are kept
under odd numbers, acknowledgements under even ones. A node remembers the newest
message it has had from each origin, and for each peer what this peer has not
acknowledged.
-/

namespace Ns2XPass

/-- A link state with its sequence number. -/
structure LsLink extends LsLinkState where
  sequenceNumber : ℤ
  deriving DecidableEq, Repr

inductive LsMessageType
  | lsa | tpm | lsaAck | tpmAck
  deriving DecidableEq, Repr

/-- The content of a message: nothing, link states, or a pointer to the database of a node. -/
inductive LsContent
  | null
  | linkStates (l : List LsLink)
  | topo (nodeId : ℤ)
  deriving DecidableEq, Repr

structure LsMessage where
  type : LsMessageType
  messageId : ℤ
  sequenceNumber : ℤ
  originNodeId : ℤ
  content : LsContent := .null
  deriving DecidableEq, Repr

/-- What stops the simulation. -/
inductive LsAbort
  | cantInsert
  | nothingToSend
  | noRecord
  | notAligned
  | emptyList
  | dangling
  | timer (e : TimerHandler.Abort)
  | routes (e : LsError)
  deriving DecidableEq, Repr

/-! ## The message center -/

structure LsMessageCenter where
  currentLsaId : ℤ := 1
  currentOtherId : ℤ := 2
  maxSize : ℕ := 0
  lsaMessages : LsMap LsMessage := ∅
  otherMessages : LsMap LsMessage := ∅

/-- The messages that are kept under odd numbers. -/
def LsMessageType.Flooded (t : LsMessageType) : Prop := t = .lsa ∨ t = .tpm

instance (t : LsMessageType) : Decidable t.Flooded := inferInstanceAs (Decidable (_ ∨ _))

namespace LsMessageCenter

/-- The number after one that is given out, in 32 bits and without `LS_INVALID_MESSAGE_ID`. -/
def nextId (id : ℤ) : ℤ := if (id + 2) % 2 ^ 32 = 0 then 2 else (id + 2) % 2 ^ 32

variable (c : LsMessageCenter)

/-- `max_size` after the test for `init`. -/
def limit : ℕ := if c.maxSize = 0 then 300 else c.maxSize

/-- A full store loses its first message. -/
def recycle (limit : ℕ) (store : LsMap LsMessage) : LsMap LsMessage :=
  if limit ≤ store.size then store.minKey?.elim store store.erase else store

def insertNew (store : LsMap LsMessage) (msg : LsMessage) : Except LsAbort (LsMap LsMessage) :=
  if store.contains msg.messageId then .error .cantInsert
  else .ok (store.insert msg.messageId msg)

def newMessage (nodeId : ℤ) (type : LsMessageType) :
    Except LsAbort (LsMessage × LsMessageCenter) :=
  if type.Flooded then do
    let msg : LsMessage := ⟨type, c.currentLsaId, c.currentLsaId, nodeId, .null⟩
    let store ← insertNew (recycle c.limit c.lsaMessages) msg
    return (msg, { c with
      maxSize := c.limit, currentLsaId := nextId c.currentLsaId, lsaMessages := store })
  else do
    let msg : LsMessage := ⟨type, c.currentOtherId, c.currentOtherId, nodeId, .null⟩
    let store ← insertNew (recycle c.limit c.otherMessages) msg
    return (msg, { c with
      maxSize := c.limit, currentOtherId := nextId c.currentOtherId, otherMessages := store })

/-- Fill in a message that has just been made. -/
def write (msg : LsMessage) : LsMessageCenter :=
  if msg.type.Flooded then { c with lsaMessages := c.lsaMessages.insert msg.messageId msg }
  else { c with otherMessages := c.otherMessages.insert msg.messageId msg }

/-- `isLSA`. -/
def IsLSA (msgId : ℤ) : Prop := msgId % 2 = 1

instance (msgId : ℤ) : Decidable (IsLSA msgId) := inferInstanceAs (Decidable (_ = _))

def retrieveMessage (msgId : ℤ) : Option LsMessage :=
  if IsLSA msgId then c.lsaMessages[msgId]? else c.otherMessages[msgId]?

def deleteMessage (msgId : ℤ) : LsMessageCenter :=
  { c with otherMessages := c.otherMessages.erase msgId }

end LsMessageCenter

/-! ## The histories -/

/-- A sequence number is newer than another one, which may be beyond the wrap. -/
def LsNewer (old new : ℤ) : Prop := old < new ∨ 2 ^ 30 < (old - new) % 2 ^ 32

instance (old new : ℤ) : Decidable (LsNewer old new) := inferInstanceAs (Decidable (_ ∨ _))

/-- `isNewMessage`, with the history it leaves. -/
def LsMap.isNewMessage (history : LsMap ℤ) (msg : LsMessage) : Bool × LsMap ℤ :=
  if (history[msg.originNodeId]?).all fun old => decide (LsNewer old msg.sequenceNumber) then
    (true, history.insert msg.originNodeId msg.sequenceNumber)
  else (false, history)

/-! ## Retransmission -/

structure LsIdSeq where
  msgId : ℤ
  seq : ℤ
  deriving DecidableEq, Repr

/-- What a peer has not acknowledged, with `LS_RTX_TIMEOUT` for a peer that is not known yet. -/
structure LsUnackPeer where
  rtxTimeout : WithTop ℚ := ((1 / 500 : ℚ) : WithTop ℚ)
  timer : TimerHandler := {}
  tpmSeq : ℤ := 0
  lsaMap : LsMap LsIdSeq := ∅

namespace LsUnackPeer

variable (p : LsUnackPeer) (msg : LsMessage)

/-- Some message is not acknowledged. -/
def Pending : Prop := p.tpmSeq ≠ 0 ∨ p.lsaMap.isEmpty = false

instance : Decidable p.Pending := inferInstanceAs (Decidable (_ ∨ _))

/-- The entry of a message that goes out. -/
def record : LsUnackPeer :=
  match msg.type with
  | .tpm => { p with tpmSeq := msg.sequenceNumber }
  | .lsa =>
    { p with lsaMap := p.lsaMap.insert msg.originNodeId ⟨msg.messageId, msg.sequenceNumber⟩ }
  | .lsaAck => p
  | .tpmAck => p

/-- The entry that an acknowledgement is for goes. -/
def acked : LsUnackPeer :=
  match msg.type with
  | .tpmAck => if p.tpmSeq = msg.sequenceNumber then { p with tpmSeq := 0 } else p
  | .lsaAck =>
    if (p.lsaMap[msg.originNodeId]?).any fun e => e.seq = msg.sequenceNumber then
      { p with lsaMap := p.lsaMap.erase msg.originNodeId }
    else p
  | .lsa => p
  | .tpm => p

/-- The messages that are sent again. -/
def unacked : List ℤ :=
  (if p.tpmSeq ≠ 0 then [p.tpmSeq] else []) ++ p.lsaMap.toList.map fun e => e.2.msgId

end LsUnackPeer

/-- `LsRetransmissionManager`. -/
abbrev LsAckManager := LsMap LsUnackPeer

namespace LsAckManager

variable (m : LsAckManager) (now : ℚ) (peerId : ℤ)

/-- The peer as `messageOut` finds it. -/
def peer : LsUnackPeer := (m[peerId]?).getD {}

def cancelTimer : LsAckManager :=
  match m[peerId]? with
  | none => m
  | some p => m.insert peerId { p with tpmSeq := 0, lsaMap := ∅, timer := p.timer.forceCancel }

def messageOut (msg : LsMessage) : LsAckManager :=
  m.insert peerId { (m.peer peerId).record msg with
    timer := TimerHandler.resched now (m.peer peerId).rtxTimeout }

def ackIn (msg : LsMessage) : Except LsAbort LsAckManager :=
  match m[peerId]? with
  | none => .ok m
  | some p =>
    if ¬ p.Pending then .ok m
    else if (p.acked msg).Pending then .ok (m.insert peerId (p.acked msg))
    else do
      let timer ← (p.acked msg).timer.cancel.mapError LsAbort.timer
      return m.insert peerId { p.acked msg with timer := timer }

/-- A retransmission timer expires and `resendMessages` runs. -/
def resendMessages : Except LsAbort (List ℤ × LsAckManager) :=
  match m[peerId]? with
  | none => .error .nothingToSend
  | some p => do
    let _ ← p.timer.beginHandle.mapError LsAbort.timer
    return (p.unacked, m.insert peerId { p with
      timer := (TimerHandler.resched now p.rtxTimeout).endHandle })

end LsAckManager

/-! ## Databases -/

/-- The link-state database, with the sequence numbers. -/
abbrev LsDatabase := LsMap (List LsLink)

/-- The link states without their sequence numbers. -/
def LsDatabase.plain (db : LsDatabase) : LsTopoMap :=
  db.map fun _ l => l.map LsLink.toLsLinkState

namespace LsLink

variable (own : Bool) (old new : LsLink)

/-- An old link state takes over a new one. The node itself keeps its sequence number. -/
def renew : LsLink :=
  { neighborId := old.neighborId, status := new.status, cost := new.cost,
    sequenceNumber := if own then old.sequenceNumber else new.sequenceNumber }

def changed : Bool := new.status ≠ old.status || new.cost ≠ old.cost

/-- One iteration of the loop of `update`. -/
def updateIn : List LsLink → List LsLink × Bool
  | [] => ([new], true)
  | old :: rest =>
    if new.neighborId = old.neighborId then (renew own old new :: rest, changed old new)
    else (old :: (updateIn rest).1, (updateIn rest).2)

/-- The loop of `update`. -/
def updateList (l news : List LsLink) : List LsLink × Bool :=
  news.foldl (fun r new => ((updateIn own new r.1).1, r.2 || (updateIn own new r.1).2)) (l, false)

end LsLink

/-- `LsTopoMap::update`. -/
def LsDatabase.update (db : LsDatabase) (myNodeId nodeId : ℤ) (l : List LsLink) :
    LsDatabase × Bool :=
  match db[nodeId]? with
  | none => (db.insert nodeId l, true)
  | some old =>
    (db.insert nodeId (LsLink.updateList (nodeId = myNodeId) old l).1,
      (LsLink.updateList (nodeId = myNodeId) old l).2)

end Ns2XPass
