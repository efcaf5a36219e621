import Ns2XPass.Library.Machine
import Ns2XPass.Routing.LinkStateMessages

/-! # The link-state protocol

A node floods its link states when they change. When a link comes up, the node at
each end sends the other one its whole database, and what is new in it is made
into advertisements again. Packets carry the number of a message only.
-/

namespace Ns2XPass

/-- A packet between two agents. -/
structure LsPacket where
  sender : ℤ
  receiver : ℤ
  msgId : ℤ
  deriving DecidableEq, Repr

structure LsRouting where
  myNodeId : ℤ
  peerIdList : List ℤ
  linkStateList : List LsLink
  routingTable : Option LsPaths
  linkStateDatabase : LsDatabase
  lsaHistory : LsMap ℤ := ∅
  tpmHistory : LsMap ℤ := ∅
  ackManager : LsAckManager := ∅
  messageBuffer : List (ℤ × LsMessage) := []

namespace LsRouting

/-- The node after `rtProtoLS::initialize`. -/
def start (fuel : ℕ) (nodeId : ℤ) (peers : List ℤ) (links : List LsLink)
    (delays : LsMap (WithTop ℚ)) : LsRouting :=
  let db : LsDatabase := (∅ : LsDatabase).insert nodeId links
  { myNodeId := nodeId
    peerIdList := peers
    linkStateList := links
    routingTable := (computeRoutes db.plain nodeId fuel).toOption
    linkStateDatabase := db
    ackManager := delays.map fun _ delay => { rtxTimeout := delay.map (3 * ·) } }

def isUp (n : LsRouting) (neighborId : ℤ) : Bool :=
  (n.linkStateList.find? fun l => l.neighborId = neighborId).any fun l => l.status = .up

end LsRouting

/-- What a node works on: itself, the message center and the packets that it sends. -/
structure LsHost where
  center : LsMessageCenter
  node : LsRouting
  sent : List LsPacket := []

namespace LsHost

/-! ## Sending -/

section Send

variable (h : LsHost) (now : ℚ)

/-- `rtProtoLS::sendMessage`, which knows the addresses of the peers only. -/
def sendMessage (destId msgId : ℤ) : LsHost :=
  if destId ∈ h.node.peerIdList then
    { h with sent := h.sent ++ [⟨h.node.myNodeId, destId, msgId⟩] }
  else h

def messageOut (peerId : ℤ) (msg : LsMessage) : LsHost :=
  { h with node := { h.node with ackManager := h.node.ackManager.messageOut now peerId msg } }

def bufferedSend (peerId : ℤ) (msg : LsMessage) : LsHost :=
  { h with node := { h.node with messageBuffer := h.node.messageBuffer ++ [(peerId, msg)] } }

def setDatabase (db : LsDatabase) : LsHost :=
  { h with node := { h.node with linkStateDatabase := db } }

def computeRoutes (fuel : ℕ) : Except LsAbort LsHost := do
  let paths ← (LsRouting.computeRoutes h.node.linkStateDatabase.plain h.node.myNodeId
    fuel).mapError LsAbort.routes
  return { h with node := { h.node with routingTable := some paths } }

/-- `newMessage`, with what the sender fills in. -/
def create (nodeId : ℤ) (type : LsMessageType) (fill : LsMessage → LsMessage) :
    Except LsAbort (LsMessage × LsHost) := do
  let r ← h.center.newMessage nodeId type
  return (fill r.1, { h with center := r.2.write (fill r.1) })

def sendAck (nbrId : ℤ) (type : LsMessageType) (originNodeIdAcked seqAcked : ℤ) :
    Except LsAbort LsHost := do
  let r ← h.create h.node.myNodeId type fun msg =>
    { msg with originNodeId := originNodeIdAcked, sequenceNumber := seqAcked }
  return r.2.sendMessage nbrId r.1.messageId

/-- One peer of the loop of `sendLinkStates`. -/
def advertiseTo (buffer : Bool) (msg : LsMessage) (peerId : ℤ) : LsHost :=
  if h.node.isUp peerId = false then h
  else if buffer then h.bufferedSend peerId msg
  else (h.sendMessage peerId msg.messageId).messageOut now peerId msg

/-- The link states of the node are sent with a new sequence number. -/
def advertise (buffer : Bool) (own : List LsLink) : Except LsAbort LsHost := do
  let r ← h.create h.node.myNodeId .lsa fun msg =>
    { msg with
      content := .linkStates (own.map fun l => { l with sequenceNumber := msg.sequenceNumber }) }
  let h' := r.2.setDatabase (h.node.linkStateDatabase.insert h.node.myNodeId
    (own.map fun l => { l with sequenceNumber := r.1.sequenceNumber }))
  return h.node.peerIdList.foldl (fun h peerId => h.advertiseTo now buffer r.1 peerId) h'

def sendLinkStates (buffer : Bool) : Except LsAbort LsHost :=
  if h.node.peerIdList = [] then .ok h
  else
    match h.node.linkStateDatabase[h.node.myNodeId]? with
    | none => .ok h
    | some own => if own = [] then .ok h else h.advertise now buffer own

def sendTopo (neighborId : ℤ) : Except LsAbort LsHost := do
  let r ← h.create h.node.myNodeId .tpm fun msg =>
    { msg with content := .topo h.node.myNodeId }
  return r.2.bufferedSend neighborId r.1

/-- One entry of the buffer. The message may have been recycled. -/
def flush (entry : ℤ × LsMessage) : Except LsAbort LsHost :=
  if h.center.lsaMessages[entry.2.messageId]? = some entry.2 then
    .ok ((h.messageOut now entry.1 entry.2).sendMessage entry.1 entry.2.messageId)
  else .error .dangling

def sendBufferedMessages : Except LsAbort LsHost := do
  let h' ← h.node.messageBuffer.foldlM (fun (h : LsHost) entry => h.flush now entry) h
  return { h' with node := { h'.node with messageBuffer := [] } }

end Send

/-! ## Receiving -/

section Receive

variable (h : LsHost) (now : ℚ) (fuel : ℕ)

/-- One peer of the loop that forwards an advertisement. -/
def forwardTo (senderId : ℤ) (msg : LsMessage) (peerId : ℤ) : LsHost :=
  if peerId = msg.originNodeId ∨ peerId = senderId ∨ h.node.isUp peerId = false then h
  else (h.messageOut now peerId msg).sendMessage peerId msg.messageId

def forward (senderId : ℤ) (msg : LsMessage) : LsHost :=
  h.node.peerIdList.foldl (fun h peerId => h.forwardTo now senderId msg peerId) h

/-- The database takes over the content of an advertisement. -/
def updateFrom (msg : LsMessage) : Except LsAbort LsHost :=
  match msg.content with
  | .linkStates l =>
    let r := h.node.linkStateDatabase.update h.node.myNodeId msg.originNodeId l
    if r.2 then (h.setDatabase r.1).computeRoutes fuel else .ok (h.setDatabase r.1)
  | .null => .ok h
  | .topo _ => .ok h

/-- `receiveLSA` behind `sendAck`. -/
def acceptLSA (senderId : ℤ) (msg : LsMessage) : Except LsAbort LsHost :=
  if msg.originNodeId = h.node.myNodeId then .ok h
  else
    let r := h.node.lsaHistory.isNewMessage msg
    if r.1 then
      ({ h with node := { h.node with lsaHistory := r.2 } }.forward now senderId msg).updateFrom
        fuel msg
    else .ok h

def receiveLSA (senderId : ℤ) (msg : LsMessage) : Except LsAbort LsHost := do
  let h ← h.sendAck senderId .lsaAck msg.originNodeId msg.messageId
  h.acceptLSA now fuel senderId msg

/-- One peer of the loop of `regenAndSend`. -/
def regenTo (exception origin : ℤ) (msg : LsMessage) (peerId : ℤ) : LsHost :=
  if peerId = origin ∨ peerId = exception ∨ h.node.isUp peerId = false then h
  else h.bufferedSend peerId msg

/-- The message is made again, and the copy of the link states is not put into it. -/
def regenAndSend (exception origin : ℤ) (lsl : List LsLink) : Except LsAbort LsHost :=
  match lsl with
  | [] => .error .emptyList
  | first :: _ => do
    let r ← h.create origin .lsa fun msg =>
      { msg with sequenceNumber := first.sequenceNumber, originNodeId := origin }
    return h.node.peerIdList.foldl (fun h peerId => h.regenTo exception origin r.1 peerId) r.2

end Receive

/-- A record of a database is missing, empty or older than another one. -/
def Outdated (mine : Option (List LsLink)) (record : List LsLink) : Prop :=
  mine.all fun l => l.head?.all fun old => record.head?.all fun new =>
    decide (LsNewer old.sequenceNumber new.sequenceNumber)

instance (mine : Option (List LsLink)) (record : List LsLink) : Decidable (Outdated mine record) :=
  inferInstanceAs (Decidable (_ = true))

section Receive

variable (h : LsHost) (now : ℚ) (fuel : ℕ)

/-- One record of a topology message, and whether one has been taken over. An empty record has no
first link state. -/
def takeRecord (neighborId : ℤ) (r : LsHost × Bool) (record : ℤ × List LsLink) :
    Except LsAbort (LsHost × Bool) :=
  if record.1 = r.1.node.myNodeId then .ok r
  else if record.2 = [] then .error .emptyList
  else if Outdated r.1.node.linkStateDatabase[record.1]? record.2 then do
    let h ← (r.1.setDatabase (r.1.node.linkStateDatabase.insert record.1 record.2)).regenAndSend
      neighborId record.1 record.2
    return (h, true)
  else .ok r

/-- `receiveTopo` behind `sendAck`. -/
def acceptTopo (databases : ℤ → LsDatabase) (neighborId : ℤ) (msg : LsMessage) :
    Except LsAbort LsHost :=
  let r := h.node.tpmHistory.isNewMessage msg
  if r.1 then
    let h : LsHost := { h with node := { h.node with tpmHistory := r.2 } }
    match msg.content with
    | .null => .ok h
    | .linkStates _ => .ok h
    | .topo nodeId => do
      let r ← (databases nodeId).toList.foldlM (takeRecord neighborId) (h, false)
      if r.2 then r.1.computeRoutes fuel else return r.1
  else .ok h

def receiveTopo (databases : ℤ → LsDatabase) (neighborId : ℤ) (msg : LsMessage) :
    Except LsAbort LsHost := do
  let h ← h.sendAck neighborId .tpmAck neighborId msg.sequenceNumber
  h.acceptTopo fuel databases neighborId msg

/-- `receiveAck`, and the acknowledgement is deleted. -/
def receiveAck (neighborId msgId : ℤ) (msg : LsMessage) : Except LsAbort LsHost := do
  let m ← h.node.ackManager.ackIn neighborId msg
  return { h with
    center := h.center.deleteMessage msgId
    node := { h.node with ackManager := m } }

def receiveMessage (databases : ℤ → LsDatabase) (senderId msgId : ℤ) : Except LsAbort LsHost :=
  if senderId = lsInvalidNodeId then .ok h
  else
    match h.center.retrieveMessage msgId with
    | none => .ok h
    | some msg =>
      match msg.type with
      | .tpm => h.receiveTopo fuel databases senderId msg
      | .lsa => h.receiveLSA now fuel senderId msg
      | .lsaAck => h.receiveAck senderId msgId msg
      | .tpmAck => h.receiveAck senderId msgId msg

/-- `findPeerNodeId`. -/
def findPeerNodeId (sender : ℤ) : ℤ :=
  if sender ∈ h.node.peerIdList then sender else lsInvalidNodeId

/-! ## Changes of the links -/

def cancelTimer (nbrId : ℤ) : LsHost :=
  { h with node := { h.node with ackManager := h.node.ackManager.cancelTimer nbrId } }

/-- The loop over the new and the old link states. -/
def compareLinks : List LsLink → List LsLink → LsHost → Except LsAbort LsHost
  | [], _, h => .ok h
  | _ :: _, [], _ => .error .notAligned
  | new :: news, old :: olds, h =>
    if new.neighborId ≠ old.neighborId then .error .notAligned
    else if new.status = .down then compareLinks news olds (h.cancelTimer new.neighborId)
    else if old.status = .up then compareLinks news olds h
    else do
      let h ← h.sendTopo new.neighborId
      compareLinks news olds h

/-- What a change of the own link states calls for. -/
def announce : Except LsAbort LsHost := do
  let h ← h.computeRoutes fuel
  h.sendLinkStates now true

/-- The first part of `linkStateChanged`. -/
def refresh : Except LsAbort LsHost :=
  let r := h.node.linkStateDatabase.update h.node.myNodeId h.node.myNodeId h.node.linkStateList
  if r.2 then (h.setDatabase r.1).announce now fuel else .ok (h.setDatabase r.1)

def linkStateChanged : Except LsAbort LsHost :=
  match h.node.linkStateDatabase[h.node.myNodeId]? with
  | none => .error .noRecord
  | some old => do
    let h' ← h.refresh now fuel
    compareLinks h.node.linkStateList old h'

def intfChanged (links : List LsLink) : Except LsAbort LsHost :=
  { h with node := { h.node with linkStateList := links } }.linkStateChanged now fuel

/-- A retransmission timer expires. -/
def expire (peerId : ℤ) : Except LsAbort LsHost := do
  let r ← h.node.ackManager.resendMessages now peerId
  return r.1.foldl (fun h msgId => h.sendMessage peerId msgId)
    { h with node := { h.node with ackManager := r.2 } }

end Receive

end LsHost

/-! ## The network -/

structure LsNetwork where
  center : LsMessageCenter
  nodes : ℤ → LsRouting
  flying : List LsPacket := []

inductive LsEvent
  | deliver (p : LsPacket)
  | duplicate (p : LsPacket)
  | lose (p : LsPacket)
  | expire (nodeId peerId : ℤ)
  | intfChanged (nodeId : ℤ) (links : List LsLink)
  | sendBufferedMessages (nodeId : ℤ)
  | sendUpdates (nodeId : ℤ)
  deriving DecidableEq, Repr

namespace LsNetwork

variable (s : LsNetwork)

/-- A node at work. -/
def host (nodeId : ℤ) : LsHost := { center := s.center, node := s.nodes nodeId }

/-- The network after a node has worked. -/
def after (nodeId : ℤ) (h : LsHost) : LsNetwork :=
  { center := h.center
    nodes := Function.update s.nodes nodeId h.node
    flying := s.flying ++ h.sent }

def databases (nodeId : ℤ) : LsDatabase := (s.nodes nodeId).linkStateDatabase

/-- `rtProtoLS::recv` at the receiver of a packet. -/
def deliver (now : ℚ) (fuel : ℕ) (p : LsPacket) : Except LsAbort LsNetwork := do
  let h ← (s.host p.receiver).receiveMessage now fuel s.databases
    ((s.host p.receiver).findPeerNodeId p.sender) p.msgId
  return { s with flying := s.flying.erase p }.after p.receiver h

def step (fuel : ℕ) (x : ℚ × LsEvent) : Except LsAbort LsNetwork :=
  match x.2 with
  | .deliver p => s.deliver x.1 fuel p
  | .duplicate p => .ok { s with flying := p :: s.flying }
  | .lose p => .ok { s with flying := s.flying.erase p }
  | .expire n peerId => do
    let h ← (s.host n).expire x.1 peerId
    return s.after n h
  | .intfChanged n links => do
    let h ← (s.host n).intfChanged x.1 fuel links
    return s.after n h
  | .sendBufferedMessages n => do
    let h ← (s.host n).sendBufferedMessages x.1
    return s.after n h
  | .sendUpdates n => do
    let h ← (s.host n).sendLinkStates x.1 false
    return s.after n h

/-- Packets that are under way arrive, are copied or are lost. Timers expire that are pending. -/
def Enabled (x : ℚ × LsEvent) : Prop :=
  match x.2 with
  | .deliver p => p ∈ s.flying
  | .duplicate p => p ∈ s.flying
  | .lose p => p ∈ s.flying
  | .expire n peerId => ((s.nodes n).ackManager[peerId]?).any fun p => p.timer.status = .pending
  | .intfChanged _ _ => True
  | .sendBufferedMessages _ => True
  | .sendUpdates _ => True

instance : ∀ x, Decidable (s.Enabled x)
  | (_, .deliver p) => inferInstanceAs (Decidable (p ∈ s.flying))
  | (_, .duplicate p) => inferInstanceAs (Decidable (p ∈ s.flying))
  | (_, .lose p) => inferInstanceAs (Decidable (p ∈ s.flying))
  | (_, .expire n peerId) => inferInstanceAs (Decidable
      (((s.nodes n).ackManager[peerId]?).any fun p => p.timer.status = .pending))
  | (_, .intfChanged _ _) => inferInstanceAs (Decidable True)
  | (_, .sendBufferedMessages _) => inferInstanceAs (Decidable True)
  | (_, .sendUpdates _) => inferInstanceAs (Decidable True)

/-- A network of nodes that have been initialized. The links of a node are an array over its
neighbours, and the numbers in them are any 32 bits. -/
structure Start (fuel : ℕ) (peers : ℤ → List ℤ) (links : ℤ → List LsLink)
    (delays : ℤ → LsMap (WithTop ℚ)) : Prop where
  nodes : s.nodes = fun n => LsRouting.start fuel n (peers n) (links n) (delays n)
  center : s.center = { maxSize := s.center.maxSize }
  flying : s.flying = []
  nodup : ∀ n, ((links n).map (·.neighborId)).Nodup
  bits : ∀ n, ∀ l ∈ links n, 0 ≤ l.sequenceNumber ∧ l.sequenceNumber < 2 ^ 32

def machine (fuel : ℕ) : Machine LsNetwork (ℚ × LsEvent) LsAbort where
  Init s := ∃ peers links delays, s.Start fuel peers links delays
  Enabled := Enabled
  step s x := s.step fuel x

end LsNetwork

end Ns2XPass
