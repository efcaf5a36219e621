import Ns2XPass.Common.Numeric
import Ns2XPass.Library.Window

/-! # The ack vector of DCCP

A `DCCPAckVector` is a run-length code of packet states in a growing ring of
bytes. The item of the newest packets is at the head, and the head moves to the
left. Sequence numbers are unsigned integers of 32 bits.
-/

namespace Ns2XPass

inductive PacketState
  | recv
  | ecn
  | reserved
  | notRecv
  deriving DecidableEq

namespace PacketState

def code : PacketState → ℕ
  | recv => 0
  | ecn => 1
  | reserved => 2
  | notRecv => 3

def ofCode : ℕ → PacketState
  | 0 => recv
  | 1 => ecn
  | 2 => reserved
  | _ => notRecv

end PacketState

/-- `DCCP_RUN_LENGTH_MASK`. -/
def runLengthMask : ℕ := 0x3F

/-- `DCCP_MAX_ACKV_SIZE`. -/
def maxAckvSize : ℕ := 0xFFFF

/-- The run length of an item, which is one less than the number of packets. -/
def runlen (item : ℕ) : ℕ := item &&& runLengthMask

def itemState (item : ℕ) : PacketState := .ofCode (item >>> 6)

/-- The difference of two numbers of 32 bits. -/
def sub32 (a b : ℕ) : ℕ := (a + 2 ^ 32 - b) % 2 ^ 32

structure AckVector where
  vector : ℕ → ℕ
  size : ℕ
  maxSize : ℕ
  head : ℕ
  tail : ℕ
  seqHead : ℕ
  seqTail : ℕ
  ene : ℕ
  ackvCons : PacketState → PacketState → PacketState

/-- The matrix `ackv_cons_` of the constructor: a state that is known is kept, unless one of both is
reserved. -/
def newAckvCons : PacketState → PacketState → PacketState
  | .recv, .recv => .recv
  | .recv, .ecn => .recv
  | .recv, .reserved => .reserved
  | .recv, .notRecv => .recv
  | .ecn, .recv => .ecn
  | .ecn, .ecn => .ecn
  | .ecn, .reserved => .reserved
  | .ecn, .notRecv => .ecn
  | .reserved, .recv => .reserved
  | .reserved, .ecn => .reserved
  | .reserved, .reserved => .reserved
  | .reserved, .notRecv => .reserved
  | .notRecv, .recv => .recv
  | .notRecv, .ecn => .ecn
  | .notRecv, .reserved => .reserved
  | .notRecv, .notRecv => .notRecv

namespace AckVector

/-- New memory of a size holds anything. -/
def new (junk : ℕ → ℕ → ℕ) (initialSize : ℕ) : AckVector where
  vector := junk initialSize
  size := 0
  maxSize := initialSize
  head := 0
  tail := 0
  seqHead := 0
  seqTail := 0
  ene := 0
  ackvCons := newAckvCons

variable (junk : ℕ → ℕ → ℕ) (v : AckVector)

def doubleMaxSize : AckVector × Bool :=
  if v.maxSize = maxAckvSize then (v, false)
  else
    let newMaxSize := min (v.maxSize * 2) maxAckvSize
    ({ v with
        vector := writeFrom newMaxSize (junk newMaxSize) 0 (window v.vector v.maxSize v.head v.size)
        maxSize := newMaxSize
        head := if 0 < v.size then 0 else v.head
        tail := if 0 < v.size then v.size - 1 else v.tail }, true)

/-- Increase the size and try again. -/
def retry (again : AckVector → AckVector × Bool) : AckVector × Bool :=
  let (v, ok) := v.doubleMaxSize junk
  if ok then again v else (v, false)

/-- Copies of an item are written from the new head up to the old one. -/
def pushItems (state : PacketState) (runlen count : ℕ) : AckVector :=
  let item := (state.code <<< 6 ||| (runlen &&& runLengthMask)) % 2 ^ 8
  let newHead := (v.head + v.maxSize - count) % v.maxSize
  { v with
    seqHead := if v.size ≠ 0 then (v.seqHead + (runlen + 1) * count) % 2 ^ 32 else v.seqHead
    vector := writeFrom v.maxSize v.vector newHead (List.replicate (count % v.maxSize) item)
    size := v.size + count
    head := newHead }

/-- It calls itself again at most as often as the number of steps allows. -/
def addItems (state : PacketState) (runlen count : ℕ) : ℕ → AckVector → AckVector × Bool
  | n, v =>
    if v.maxSize < v.size + count then
      match n with
      | 0 => (v, false)
      | n + 1 => v.retry junk (addItems state runlen count n)
    else (v.pushItems state runlen count, true)

/-- The loop of `findSeqNum`, which yields the place of an item, its first and its last number. -/
def findFrom (seqnum : ℕ) : ℕ → ℕ → ℕ → Option (ℕ × ℕ × ℕ)
  | 0, _, _ => none
  | n + 1, place, seqStart =>
    let seqEnd := sub32 seqStart (runlen (v.vector place))
    if seqEnd ≤ seqnum ∧ seqnum ≤ seqStart then some (place, seqStart, seqEnd)
    else
      let place := (place + 1) % v.maxSize
      if place = (v.tail + 1) % v.maxSize then none
      else findFrom seqnum n place (sub32 seqEnd 1)

def findSeqNum (seqnum : ℕ) : Option (ℕ × ℕ × ℕ) :=
  if v.size = 0 ∨ v.seqHead < seqnum ∨ seqnum < v.seqTail then none
  else v.findFrom seqnum v.maxSize v.head v.seqHead

def getState (seqnum : ℕ) : Option PacketState :=
  if v.size = 0 ∨ v.seqHead < seqnum ∨ seqnum < v.seqTail then none
  else (v.findSeqNum seqnum).map fun p => itemState (v.vector p.1)

/-- The two or three items of a run that a new state splits. -/
def splitItems (oldState newState : PacketState) (oldRunlen seqnum seqStart seqEnd : ℕ) : List ℕ :=
  if seqnum = seqStart then
    [newState.code <<< 6, (oldState.code <<< 6) + (oldRunlen - 1)]
  else if seqnum = seqEnd then
    [(oldState.code <<< 6) + (oldRunlen - 1), newState.code <<< 6]
  else
    [(oldState.code <<< 6) + (oldRunlen - 1 - (seqnum - seqEnd)), newState.code <<< 6,
      (oldState.code <<< 6) + (oldRunlen - 1 - (seqStart - seqnum))]

/-- Write several items in the place of one: those behind it or those before it are moved. -/
def replaceItem (place : ℕ) (items : List ℕ) : AckVector :=
  let more := items.length - 1
  let v := { v with size := v.size + more }
  if place = v.tail then
    { v with tail := (v.tail + more) % v.maxSize
             vector := writeFrom v.maxSize v.vector place items }
  else
    let newHead := (v.head + v.maxSize - more) % v.maxSize
    if place = v.head then
      { v with head := newHead, vector := writeFrom v.maxSize v.vector newHead items }
    else
      let vector := copyCells v.maxSize v.vector v.head newHead
        ((place + v.maxSize - v.head) % v.maxSize)
      { v with head := newHead
               vector := writeFrom v.maxSize vector
                 ((place + v.maxSize - more) % v.maxSize) items }

def alterState (seqnum : ℕ) (newState : PacketState) : ℕ → AckVector → AckVector × Bool
  | n, v =>
    match v.findSeqNum seqnum with
    | none => (v, false)
    | some (place, seqStart, seqEnd) =>
      let oldState := itemState (v.vector place)
      let oldRunlen := runlen (v.vector place)
      if oldState = newState then (v, true)
      else if oldRunlen = 0 then
        ({ v with vector := Function.update v.vector place (newState.code <<< 6) }, true)
      else
        let items := splitItems oldState newState oldRunlen seqnum seqStart seqEnd
        if v.maxSize < v.size + (items.length - 1) then
          match n with
          | 0 => (v, false)
          | n + 1 => v.retry junk (alterState seqnum newState n)
        else (v.replaceItem place items, true)

/-- The number of times that the size can be doubled. -/
def doublings : ℕ := 16

/-- Fill up with items for `n` missing packets. -/
def addMissing (n : ℕ) : AckVector :=
  let numFulls := (n - 1) / (runLengthMask + 1)
  let lastRunlen := (n - 1) % (runLengthMask + 1)
  let v := if 0 < numFulls then (addItems junk .notRecv runLengthMask numFulls doublings v).1 else v
  (addItems junk .notRecv lastRunlen 1 doublings v).1

/-- Add the expected packet. -/
def addExpected (seqnum : ℕ) (state : PacketState) : AckVector × Bool :=
  let last := v.vector v.head
  if runlen last < runLengthMask ∧ last >>> 6 = state.code then
    ({ v with vector := Function.update v.vector v.head ((last + 1) % 2 ^ 8), seqHead := seqnum },
      true)
  else addItems junk state 0 1 doublings v

/-- Add a packet that is not newer than the newest one. -/
def addOld (seqnum : ℕ) (state : PacketState) : AckVector × Bool :=
  match v.getState seqnum with
  | some currState => alterState junk seqnum (v.ackvCons currState state) doublings v
  | none => (v, false)

def addPacketFrom (seqnum : ℕ) (state : PacketState) : ℕ → AckVector → AckVector × Bool
  | n, v =>
    let dist := wrap32 (seqnum - v.seqHead)
    if v.size = 0 then
      addItems junk state 0 1 doublings
        { v with seqHead := seqnum, seqTail := seqnum, head := 0, tail := v.maxSize - 1 }
    else if 1 < dist then
      let numFulls := (dist.toNat - 2) / (runLengthMask + 1)
      if v.maxSize < v.size + numFulls + 1 + 1 then
        match n with
        | 0 => (v, false)
        | n + 1 => v.retry junk (addPacketFrom seqnum state n)
      else addItems junk state 0 1 doublings (v.addMissing junk (dist.toNat - 1))
    else if dist = 1 then v.addExpected junk seqnum state
    else v.addOld junk seqnum state

def addPacket (seqnum : ℕ) (state : PacketState) : AckVector × Bool :=
  v.addPacketFrom junk seqnum state doublings

/-- No packet is left. -/
def emptied : AckVector :=
  { v with size := 0, seqTail := v.seqHead, tail := v.head, ene := 0 }

/-- The items from `head_` to a place are left. -/
def cutAt (place seqnum : ℕ) : AckVector :=
  { v with
    size := (place + v.maxSize - v.head) % v.maxSize + 1
    tail := place
    seqTail := (seqnum + 1) % 2 ^ 32 }

def removePackets (seqnum : ℕ) : AckVector :=
  if v.size = 0 ∨ seqnum < v.seqTail then v
  else if v.seqHead < seqnum then v.emptied
  else
    match v.findSeqNum seqnum with
    | none => v
    | some (place, seqStart, seqEnd) =>
      if 0 < seqStart - seqEnd ∧ seqStart ≠ seqnum then
        let item := v.vector place - (seqnum - seqEnd + 1)
        { v with vector := Function.update v.vector place item }.cutAt place seqnum
      else if place = v.head then v.emptied
      else v.cutAt ((place + v.maxSize - 1) % v.maxSize) seqnum

end AckVector

end Ns2XPass
