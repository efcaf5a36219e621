import Mathlib.Algebra.GroupWithZero.Nat
import Mathlib.Data.Int.Basic
import Mathlib.Data.List.Sort
import Mathlib.Tactic.Basic

/-! # The scoreboard of TCP-Linux

The nodes of a `ScoreBoard1` are blocks of packets in one state each. The list
from `head_` on is a list of nodes, and a node has an address, to which
`nxt_to_retrx_` points. One pass over the nodes splits, relabels, merges and
appends them.
-/

namespace Ns2XPass

/-- The values of `SKB_FLAG_*`, which are single bits. -/
inductive SkbFlag
  | inflight
  | sacked
  | lost
  | retransmitted
  deriving DecidableEq

structure ScoreBoardNode1 where
  addr : ℕ
  flag : SkbFlag
  seq : ℤ
  /-- The right edge, or `snd_nxt` at the time of the retransmission. -/
  nxt : ℤ
  /-- Read only after `MarkRetran`, which sets it. -/
  retran : ℤ := 0
  deriving DecidableEq

namespace ScoreBoardNode1

variable (n : ScoreBoardNode1)

def getEnd : ℤ := if n.flag = .retransmitted then n.seq else n.nxt

def getLength : ℤ := if n.flag = .retransmitted then 1 else n.nxt + 1 - n.seq

def setFlag (flag : SkbFlag) : ScoreBoardNode1 :=
  { n with nxt := if n.flag = .retransmitted then n.seq else n.nxt, flag := flag }

def Inside (seq : ℤ) : Prop :=
  if n.flag = .retransmitted then seq = n.seq else n.seq ≤ seq ∧ seq ≤ n.nxt

instance (seq : ℤ) : Decidable (n.Inside seq) :=
  inferInstanceAs (Decidable (if n.flag = .retransmitted then seq = n.seq else
    n.seq ≤ seq ∧ seq ≤ n.nxt))

/-- `0` for a block that is not touched, `-1` for one to be deleted, or else the number of packets
to be deleted. -/
def shouldClean (ackseq : ℤ) : ℤ :=
  if ackseq < n.seq then 0
  else if n.flag = .retransmitted ∨ n.nxt ≤ ackseq then -1
  else ackseq + 1 - n.seq

/-- Whether the next node can be merged into this one. -/
def Mergable (next : ScoreBoardNode1) : Prop :=
  next.flag ≠ .retransmitted ∧ next.flag = n.flag

instance (next : ScoreBoardNode1) : Decidable (n.Mergable next) :=
  inferInstanceAs (Decidable (next.flag ≠ .retransmitted ∧ next.flag = n.flag))

def merge (next : ScoreBoardNode1) : ScoreBoardNode1 := { n with nxt := next.nxt }

/-- What is left of a node that is split. -/
def splitLeft (seq : ℤ) : ScoreBoardNode1 := { n with nxt := seq - 1 }

/-- The new node of a split. -/
def splitRight (addr : ℕ) (seq : ℤ) : ScoreBoardNode1 := ⟨addr, n.flag, seq, n.nxt, 0⟩

end ScoreBoardNode1

/-- The bits `FLAG_*` that `UpdateScoreBoard` returns. -/
structure AckFlags where
  unsureTstamp : Bool := false
  dataSacked : Bool := false
  dataLost : Bool := false
  deriving DecidableEq

/-- The exits of `ASSERT2`, a pointer to a deleted node, and a loop that does not end within the
number of steps it is given. -/
inductive ScoreBoard1Error
  | sackOutNegative
  | fackOutNegative
  | outsideRecommended
  | dangling
  | outOfSteps
  deriving DecidableEq

/-- The members of a scoreboard other than the list of nodes. -/
structure ScoreBoard1Fields where
  /-- The address that the next node gets. -/
  fresh : ℕ
  nxtToRetrx : Option ℕ
  ackedRtxId : ℤ
  rtxId : ℤ
  fack : ℤ
  fackOut : ℤ
  sackOut : ℤ
  lastRtxSeq : ℤ
  deriving DecidableEq

structure ScoreBoard1 extends ScoreBoard1Fields where
  nodes : List ScoreBoardNode1
  deriving DecidableEq

namespace ScoreBoard1Fields

/-- Count the packets of a head that are acked. -/
def forget (f : ScoreBoard1Fields) (flag : SkbFlag) (pktNum : ℤ) :
    Except ScoreBoard1Error ScoreBoard1Fields :=
  match flag with
  | .sacked =>
    if 0 ≤ f.sackOut - pktNum then .ok { f with sackOut := f.sackOut - pktNum }
    else .error .sackOutNegative
  | .lost =>
    if 0 ≤ f.fackOut - pktNum then .ok { f with fackOut := f.fackOut - pktNum }
    else .error .fackOutNegative
  | _ => .ok f

/-- Delete the head, which may be a retransmission. -/
def deleteHead (f : ScoreBoard1Fields) (head : ScoreBoardNode1) (rest : List ScoreBoardNode1) :
    ScoreBoard1Fields :=
  { f with
    ackedRtxId := if head.flag = .retransmitted then max f.ackedRtxId head.retran
      else f.ackedRtxId
    nxtToRetrx := if f.nxtToRetrx = some head.addr then rest.head?.map (·.addr)
      else f.nxtToRetrx }

end ScoreBoard1Fields

/-- The node `now` that a loop visits, the nodes before it, of which the nearest is the first of
the list, and the nodes behind it. -/
structure Cursor extends ScoreBoard1Fields where
  before : List ScoreBoardNode1
  now : ScoreBoardNode1
  rest : List ScoreBoardNode1

namespace Cursor

variable (c : Cursor)

def nodes : List ScoreBoardNode1 := c.before.reverse ++ c.now :: c.rest

def split (seq : ℤ) : Cursor :=
  { c with now := c.now.splitLeft seq, rest := c.now.splitRight c.fresh seq :: c.rest,
           fresh := c.fresh + 1 }

/-- Merge `now` into the previous node, which becomes `now`. -/
def merge (prev : ScoreBoardNode1) (before : List ScoreBoardNode1) : Cursor :=
  { c with before := before, now := prev.merge c.now }

def append (start finish : ℤ) : Cursor :=
  { c with rest := [⟨c.fresh, .inflight, start, finish, 0⟩], fresh := c.fresh + 1 }

/-- Set `nxt_to_retrx_`, unless it is set. -/
def recommend : Cursor := { c with nxtToRetrx := c.nxtToRetrx <|> some c.now.addr }

/-- The next node, if any. -/
def next : Option Cursor :=
  match c.rest with
  | [] => none
  | n :: rest => some { c with before := c.now :: c.before, now := n, rest := rest }

def toBoard : ScoreBoard1 := { c.toScoreBoard1Fields with nodes := c.nodes }

end Cursor

/-- The cursor of `UpdateScoreBoard`, the blocks from `sack_index` on, and the variables
`thorough` and `flag`. -/
structure Traversal extends Cursor where
  sacks : List (ℤ × ℤ)
  thorough : Bool
  flag : AckFlags

namespace Traversal

variable (dupackThreshold : ℤ) (t : Traversal)

/-- Find the block that matches `now`. -/
def find : Traversal :=
  { t with sacks := t.sacks.dropWhile fun s => s.2 ≤ t.now.seq }

/-- All packets of `now` are SACKed. -/
def sack : Traversal :=
  let t := match t.now.flag with
    | .lost => { t with fackOut := t.fackOut - t.now.getLength }
    | .retransmitted =>
      { t with ackedRtxId := t.now.retran, flag.unsureTstamp := true, thorough := true }
    | _ => t
  { t with sackOut := t.sackOut + t.now.getLength, flag.dataSacked := true,
           now := t.now.setFlag .sacked }

/-- Mark what the block and `now` have in common. -/
def cover : Traversal :=
  match t.sacks with
  | [] => t
  | (left, right) :: _ =>
    if left ≤ t.now.getEnd then
      if t.now.seq < left then { t with toCursor := t.toCursor.split left }
      else if right ≤ t.now.getEnd then
        Traversal.sack { t with toCursor := t.toCursor.split right }
      else t.sack
    else t

/-- All packets of `now` are lost. -/
def lose : Traversal :=
  let now := t.now.setFlag .lost
  { t with toCursor := Cursor.recommend { t.toCursor with
             now := now, fackOut := t.fackOut + now.getLength },
           flag.dataLost := true }

/-- Check whether `now` is lost, if no block covers it. -/
def check : Traversal :=
  let lostSeqThreshold := t.fack - (dupackThreshold + 1)
  match t.now.flag with
  | .retransmitted =>
    if t.now.nxt ≤ t.fack ∨ t.now.retran + dupackThreshold + 1 < t.ackedRtxId then t.lose else t
  | .inflight =>
    if t.now.seq ≤ lostSeqThreshold then
      if lostSeqThreshold < t.now.getEnd then
        Traversal.lose { t with toCursor := t.toCursor.split (lostSeqThreshold + 1) }
      else t.lose
    else t
  | .lost => { t with toCursor := t.toCursor.recommend }
  | .sacked => t

/-- Whether no block is left that covers a part of `now`. -/
def uncovered : Bool :=
  match t.sacks with
  | [] => true
  | (left, _) :: _ => t.now.getEnd < left

/-- Process `now`. -/
def process : Traversal :=
  if t.now.flag ≠ .sacked then
    let t := t.find.cover
    if t.uncovered then t.check dupackThreshold else t
  else t

/-- Try to merge with the previous node. -/
def mergePrev : Traversal :=
  match t.before with
  | [] => t
  | prev :: before =>
    if prev.Mergable t.now then { t with toCursor := t.toCursor.merge prev before } else t

/-- Extend the scoreboard. -/
def extend : Traversal :=
  if t.rest = [] ∧ t.now.getEnd < t.fack then
    { t with toCursor := t.toCursor.append (t.now.getEnd + 1) t.fack }
  else t

def visit : Traversal := ((t.process dupackThreshold).mergePrev).extend

def loop : ℕ → Traversal → Except ScoreBoard1Error Traversal
  | 0, _ => .error .outOfSteps
  | n + 1, t =>
    if t.sacks ≠ [] ∨ t.thorough then
      let t := t.visit dupackThreshold
      match t.next with
      | none => .ok t
      | some c => loop n { t with toCursor := c }
    else .ok t

end Traversal

namespace ScoreBoard1

/-- The loop of `CleanRtxQueue`, which tells whether `acked_rtx_id_` is changed. -/
def cleanRtxQueue (lastAck : ℤ) : ScoreBoard1Fields → List ScoreBoardNode1 → Bool → AckFlags →
    Except ScoreBoard1Error (ScoreBoard1 × Bool × AckFlags)
  | f, [], changed, flag => .ok (⟨f, []⟩, changed, flag)
  | f, head :: rest, changed, flag =>
    let cmp := head.shouldClean lastAck
    if cmp = 0 then .ok (⟨f, head :: rest⟩, changed, flag)
    else do
      let f ← f.forget head.flag (if cmp < 0 then head.getLength else cmp)
      if cmp < 0 then
        let isRtx := head.flag = .retransmitted
        cleanRtxQueue lastAck (f.deleteHead head rest) rest
          (changed || decide (isRtx ∧ f.ackedRtxId < head.retran))
          { flag with unsureTstamp := flag.unsureTstamp || decide isRtx }
      else return (⟨f, { head with seq := lastAck + 1 } :: rest⟩, changed, flag)

def clearScoreBoard (sb : ScoreBoard1) : ScoreBoard1 where
  fresh := sb.fresh
  nxtToRetrx := none
  ackedRtxId := -1
  rtxId := 0
  fack := 0
  fackOut := 0
  sackOut := 0
  lastRtxSeq := sb.lastRtxSeq
  nodes := []

/-- The blocks without D-SACK, the rightmost left edge first. -/
def filterSacks (lastAck : ℤ) (blocks : List (ℤ × ℤ)) : List (ℤ × ℤ) :=
  (blocks.filter fun s => lastAck ≤ s.1).foldl
    (fun sacks s => sacks.orderedInsert (fun s t => t.1 ≤ s.1) s) []

/-- The number of steps that the pass is given: one for each packet on the board, and up to
`fack_`. -/
def steps (fack : ℤ) (head : ScoreBoardNode1) (rest : List ScoreBoardNode1) : ℕ :=
  ((head :: rest).map fun n => n.getLength.toNat).sum + (fack + 1 - head.seq).toNat + 1

/-- The pass over the nodes from the head on. -/
def traverse (dupackThreshold : ℤ) (f : ScoreBoard1Fields) (head : ScoreBoardNode1)
    (rest : List ScoreBoardNode1) (sacks : List (ℤ × ℤ)) (thorough : Bool) (flag : AckFlags) :
    Except ScoreBoard1Error (ScoreBoard1 × AckFlags) := do
  let t ← Traversal.loop dupackThreshold (steps f.fack head rest)
    ⟨⟨{ f with nxtToRetrx := none }, [], head, rest⟩, sacks, thorough, flag⟩
  return (t.toBoard, t.flag)

/-- Advance `fack_` to the last packet of the rightmost block. -/
def advanceFack (sb : ScoreBoard1) (sacks : List (ℤ × ℤ)) (thorough : Bool) : ScoreBoard1 × Bool :=
  match sacks.head? with
  | none => (sb, thorough)
  | some (_, right) =>
    if sb.fack < right - 1 then ({ sb with fack := right - 1 }, true) else (sb, thorough)

/-- The part of `UpdateScoreBoard` behind the filter, with the sorted blocks. -/
def processSacks (sb : ScoreBoard1) (lastAck dupackThreshold : ℤ) (sacks : List (ℤ × ℤ))
    (thorough : Bool) (flag : AckFlags) : Except ScoreBoard1Error (ScoreBoard1 × AckFlags) :=
  let (sb, thorough) := sb.advanceFack sacks thorough
  match sb.nodes with
  | [] =>
    traverse dupackThreshold { sb.toScoreBoard1Fields with fresh := sb.fresh + 1 }
      ⟨sb.fresh, .inflight, lastAck + 1, sb.fack, 0⟩ [] sacks.reverse thorough flag
  | head :: rest =>
    traverse dupackThreshold sb.toScoreBoard1Fields head rest sacks.reverse thorough flag

/-- The part of `UpdateScoreBoard` behind `CleanRtxQueue`. -/
def processHeader (sb : ScoreBoard1) (lastAck : ℤ) (blocks : List (ℤ × ℤ)) (dupackThreshold : ℤ)
    (thorough : Bool) (flag : AckFlags) : Except ScoreBoard1Error (ScoreBoard1 × AckFlags) :=
  let sacks := filterSacks lastAck blocks
  if thorough = false ∧ (blocks = [] ∨ sacks = []) then .ok (sb, flag)
  else sb.processSacks lastAck dupackThreshold sacks thorough flag

def updateScoreBoard (sb : ScoreBoard1) (lastAck : ℤ) (blocks : List (ℤ × ℤ))
    (dupackThreshold : ℤ) : Except ScoreBoard1Error (ScoreBoard1 × AckFlags) := do
  let (sb, thorough, flag) ← cleanRtxQueue lastAck sb.toScoreBoard1Fields sb.nodes false {}
  if sb.nodes = [] then
    sb.clearScoreBoard.processHeader lastAck blocks dupackThreshold false flag
  else sb.processHeader lastAck blocks dupackThreshold thorough flag

/-- All packets of `now` are lost. -/
def loseAll (c : Cursor) : Cursor :=
  { c with
    fackOut := if c.now.flag = .lost then c.fackOut
      else c.fackOut + (c.now.getEnd - c.now.seq + 1)
    now := c.now.setFlag .lost }

/-- Merge `now` into the previous node, if that is lost. -/
def joinLost (c : Cursor) (lastLost : Bool) : Cursor :=
  match lastLost, c.before with
  | true, prev :: before => c.merge prev before
  | _, _ => c.recommend

/-- It yields `last_lost`. -/
def loseNow (c : Cursor) (lastLost : Bool) : Cursor × Bool :=
  if c.now.flag = .sacked then (c, false) else (joinLost (loseAll c) lastLost, true)

/-- The loop of `MarkLoss`. -/
def markLossLoop (sndNxt : ℤ) : ℕ → Cursor → Bool → Except ScoreBoard1Error Cursor
  | 0, _, _ => .error .outOfSteps
  | n + 1, c, lastLost =>
    let (c, lastLost) := loseNow c lastLost
    let c := if c.rest = [] ∧ c.now.getEnd + 1 < sndNxt then
      c.append (c.now.getEnd + 1) (sndNxt - 1) else c
    match c.next with
    | none => .ok c
    | some c => markLossLoop sndNxt n c lastLost

def markLoss (sb : ScoreBoard1) (sndUna sndNxt : ℤ) : Except ScoreBoard1Error ScoreBoard1 :=
  match sb.nodes with
  | [] =>
    if sndUna < sndNxt then
      .ok { sb with nodes := [⟨sb.fresh, .lost, sndUna, sndNxt - 1, 0⟩], fresh := sb.fresh + 1
                    nxtToRetrx := some sb.fresh, fackOut := sb.fackOut + (sndNxt - sndUna)
                    rtxId := 0, ackedRtxId := -1 }
    else .ok { sb with nxtToRetrx := none, rtxId := 0, ackedRtxId := -1 }
  | head :: rest => do
    let c ← markLossLoop sndNxt (rest.length + 2)
      ⟨{ sb.toScoreBoard1Fields with nxtToRetrx := none }, [], head, rest⟩ false
    return { c.toBoard with rtxId := 0, ackedRtxId := -1 }

/-- The nodes from the one at an address on. -/
def nodesFrom (sb : ScoreBoard1) (addr : ℕ) : List ScoreBoardNode1 :=
  sb.nodes.dropWhile fun n => n.addr ≠ addr

/-- It moves `nxt_to_retrx_` to a lost node. -/
def getNextRetran (sb : ScoreBoard1) : Except ScoreBoard1Error (ScoreBoard1 × ℤ) :=
  match sb.nxtToRetrx with
  | none => .ok (sb, -1)
  | some addr =>
    if sb.nodesFrom addr = [] then .error .dangling
    else
      match (sb.nodesFrom addr).find? fun n => n.flag = .lost with
      | none => .ok ({ sb with nxtToRetrx := none }, -1)
      | some n => .ok ({ sb with nxtToRetrx := some n.addr }, n.seq)

/-- The first packet of a block is retransmitted. -/
def retransmitNode (n : ScoreBoardNode1) (fresh : ℕ) (sndNxt rtxId : ℤ) : List ScoreBoardNode1 :=
  if n.seq < n.nxt then
    [{ n.splitLeft (n.seq + 1) with flag := .retransmitted, nxt := sndNxt, retran := rtxId },
      n.splitRight fresh (n.seq + 1)]
  else [{ n with flag := .retransmitted, nxt := sndNxt, retran := rtxId }]

def markRetran (sb : ScoreBoard1) (retranSeqno sndNxt : ℤ) :
    Except ScoreBoard1Error ScoreBoard1 :=
  match sb.nxtToRetrx with
  | none => .error .outsideRecommended
  | some addr =>
    match sb.nodesFrom addr with
    | [] => .error .dangling
    | n :: rest =>
      if ¬ n.Inside retranSeqno then .error .outsideRecommended
      else if sb.fackOut - 1 < 0 then .error .fackOutNegative
      else
        .ok { sb with
          fackOut := sb.fackOut - 1
          fresh := sb.fresh + 1
          nodes := sb.nodes.takeWhile (fun n => n.addr ≠ addr) ++
            retransmitNode n sb.fresh sndNxt sb.rtxId ++ rest
          rtxId := sb.rtxId + 1
          lastRtxSeq := retranSeqno }

end ScoreBoard1

/-- The calls of a sender, which retransmits what the board wants. -/
inductive ScoreBoard1Call
  | updateScoreBoard (lastAck : ℤ) (blocks : List (ℤ × ℤ)) (dupackThreshold : ℤ)
  | retransmit (sndNxt : ℤ)
  | markLoss (sndUna sndNxt : ℤ)
  | clearScoreBoard

namespace ScoreBoard1Call

def run (sb : ScoreBoard1) : ScoreBoard1Call → Except ScoreBoard1Error ScoreBoard1
  | .updateScoreBoard lastAck blocks dupackThreshold =>
    (sb.updateScoreBoard lastAck blocks dupackThreshold).map Prod.fst
  | .retransmit sndNxt => do
    let (sb, retranSeqno) ← sb.getNextRetran
    if retranSeqno = -1 then return sb else sb.markRetran retranSeqno sndNxt
  | .markLoss sndUna sndNxt => sb.markLoss sndUna sndNxt
  | .clearScoreBoard => .ok sb.clearScoreBoard

end ScoreBoard1Call

end Ns2XPass
