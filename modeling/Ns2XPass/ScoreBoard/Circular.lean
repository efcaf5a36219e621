import Mathlib.Algebra.GroupWithZero.Nat
import Mathlib.Data.List.Range
import Mathlib.Logic.Function.Basic
import Mathlib.Tactic.Basic

/-! # The circular scoreboard

The entries of a `ScoreBoard` lie on a ring at the index that the packet number
has modulo the size. The ring grows when SACK blocks reach beyond it. Packet
numbers, `first_`, `length_` and `sbsize_` are natural numbers, and a sum of
type `int` that would overflow stops the run.
-/

namespace Ns2XPass

/-- An entry, whose flags are characters. -/
structure ScoreBoardNode where
  seqNo : ℕ
  ackFlag : Bool
  sackFlag : Bool
  retran : Bool
  sndNxt : ℤ

/-- The exits of `UpdateScoreBoard`, an overflow of an `int`, and a loop that does not end within
the number of steps it is given. -/
inductive ScoreBoardError
  | assert
  | assertLength
  | tooLarge
  | intOverflow
  | outOfSteps
  deriving DecidableEq

structure ScoreBoard where
  first : ℕ
  length : ℕ
  sbsize : ℕ
  changed : ℕ
  cells : ℕ → ScoreBoardNode

namespace ScoreBoard

variable (junk : ℕ → ℕ → ScoreBoardNode) (lastAck : ℤ) (sb : ScoreBoard)

/-- The entry for a packet number. -/
def node (i : ℕ) : ScoreBoardNode := sb.cells (i % sb.sbsize)

def write (i : ℕ) (e : ScoreBoardNode) : ScoreBoard :=
  { sb with cells := Function.update sb.cells (i % sb.sbsize) e }

/-- A new entry behind the last one. -/
def append (i : ℕ) : Except ScoreBoardError ScoreBoard :=
  let sb := { sb.write i ⟨i, false, false, false, 0⟩ with
    length := sb.length + 1, changed := sb.changed + 1 }
  if sb.sbsize ≤ sb.length then .error .tooLarge else .ok sb

/-- Acknowledge the entry `i` at the left edge, which may be a retransmission. -/
def dropFirst (i : ℕ) (retranDecr : ℕ) : ScoreBoard × ℕ :=
  let e := sb.node i
  let e' := { e with ackFlag := true, sackFlag := true }
  let e' := if e.retran then { e' with retran := false, sndNxt := 0 } else e'
  ({ sb.write i e' with
      first := sb.first + 1, length := sb.length - 1, changed := sb.changed + 1 },
    if e.retran then retranDecr + 1 else retranDecr)

/-- The loop that advances the left edge, at the packet number `i`. -/
def advance : ℕ → ℕ → ScoreBoard → ℕ → Except ScoreBoardError (ScoreBoard × ℕ)
  | 0, _, sb, retranDecr => .ok (sb, retranDecr)
  | n + 1, i, sb, retranDecr =>
    if ((sb.node i).seqNo : ℤ) ≤ lastAck then
      if sb.first ≠ i then .error .assert
      else if sb.length = 0 then .error .assertLength
      else
        let (sb, retranDecr) := sb.dropFirst i retranDecr
        if sb.length = 0 then .ok (sb, retranDecr) else advance n (i + 1) sb retranDecr
    else advance n (i + 1) sb retranDecr

def advanceLeft : Except ScoreBoardError (ScoreBoard × ℕ) :=
  if sb.length ≠ 0 ∧ ((sb.node sb.first).seqNo : ℤ) ≤ lastAck then
    advance lastAck (lastAck + 1 - (sb.node sb.first).seqNo).toNat (sb.node sb.first).seqNo sb 0
  else .ok (sb, 0)

/-- `resizeSB`: one more entry is copied than there is. The new memory holds anything. -/
def resizeSB (sz : ℕ) : ScoreBoard :=
  { sb with
    cells := (List.range' (sb.node sb.first).seqNo (sb.length + 1)).foldl
      (fun cells i => Function.update cells (i % sz) (sb.node i)) (junk sz)
    sbsize := sz }

/-- The packet number of the last entry. -/
def lastSeqNo : Except ScoreBoardError ℕ :=
  if sb.first + sb.length + sb.sbsize < 2 ^ 31 then
    .ok (sb.node (sb.first + sb.length + sb.sbsize - 1)).seqNo
  else .error .intOverflow

/-- The loop that resizes the ring, where `width` is `sack_right - last_ack`. -/
def grow (width : ℤ) : ℕ → ScoreBoard → Except ScoreBoardError ScoreBoard
  | n, sb =>
    if (sb.sbsize : ℤ) - 1 ≤ width then
      match n with
      | 0 => .error .outOfSteps
      | n + 1 =>
        if sb.sbsize * 2 < 2 ^ 31 then grow width n (sb.resizeSB junk (sb.sbsize * 2))
        else .error .intOverflow
    else .ok sb

/-- The loop that creates `n` new entries from `i` on. -/
def createEntries : ℕ → ℕ → ScoreBoard → Except ScoreBoardError ScoreBoard
  | 0, _, sb => .ok sb
  | n + 1, i, sb => do createEntries n (i + 1) (← sb.append i)

/-- Create new entries off the right side. -/
def extend (sackRight : ℤ) : Except ScoreBoardError ScoreBoard := do
  let last ← sb.lastSeqNo
  if (last : ℤ) < sackRight then
    let sb ← grow junk (sackRight - lastAck) (sackRight - lastAck + 2).toNat sb
    let last ← sb.lastSeqNo
    createEntries (sackRight - (last + 1)).toNat (last + 1) sb
  else return sb

/-- Check to see if the entry `i` is covered by the SACK block. -/
def coverEntry (sackLeft sackRight : ℤ) (p : ScoreBoard × ℕ) (i : ℕ) : ScoreBoard × ℕ :=
  let e := p.1.node i
  if sackLeft ≤ e.seqNo ∧ e.seqNo < sackRight then
    ({ p.1.write i { e with sackFlag := true, retran := false } with
        changed := if e.sackFlag then p.1.changed else p.1.changed + 1 },
      if e.retran then p.2 + 1 else p.2)
  else p

def coverBlock (sackLeft sackRight : ℤ) (retranDecr : ℕ) : ScoreBoard × ℕ :=
  (List.range' (sb.node sb.first).seqNo (sackRight - (sb.node sb.first).seqNo).toNat).foldl
    (coverEntry sackLeft sackRight) (sb, retranDecr)

/-- The loop over the blocks of the SACK header. -/
def coverBlocks : List (ℤ × ℤ) → ScoreBoard → ℕ → Except ScoreBoardError (ScoreBoard × ℕ)
  | [], sb, retranDecr => .ok (sb, retranDecr)
  | (sackLeft, sackRight) :: blocks, sb, retranDecr => do
    let sb ← sb.extend junk lastAck sackRight
    let (sb, retranDecr) := sb.coverBlock sackLeft sackRight retranDecr
    coverBlocks blocks sb retranDecr

/-- If there is no scoreboard, create one. -/
def create (blocks : List (ℤ × ℤ)) : Except ScoreBoardError ScoreBoard :=
  if sb.length = 0 ∧ blocks ≠ [] then
    { sb with first := (lastAck + 1).toNat }.append (lastAck + 1).toNat
  else .ok sb

/-- It yields `retran_decr`. -/
def updateScoreBoard (blocks : List (ℤ × ℤ)) : Except ScoreBoardError (ScoreBoard × ℕ) := do
  let (sb, retranDecr) ← { sb with changed := 0 }.advanceLeft lastAck
  let sb ← sb.create lastAck blocks
  coverBlocks junk lastAck blocks sb retranDecr

def clearScoreBoard : ScoreBoard := { sb with length := 0 }

/-- Neither acked nor sacked nor retransmitted. -/
def wanted (i : ℕ) : Bool :=
  !(sb.node i).ackFlag && !(sb.node i).sackFlag && !(sb.node i).retran

def getNextRetran : ℤ :=
  if sb.length ≠ 0 then
    match (List.range' (sb.node sb.first).seqNo sb.length).find? sb.wanted with
    | some i => i
    | none => -1
  else -1

/-- `MarkRetran`, which may be called with `snd_nxt`. -/
def markRetran (retranSeqno : ℕ) (sndNxt : Option ℤ) : ScoreBoard :=
  let e := sb.node retranSeqno
  sb.write retranSeqno { e with retran := true, sndNxt := sndNxt.getD e.sndNxt }

end ScoreBoard

/-- The calls of a sender, which retransmits what the board wants. -/
inductive ScoreBoardCall
  | updateScoreBoard (lastAck : ℤ) (blocks : List (ℤ × ℤ))
  | retransmit (sndNxt : Option ℤ)
  | clearScoreBoard

namespace ScoreBoardCall

/-- It yields `retran_decr`, if any. -/
def run (junk : ℕ → ℕ → ScoreBoardNode) (sb : ScoreBoard) :
    ScoreBoardCall → Except ScoreBoardError (ScoreBoard × ℕ)
  | .updateScoreBoard lastAck blocks => sb.updateScoreBoard junk lastAck blocks
  | .retransmit sndNxt =>
    if sb.getNextRetran = -1 then .ok (sb, 0)
    else .ok (sb.markRetran sb.getNextRetran.toNat sndNxt, 0)
  | .clearScoreBoard => .ok (sb.clearScoreBoard, 0)

end ScoreBoardCall

end Ns2XPass
