import Mathlib.Data.Int.Bitwise
import Ns2XPass.Library.Machine
import Ns2XPass.Queue.WeightMatrix

/-! # Smoothed round robin

Each queue has as many nodes in the weight matrix as its weight has bits. A node
that becomes the current one gives its queue a quantum of bytes, and the queue
sends packets as long as its bytes suffice. The packet that `deque` returns is
taken out of the books by the next `deque`.
-/

namespace Ns2XPass

/-- `MAXFLOW`, the length of the arrays. -/
def maxFlow : ℕ := 100

/-- `MAXQUEUE` -/
def maxQueue : ℕ := 100

/-- The rates that `setrate` raises a rate to, and that it refuses to go beyond. -/
def minRate : ℤ := 1000

def maxRate : ℤ := 100000000

structure SRR (α : Type) where
  qlim : ℤ
  f2q : ℕ → ℕ
  maxqueuenumber : ℕ := 10
  mtu : ℤ := 1000
  granularity : ℤ := 1000
  privateRate : ℕ → ℤ := fun _ => 1000
  packets : ℕ → List α := fun _ => []
  pkts : ℕ → ℤ := fun _ => 0
  bcount : ℕ → ℤ := fun _ => 0
  deficitCounter : ℕ → ℤ := fun _ => 0
  turn : ℕ → Bool := fun _ => false
  pktcnt : ℤ := 0
  bytecnt : ℤ := 0
  flwcnt : ℤ := 0
  lastQueueid : Option ℕ := none
  lastSize : ℤ := 0
  maxColumn : ℕ := 0
  matrix : WeightMatrix := {}

inductive SRRCall (α : Type)
  | enque (p : α)
  | deque
  | setrate (queue : ℕ) (rate : ℤ)

/-- The loop of `getOrder`, for at most `n` bits. -/
def orderFrom (i : ℤ) : ℕ → ℕ → ℕ
  | 0, order => order
  | n + 1, order => if 2 ^ order ≤ i then orderFrom i n (order + 1) else order

def getOrder (i : ℤ) : ℕ := orderFrom i 31 0 - 1

namespace SRR

section Calls

variable {α : Type} (flowid : α → ℕ) (size : α → ℤ) (s : SRR α) (p : α) (q : ℕ)

def queueid : ℕ := s.f2q (flowid p)

def weight : ℤ := (s.privateRate q).tdiv s.granularity

/-- `enque` up to the weight matrix. -/
def accept : SRR α :=
  let q := s.queueid flowid p
  { s with
    packets := Function.update s.packets q (s.packets q ++ [p])
    pkts := Function.update s.pkts q (s.pkts q + 1)
    pktcnt := s.pktcnt + 1
    bcount := Function.update s.bcount q (s.bcount q + size p)
    bytecnt := s.bytecnt + size p }

/-- The queue becomes active. -/
def activate : Except SRRError (SRR α) :=
  (s.matrix.addToWM q s.maxColumn (s.weight q)).map fun m =>
    { s with
      matrix := m
      flwcnt := s.flwcnt + 1
      deficitCounter := Function.update s.deficitCounter q 0 }

def enque : Except SRRError (SRR α) :=
  let q := s.queueid flowid p
  if s.maxqueuenumber < q then .error .queueidTooBig
  else if s.pkts q = s.qlim then .ok s
  else
    let s := s.accept flowid size p
    if s.pkts q = 1 then s.activate q else .ok s

/-- The queue has sent its last packet. -/
def idle : Except SRRError (SRR α) :=
  (s.matrix.delFromWM q).map fun m =>
    { s with
      turn := Function.update s.turn q false
      deficitCounter := Function.update s.deficitCounter q 0
      matrix := m
      flwcnt := s.flwcnt - 1
      lastQueueid := if m.wmEmptyFlag then none else s.lastQueueid }

/-- The packet that the last `deque` has returned leaves the books. -/
def settle : Except SRRError (SRR α) :=
  match s.lastQueueid with
  | none => .ok s
  | some q =>
    let s := { s with
      bcount := Function.update s.bcount q (s.bcount q - s.lastSize)
      pkts := Function.update s.pkts q (s.pkts q - 1)
      pktcnt := s.pktcnt - 1
      bytecnt := s.bytecnt - s.lastSize }
    if s.pkts q = 0 then s.idle q else .ok s

/-- A queue that is not on its turn gets a quantum. -/
def grant : SRR α :=
  if s.turn q then s
  else { s with
    deficitCounter := Function.update s.deficitCounter q (s.deficitCounter q + s.mtu)
    turn := Function.update s.turn q true }

/-- The queues that `grant` gives a quantum to. -/
def granted : List ℕ := if s.turn q then [] else [q]

def send : SRR α :=
  { s with
    deficitCounter := Function.update s.deficitCounter q (s.deficitCounter q - size p)
    packets := Function.update s.packets q (s.packets q).tail
    lastSize := size p
    lastQueueid := some q }

/-- The queue has too few bytes left for its first packet. -/
def pass : Except SRRError (SRR α) :=
  let s := { s with turn := Function.update s.turn q false }
  if s.bytecnt = 0 then .ok s else s.matrix.getNextNode.map fun m => { s with matrix := m }

/-- The loop of `deque`, with the queues that it has given a quantum to. -/
def serveFrom : ℕ → SRR α → Except SRRError ((α × List ℕ) × SRR α)
  | 0, _ => .error .outOfSteps
  | n + 1, s =>
    match s.matrix.pwmCurr with
    | none => .error .nullPointer
    | some ⟨q, _⟩ =>
      match (s.packets q).head? with
      | none => .error .wrongPlace
      | some p =>
        if s.queueid flowid p ≠ q then .error .wrongQueue
        else if size p ≤ (s.grant q).deficitCounter q then
          .ok ((p, s.granted q), (s.grant q).send size p q)
        else do
          let s' ← (s.grant q).pass q
          let ((p, l), s') ← serveFrom n s'
          .ok ((p, s.granted q ++ l), s')

/-- A bound for the steps of `deque`: no queue gets more quanta without sending than its first
packet has bytes. -/
def steps : ℕ := s.bytecnt.toNat + 2

def deque : Except SRRError ((Option α × List ℕ) × SRR α) := do
  let s ← s.settle
  if s.pktcnt < 0 then .error .negativeCount
  else if s.pktcnt = 0 then .ok ((none, []), { s with lastQueueid := none })
  else if s.matrix.pwmCurr = none then .error .noCurrent
  else (serveFrom flowid size s.steps s).map fun r => ((some r.1.1, r.1.2), r.2)

/-- The branch of `command` that sets the rate of a queue. -/
def setrate (rate : ℤ) : Except SRRError (SRR α) :=
  if maxQueue < q then .error .queueidTooBig
  else
    let rate := if rate < minRate then minRate else rate
    if maxRate < rate then .error .rateTooHigh
    else
      let s := { s with privateRate := Function.update s.privateRate q rate }
      let success := s.weight q
      let temp := getOrder (if success = 0 then 1 else success)
      let s := { s with maxColumn := max s.maxColumn temp }
      if maxWssOrder - 1 < s.maxColumn then .error .bandTooBig else .ok s

def step : SRRCall α → Except SRRError (SRR α)
  | .enque p => s.enque flowid size p
  | .deque => (s.deque flowid size).map (·.2)
  | .setrate q rate => s.setrate q rate

/-- The rate of the queue is at least the granularity, and the matrix is wide enough for it. -/
def Fits : Prop :=
  s.granularity ≤ s.privateRate q ∧ s.weight q < 2 ^ (s.maxColumn + 1)

def Enabled (max : ℕ) : SRRCall α → Prop
  | .enque p => s.queueid flowid p < maxFlow ∧ s.queueid flowid p ≤ s.maxqueuenumber ∧
      s.Fits (s.queueid flowid p) ∧ 0 < size p ∧ size p ≤ max
  | .deque => True
  | .setrate q rate => q < maxFlow ∧ s.granularity ≤ rate ∧ rate ≤ maxRate ∧
      (Max.max minRate rate).tdiv s.granularity < 2 ^ maxWssOrder

end Calls

end SRR

end Ns2XPass
