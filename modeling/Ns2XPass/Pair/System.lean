import Mathlib.Data.Fintype.Basic
import Ns2XPass.Agent.Machine

/-! # A connected pair of agents

A sender and a receiver exchange packets over two channels that may lose any
packet and deliver the packets of each type in order. Time passes at will, and
pending timers may expire at any time. Conditions on the actions narrow this
down to channels that are queues, to timers that expire when they are due, and
to a CREDIT_STOP that leaves before the next packet arrives.
-/

namespace Ns2XPass

inductive Side | sender | receiver
  deriving DecidableEq, Repr

def Side.other : Side → Side
  | .sender => .receiver
  | .receiver => .sender

instance : Fintype Side := ⟨{.sender, .receiver}, fun d => by cases d <;> decide⟩

instance : Fintype AgentTimer :=
  ⟨{.sendCredit, .creditStop, .senderRetransmit, .receiverRetransmit, .fct},
    fun t => by cases t <;> decide⟩

/-- A packet in a channel, with two facts of history that no agent reads: by how
much its sender advanced `t_seqno_` when it built it, and the number of
`advance-bytes` commands issued by then. -/
structure InFlight where
  pkt : Packet
  datalen : ℤ
  flow : ℕ
  deriving DecidableEq

structure Pair where
  clock : ℚ
  sender : XPassAgent
  receiver : XPassAgent
  toReceiver : List InFlight
  toSender : List InFlight
  flows : ℕ
  deriving DecidableEq, Inhabited

inductive PairAction
  | tick (t : ℚ)
  | advanceBytes (nb : ℤ)
  | deliver (d : Side) (i : ℕ) (r : Rand)
  | lose (d : Side) (i : ℕ)
  | expire (d : Side) (t : AgentTimer) (r : Rand)

def Effect.packet? : Effect → Option Packet
  | .send p => some p
  | .fctOut .. | .wasteOut .. => none

namespace Pair

def agent (s : Pair) : Side → XPassAgent
  | .sender => s.sender
  | .receiver => s.receiver

def inbox (s : Pair) : Side → List InFlight
  | .sender => s.toSender
  | .receiver => s.toReceiver

def setAgent (s : Pair) (x : XPassAgent) : Side → Pair
  | .sender => { s with sender := x }
  | .receiver => { s with receiver := x }

def setInbox (s : Pair) (ms : List InFlight) : Side → Pair
  | .sender => { s with toSender := ms }
  | .receiver => { s with toReceiver := ms }

/-- The packets among the effects, as they enter the channel. -/
def flight (datalen : ℤ) (flow : ℕ) (out : List Effect) : List InFlight :=
  (out.filterMap Effect.packet?).map fun p => { pkt := p, datalen := datalen, flow := flow }

/-- The agent of one side takes an input; what it sends enters the channel to the other. -/
def act (cfg : Side → Config) (s : Pair) (d : Side) (i : Input) : Except Exit Pair := do
  let (x, out) ← (s.agent d).react (cfg d) s.clock i
  let sent := flight (x.tSeqno - (s.agent d).tSeqno) s.flows out
  .ok ((s.setAgent x d).setInbox (s.inbox d.other ++ sent) d.other)

def Enabled (s : Pair) : PairAction → Prop
  | .tick t => s.clock ≤ t
  | .advanceBytes nb => 0 < nb ∧ s.sender.creditRecvState = .closed
  | .deliver d i _ => ∃ m ∈ (s.inbox d)[i]?, ∀ m' ∈ (s.inbox d).take i, m'.pkt.ptype ≠ m.pkt.ptype
  | .lose d i => i < (s.inbox d).length
  | .expire d t _ => ((s.agent d).timer t).status = .pending

def step (cfg : Side → Config) (s : Pair) : PairAction → Except Exit Pair
  | .tick t => .ok { s with clock := t }
  | .advanceBytes nb => { s with flows := s.flows + 1 }.act cfg .sender (.advanceBytes nb)
  | .deliver d i r =>
    match (s.inbox d)[i]? with
    | some m => (s.setInbox ((s.inbox d).eraseIdx i) d).act cfg d (.recv m.pkt r)
    | none => .ok s
  | .lose d i => .ok (s.setInbox ((s.inbox d).eraseIdx i) d)
  | .expire d t r => s.act cfg d (.expire t r)

instance (s : Pair) : DecidablePred s.Enabled
  | .tick t => inferInstanceAs (Decidable (s.clock ≤ t))
  | .advanceBytes nb => inferInstanceAs (Decidable (0 < nb ∧ s.sender.creditRecvState = .closed))
  | .deliver d i _ => inferInstanceAs (Decidable (∃ m ∈ (s.inbox d)[i]?, ∀ m' ∈ (s.inbox d).take i,
      m'.pkt.ptype ≠ m.pkt.ptype))
  | .lose d i => inferInstanceAs (Decidable (i < (s.inbox d).length))
  | .expire d t _ => inferInstanceAs (Decidable (((s.agent d).timer t).status = .pending))

/-- Each channel delivers its packets in the order in which they were sent. -/
def Fifo (_ : Pair) : PairAction → Prop
  | .deliver _ i _ => i = 0
  | _ => True

/-- A scheduled CREDIT_STOP leaves before its agent receives another packet. -/
def StopFirst (s : Pair) : PairAction → Prop
  | .deliver d _ _ => (s.agent d).creditStopTimer.status ≠ .pending
  | _ => True

/-- Timers expire when they are due: the clock passes no event that is pending. -/
def OnTime (s : Pair) : PairAction → Prop
  | .tick t => ∀ d k, ((s.agent d).timer k).status = .pending →
      (t : WithTop ℚ) ≤ ((s.agent d).timer k).time
  | .expire d k _ => ((s.agent d).timer k).time = s.clock
  | _ => True

/-- The actions of the simulator itself: all three conditions together. -/
def Exact (s : Pair) (x : PairAction) : Prop := s.Fifo x ∧ s.StopFirst x ∧ s.OnTime x

instance (s : Pair) : DecidablePred s.Fifo
  | .deliver _ i _ => inferInstanceAs (Decidable (i = 0))
  | .tick _ | .advanceBytes _ | .lose _ _ | .expire _ _ _ => inferInstanceAs (Decidable True)

instance (s : Pair) : DecidablePred s.StopFirst
  | .deliver d _ _ => inferInstanceAs (Decidable ((s.agent d).creditStopTimer.status ≠ .pending))
  | .tick _ | .advanceBytes _ | .lose _ _ | .expire _ _ _ => inferInstanceAs (Decidable True)

instance (s : Pair) : DecidablePred s.OnTime
  | .tick t => inferInstanceAs (Decidable (∀ d k, ((s.agent d).timer k).status = .pending →
      (t : WithTop ℚ) ≤ ((s.agent d).timer k).time))
  | .expire d k _ =>
    inferInstanceAs (Decidable (((s.agent d).timer k).time = (s.clock : WithTop ℚ)))
  | .deliver _ _ _ | .advanceBytes _ | .lose _ _ => inferInstanceAs (Decidable True)

instance (s : Pair) : DecidablePred s.Exact := fun x =>
  inferInstanceAs (Decidable (s.Fifo x ∧ s.StopFirst x ∧ s.OnTime x))

end Pair

/-- Two new agents and two empty channels. -/
def pairMachine (cfg : Side → Config) : Machine Pair PairAction Exit where
  Init s := s.sender.IsNew ∧ s.receiver.IsNew ∧ s.toReceiver = [] ∧ s.toSender = [] ∧ s.flows = 0
  Enabled := Pair.Enabled
  step := Pair.step cfg

instance (cfg : Side → Config) (s : Pair) (x : PairAction) :
    Decidable ((pairMachine cfg).Enabled s x) :=
  inferInstanceAs (Decidable (s.Enabled x))

theorem pairMachine_init (cfg : Side → Config) : (pairMachine cfg).Init default :=
  ⟨rfl, rfl, rfl, rfl, rfl⟩

end Ns2XPass
