import Ns2XPass.Agent.Handlers
import Ns2XPass.Library.Machine

/-! # One agent and its surroundings

The application, the network and the scheduler act on an agent in any order:
commands, packets with any contents and expiries of pending timers, at a clock
that never goes back.
-/

namespace Ns2XPass

structure AgentState where
  agent : XPassAgent
  clock : ℚ
  deriving Inhabited

inductive AgentAction
  | tick (t : ℚ)
  | input (i : Input)

namespace AgentState

/-- The application issues `advance-bytes` only in XPASS_RECV_CLOSED, and the
scheduler dispatches only events in its queue. -/
def Enabled (s : AgentState) : AgentAction → Prop
  | .tick t => s.clock ≤ t
  | .input (.advanceBytes _) => s.agent.creditRecvState = .closed
  | .input (.recv _ _) => True
  | .input (.expire t _) => (s.agent.timer t).status = .pending

instance (s : AgentState) : DecidablePred s.Enabled
  | .tick t => inferInstanceAs (Decidable (s.clock ≤ t))
  | .input (.advanceBytes _) => inferInstanceAs (Decidable (s.agent.creditRecvState = .closed))
  | .input (.recv _ _) => inferInstanceAs (Decidable True)
  | .input (.expire t _) => inferInstanceAs (Decidable ((s.agent.timer t).status = .pending))

def step (cfg : Config) (s : AgentState) : AgentAction → Except Exit AgentState
  | .tick t => .ok { s with clock := t }
  | .input i => (s.agent.react cfg s.clock i).map fun r => { s with agent := r.1 }

theorem step_input_iff {cfg : Config} {s s' : AgentState} {i : Input} :
    s.step cfg (.input i) = .ok s' ↔
      ∃ out, s.agent.react cfg s.clock i = .ok (s'.agent, out) ∧ s'.clock = s.clock := by
  obtain ⟨a', c'⟩ := s'
  simp only [step]
  cases s.agent.react cfg s.clock i with
  | error e => simp [Except.map]
  | ok r =>
    obtain ⟨a, out⟩ := r
    simp only [Except.map, Except.ok.injEq, AgentState.mk.injEq, Prod.mk.injEq]
    constructor
    · rintro ⟨rfl, rfl⟩; exact ⟨out, ⟨rfl, rfl⟩, rfl⟩
    · rintro ⟨_, ⟨rfl, _⟩, rfl⟩; exact ⟨rfl, rfl⟩

end AgentState

def agentMachine (cfg : Config) : Machine AgentState AgentAction Exit where
  Init s := s.agent.IsNew
  Enabled := AgentState.Enabled
  step := AgentState.step cfg

instance (cfg : Config) (s : AgentState) (x : AgentAction) :
    Decidable ((agentMachine cfg).Enabled s x) :=
  inferInstanceAs (Decidable (s.Enabled x))

end Ns2XPass
