import Ns2XPass.Dccp.TimerRuns

/-! # The connections of a listening DCCP agent

A server that is reset goes back to listening and forgets that it is a server. The
next connection is then its last one: after it the agent is closed.
-/

namespace Ns2XPass

namespace DccpControl

open Relation

variable {cfg : DccpConfig} {c c' : DccpControl}

/-- The connections that an agent will still accept, unless it is told to listen again. -/
def acceptable (c : DccpControl) : ℕ :=
  (if c.state = .listen then 1 else 0) + if c.server then 1 else 0

theorem acceptable_reset_le (c : DccpControl) : c.reset.acceptable ≤ c.acceptable := by
  unfold DccpControl.reset acceptable
  cases c.server <;> by_cases h : c.state = .listen <;> simp [h]

theorem Enters.ne_listen {state : DccpState} (h : c.Enters state) :
    state ≠ .listen ∧ state ≠ .respond := by
  cases h <;> exact ⟨by simp, by simp⟩

/-- No move makes an agent accept more, and a connection is opened at a server by a Request only. -/
theorem Move.acceptable_le (hm : Move cfg c c') :
    c'.acceptable ≤ c.acceptable ∧ (c'.state = .respond → c.state = .respond) := by
  cases hm with
  | quiet _ _ => exact ⟨le_rfl, id⟩
  | again _ => exact ⟨le_rfl, id⟩
  | retry _ _ => exact ⟨le_rfl, id⟩
  | enter he =>
    refine ⟨?_, fun h => absurd h he.ne_listen.2⟩
    simp [acceptable, he.ne_listen.1]
  | establish _ => exact ⟨by simp [acceptable], by simp⟩
  | reset =>
    refine ⟨acceptable_reset_le c, fun h => ?_⟩
    simp only [DccpControl.reset] at h
    split at h <;> cases h
  | leave _ => exact ⟨by simp [acceptable], by simp⟩
  | rtxFault _ _ => exact ⟨le_rfl, id⟩
  | sndFault _ _ => exact ⟨le_rfl, id⟩

theorem acceptable_le_of_moves (hm : ReflTransGen (Move cfg) c c') :
    c'.acceptable ≤ c.acceptable ∧ (c'.state = .respond → c.state = .respond) := by
  induction hm with
  | refl => exact ⟨le_rfl, id⟩
  | tail _ hm ih => exact ⟨hm.acceptable_le.1.trans ih.1, ih.2 ∘ hm.acceptable_le.2⟩

theorem acceptable_accept (hs : c.state = .listen) : c.accept.acceptable + 1 = c.acceptable := by
  obtain ⟨state, server, _⟩ := c
  obtain rfl : state = .listen := hs
  cases server <;> rfl

theorem acceptable_listen_le : c.listen.acceptable ≤ c.acceptable + 2 := by
  simp [listen, acceptable]

end DccpControl

namespace DccpAgent

open DccpControl

variable {cfg : DccpConfig}

/-- How often an agent was made to listen, and how many connections it accepted. -/
structure Served where
  listens : ℕ := 0
  accepted : ℕ := 0

def isListen : DccpEvent → Bool
  | .listen => true
  | .sendmsg _ _ | .advanceby _ | .close | .recv _ _ | .timeoutRtx | .timeoutSnd
  | .callbackReturns => false

def serve (s : DccpAgent) (x : DccpEvent) (s' : DccpAgent) (g : Served) : Served where
  listens := g.listens + if isListen x && s.state = .closed then 1 else 0
  accepted := g.accepted + if s.state = .listen ∧ s'.state = .respond then 1 else 0

theorem acceptable_invariant (cfg : DccpConfig) : ((dccpMachine cfg).withHistory {} serve).Invariant
    fun p => p.2.accepted + p.1.control.acceptable ≤ 2 * p.2.listens where
  init p hi := by
    obtain ⟨s, g⟩ := p
    obtain ⟨rfl, rfl⟩ := hi
    exact le_rfl
  step p x p' hI he hs := by
    obtain ⟨hstep, hg⟩ := (Machine.withHistory_step_iff {}).mp hs
    rw [hg]
    simp only [serve]
    rcases step_cases he hstep with (hm | ⟨hl, hc⟩) | ⟨rfl, hcl, hc⟩
    · obtain ⟨hle, hresp⟩ := acceptable_le_of_moves hm
      have hno : ¬ (p.1.state = .listen ∧ p'.1.state = .respond) := by
        rintro ⟨hl, hr⟩
        have := hresp hr
        rw [show p.1.control.state = .listen from hl] at this
        cases this
      rw [if_neg hno]
      omega
    · have hle := acceptable_accept (c := p.1.control) hl
      rw [hc]
      split <;> omega
    · have hle := acceptable_listen_le (c := p.1.control)
      have hlistens : (isListen .listen && decide (p.1.state = .closed)) = true := by
        rw [hcl]
        rfl
      have hno : ¬ (p.1.state = .listen ∧ p'.1.state = .respond) := by
        rw [hcl]
        simp
      rw [hc, if_pos hlistens, if_neg hno]
      omega

/-- A listening agent accepts at most two connections before it has to be told to listen again. -/
theorem accepted_le {p : DccpAgent × Served}
    (h : ((dccpMachine cfg).withHistory {} serve).Reachable p) :
    p.2.accepted ≤ 2 * p.2.listens :=
  (Nat.le_add_right _ _).trans ((acceptable_invariant cfg).reachable h)

/-- Two clients ask for a connection, one after the other, and each of them takes it back. -/
def twoRequests : List DccpEvent :=
  let request : DccpEvent := .recv ⟨.request, 1, 0, false, 0⟩ ⟨true, false, false, none⟩
  let giveUp : DccpEvent := .recv ⟨.close, 2, 0, false, 0⟩ ⟨true, false, false, none⟩
  [.listen, request, giveUp, request]

theorem accepted_le_two : ∃ p : DccpAgent × Served,
    ((dccpMachine defaults).withHistory {} serve).Reachable p ∧
      p.2.accepted = 2 ∧ p.2.accepted ≤ 2 * p.2.listens := by
  obtain ⟨p, h, hp⟩ := Machine.Reachable.exists_of_exec
    (M := (dccpMachine defaults).withHistory {} serve) (s := (DccpAgent.new defaults, {}))
    (.init ⟨rfl, rfl⟩) twoRequests (fun p => p.2.accepted = 2) (by decide +kernel)
  exact ⟨p, h, of_decide_eq_true hp, accepted_le h⟩

end DccpAgent

end Ns2XPass
