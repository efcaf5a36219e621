import Ns2XPass.Agent.Machine
import Ns2XPass.Agent.Moves

/-! # Leaving XPASS_RECV_CLOSE_WAIT

`handle_sender_retransmit` decides between closing and a further CREDIT_STOP by
`credit_recved_`, which nothing increments in XPASS_RECV_CLOSE_WAIT. So the
sender closes whatever it has received there.
-/

namespace Ns2XPass

/-- The number of CREDITs received since XPASS_RECV_CLOSE_WAIT was entered. -/
def creditsInCloseWait (s : AgentState) (x : AgentAction) (_ : AgentState) (n : ℕ) : ℕ :=
  if s.agent.creditRecvState = .closeWait then
    match x with
    | .input (.recv p _) => if p.ptype = .xpassCredit then n + 1 else n
    | _ => n
  else 0

def closeWaitMachine (cfg : Config) : Machine (AgentState × ℕ) AgentAction Exit :=
  (agentMachine cfg).withHistory 0 creditsInCloseWait

instance (cfg : Config) (s : AgentState × ℕ) (x : AgentAction) :
    Decidable ((closeWaitMachine cfg).Enabled s x) :=
  inferInstanceAs (Decidable (s.1.Enabled x))

namespace XPassAgent

variable {cfg : Config} {now : ℚ} {a a' : XPassAgent} {i : Input} {out : List Effect} {n : ℕ}

/-- A reaction leaves XPASS_RECV_CLOSE_WAIT for XPASS_RECV_CLOSED only if no CREDIT has come
there, and the timer of that state repeats the CREDIT_STOP if one has. -/
structure HeedsCredits (cfg : Config) (a : XPassAgent) (n : ℕ) (i : Input) (a' : XPassAgent)
    (out : List Effect) : Prop where
  close : a.creditRecvState = .closeWait → a'.creditRecvState = .closed → n = 0
  restop : a.creditRecvState = .closeWait → 0 < n → (∃ r, i = .expire .senderRetransmit r) →
    a'.creditRecvState = .creditStopSent ∧ .send (a.constructCreditStop cfg) ∈ out

/-- The counter that is tested in XPASS_RECV_CLOSE_WAIT. -/
def NoneCounted (a : XPassAgent) : Prop := a.creditRecvState = .closeWait → a.creditRecved = 0

theorem NoneCounted.afterCredit (h : a.NoneCounted) : a.afterCredit.NoneCounted := by
  intro hs
  cases ha : a.creditRecvState <;>
    simp_all [XPassAgent.afterCredit, RecvState.afterCredit, NoneCounted]

theorem SenderMove.noneCounted (hm : SenderMove cfg now a i a' out) (h : a.NoneCounted) :
    a'.NoneCounted := by
  cases hm with
  | answerCredit _ _ _ _ hc | wasteCredit _ _ hc =>
    obtain ⟨_, _, _, _, _, _, rfl⟩ := hc
    exact h.afterCredit
  | rewind => exact h
  | linger => intro _; rfl
  | unused _ hs => exact fun hs' => h hs'
  | _ => intro hs; cases hs

theorem Move.noneCounted (hm : Move cfg now a i a' out) (h : a.NoneCounted) :
    a'.NoneCounted := by
  cases hm with
  | sender hm => exact hm.noneCounted h
  | receiver hm =>
    rw [NoneCounted, hm.frame.creditRecvState, hm.frame.creditRecved]
    exact h
  | unknown _ _ ha => exact ha ▸ h

theorem SenderMove.expire_of_close (hm : SenderMove cfg now a i a' out)
    (hs : a.creditRecvState = .closeWait) (hs' : a'.creditRecvState = .closed) :
    ∃ r, i = .expire .senderRetransmit r := by
  cases hm with
  | answerCredit _ _ _ _ hc | wasteCredit _ _ hc =>
    obtain ⟨_, _, _, _, _, _, rfl⟩ := hc
    simp [afterCredit, hs, RecvState.afterCredit] at hs'
  | rewind => simp [hs] at hs'
  | close => exact ⟨_, rfl⟩
  | unused => exact ⟨_, rfl⟩
  | _ => cases hs'

theorem Move.expire_of_close (hm : Move cfg now a i a' out)
    (hs : a.creditRecvState = .closeWait) (hs' : a'.creditRecvState = .closed) :
    ∃ r, i = .expire .senderRetransmit r := by
  cases hm with
  | sender hm => exact hm.expire_of_close hs hs'
  | receiver hm => simp [hm.frame.creditRecvState, hs] at hs'
  | unknown _ _ ha => simp [ha, hs] at hs'

/-- With nothing counted, the timer of XPASS_RECV_CLOSE_WAIT closes. -/
theorem SenderMove.closed_of_expire {r : Rand}
    (hm : SenderMove cfg now a (.expire .senderRetransmit r) a' out) (h : a.NoneCounted)
    (hs : a.creditRecvState = .closeWait) : a'.creditRecvState = .closed := by
  cases hm with
  | retry _ hr => simp [hs] at hr
  | linger _ hr | unused _ hr => simp [hs] at hr
  | close => rfl
  | restop _ _ hc => exact absurd (h hs) hc

end XPassAgent

open XPassAgent

theorem noneCounted_invariant (cfg : Config) :
    (agentMachine cfg).Invariant fun s => s.agent.NoneCounted where
  init _ hi := by rw [hi]; intro hs; cases hs
  step s x s' h he hs := by
    cases x with
    | tick t => cases hs; exact h
    | input i =>
      obtain ⟨_, hr, _⟩ := AgentState.step_input_iff.mp hs
      exact (react_move hr).noneCounted h

/-- In every run, a step heeds the CREDITs that came in XPASS_RECV_CLOSE_WAIT exactly when
it is not the expiry of that state's timer after some have come. -/
theorem heedsCredits_iff (cfg : Config) {s : AgentState} {n : ℕ} {i : Input} {a' : XPassAgent}
    {out : List Effect} (h : (closeWaitMachine cfg).Reachable (s, n))
    (hr : s.agent.react cfg s.clock i = .ok (a', out)) :
    s.agent.HeedsCredits cfg n i a' out ↔
      ((∃ r, i = .expire .senderRetransmit r) → s.agent.creditRecvState = .closeWait → n = 0) := by
  have hn := (noneCounted_invariant cfg).reachable h.of_withHistory
  constructor
  · rintro hc ⟨r, rfl⟩ hs
    have hm := senderMove_of_react (i := .expire .senderRetransmit r) (Or.inr rfl) hr
    exact hc.close hs (hm.closed_of_expire hn hs)
  · intro hi
    constructor
    · intro hs hs'
      exact hi ((react_move hr).expire_of_close hs hs') hs
    · intro hs hpos he
      exact absurd (hi he hs) hpos.ne'

/-- A flow of one packet, up to XPASS_RECV_CLOSE_WAIT. -/
def onePacketFlow : List AgentAction :=
  [.input (.advanceBytes 1460),
    .input (.recv { ptype := .xpassCredit, size := 84 } default),
    .input (.expire .creditStop default),
    .input (.expire .senderRetransmit default)]

theorem heedsCredits_of_none :
    ∃ s a' out, (closeWaitMachine {}).Reachable (s, 0) ∧ s.agent.creditRecvState = .closeWait ∧
      s.agent.HeedsCredits {} 0 (.expire .senderRetransmit default) a' out := by
  obtain ⟨⟨s, n⟩, hr, hp⟩ := (Machine.Reachable.init (M := closeWaitMachine {})
    (s := (default, 0)) ⟨rfl, rfl⟩).exists_of_exec onePacketFlow
    (fun s => s.2 = 0 ∧ s.1.agent.creditRecvState = .closeWait ∧
      (s.1.agent.react {} s.1.clock (.expire .senderRetransmit default)).toOption.isSome)
    (by decide +kernel)
  obtain ⟨hn, hs, hc⟩ := of_decide_eq_true hp
  dsimp only at hn hs hc
  subst hn
  cases he : s.agent.react {} s.clock (.expire .senderRetransmit default) with
  | error e => rw [he] at hc; cases hc
  | ok x => exact ⟨s, x.1, x.2, hr, hs, (heedsCredits_iff {} hr he).mpr fun _ _ => rfl⟩

/-- A CREDIT received in XPASS_RECV_CLOSE_WAIT does not keep the sender from closing. -/
theorem closes_after_credit :
    ∃ s n r a' out, (closeWaitMachine {}).Reachable (s, n) ∧
      s.agent.react {} s.clock (.expire .senderRetransmit r) = .ok (a', out) ∧
      ¬ s.agent.HeedsCredits {} n (.expire .senderRetransmit r) a' out := by
  obtain ⟨⟨s, n⟩, hr, hp⟩ := (Machine.Reachable.init (M := closeWaitMachine {})
    (s := (default, 0)) ⟨rfl, rfl⟩).exists_of_exec
    (onePacketFlow ++ [.input (.recv { ptype := .xpassCredit, size := 84 } default)])
    (fun s => s.2 = 1 ∧ s.1.agent.creditRecvState = .closeWait ∧
      (s.1.agent.react {} s.1.clock (.expire .senderRetransmit default)).toOption.any
        (·.1.creditRecvState = .closed)) (by decide +kernel)
  obtain ⟨hn, hs, hc⟩ := of_decide_eq_true hp
  dsimp only at hn hs hc
  subst hn
  cases he : s.agent.react {} s.clock (.expire .senderRetransmit default) with
  | error e => rw [he] at hc; cases hc
  | ok x =>
    rw [he] at hc
    refine ⟨s, 1, default, x.1, x.2, hr, he, fun hh => ?_⟩
    exact absurd (hh.close hs (of_decide_eq_true hc)) (by decide)

end Ns2XPass
