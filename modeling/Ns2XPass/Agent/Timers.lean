import Ns2XPass.Agent.Exits
import Ns2XPass.Agent.Machine

/-! # Timers and states agree

In every state an agent can reach, each of its timers is pending exactly when
the state of its role waits for it. So no timer is lost, and the retransmission
timer of the sender never expires in a state that has no use for it.
-/

namespace Ns2XPass

namespace XPassAgent

variable {cfg : Config} {now : ℚ} {a a' : XPassAgent} {i : Input} {out : List Effect}

/-- The states of the sender role that wait for the retransmission timer. -/
def AwaitsRetransmit (a : XPassAgent) : Prop :=
  a.creditRecvState = .creditRequestSent ∨ a.creditRecvState = .creditStopSent ∨
    a.creditRecvState = .closeWait

/-- Each timer is pending when the states of the two roles wait for it, and idle otherwise. -/
structure TimersMatch (a : XPassAgent) : Prop where
  senderRetransmit : a.senderRetransmitTimer.Armed a.AwaitsRetransmit
  creditStop : a.creditStopTimer.status = .idle ∨
    a.creditStopTimer.status = .pending ∧ a.creditRecvState = .creditReceiving
  sendCredit : a.sendCreditTimer.Armed (a.creditSendState = .creditSending)
  fct : a.fctTimer.Armed (a.creditSendState = .closeWait)
  receiverRetransmit : a.receiverRetransmitTimer.Armed (a.waitRetransmission = true)

theorem TimersMatch.of_isNew (h : a.IsNew) : a.TimersMatch := by
  rw [h]
  exact ⟨.idle rfl (by simp [AwaitsRetransmit]), .inl rfl, .idle rfl (by simp),
    .idle rfl (by simp), .idle rfl (by simp)⟩

/-! ## One timer at a time -/

theorem senderRetransmit_afterCredit (h : a.senderRetransmitTimer.Armed a.AwaitsRetransmit) :
    a.afterCredit.senderRetransmitTimer.Armed a.afterCredit.AwaitsRetransmit := by
  by_cases hs : a.creditRecvState = .creditRequestSent
  · rw [afterCredit_of_requestSent hs]
    exact h.forceCancel (by simp [AwaitsRetransmit])
  · by_cases hs' : a.creditRecvState = .creditStopSent
    · rwa [afterCredit_of_stopSent hs']
    · rwa [afterCredit_eq_self hs hs']

theorem SenderMove.senderRetransmit (hm : SenderMove cfg now a i a' out)
    (h : a.senderRetransmitTimer.Armed a.AwaitsRetransmit) :
    a'.senderRetransmitTimer.Armed a'.AwaitsRetransmit := by
  cases hm with
  | advance | reopen | retry => exact .resched (.inl rfl)
  | stop | restop => exact .resched (.inr (.inl rfl))
  | linger => exact .resched (.inr (.inr rfl))
  | answerCredit _ _ _ _ hc | wasteCredit _ _ hc =>
    obtain ⟨_, _, _, _, _, _, rfl⟩ := hc
    exact senderRetransmit_afterCredit h
  | rewind => exact h
  | close => exact .idle rfl (by simp [AwaitsRetransmit])
  | unused _ hs => exact .idle rfl (by simp [AwaitsRetransmit, hs])

theorem StopTimer.creditStop {t : TimerHandler} (h : a.StopTimer now t)
    (ha : a.creditStopTimer.status = .idle ∨
      a.creditStopTimer.status = .pending ∧ a.creditRecvState = .creditReceiving) :
    t.status = .idle ∨ t.status = .pending ∧ a.creditRecvState.afterCredit = .creditReceiving := by
  rcases h with rfl | ⟨hs, _, rfl⟩
  · exact ha.imp_right fun h => ⟨h.1, by rw [h.2]; rfl⟩
  · exact .inr ⟨rfl, hs⟩

theorem SenderMove.creditStop (hm : SenderMove cfg now a i a' out)
    (hi : ∀ nb, i = .advanceBytes nb → a.creditRecvState = .closed)
    (h : a.creditStopTimer.status = .idle ∨
      a.creditStopTimer.status = .pending ∧ a.creditRecvState = .creditReceiving) :
    a'.creditStopTimer.status = .idle ∨
      a'.creditStopTimer.status = .pending ∧ a'.creditRecvState = .creditReceiving := by
  -- a move out of another state finds the timer idle
  have idle : a.creditRecvState ≠ .creditReceiving → a.creditStopTimer.status = .idle :=
    fun hs => h.resolve_right fun h => hs h.2
  cases hm with
  | advance => exact .inl (idle (by simp [hi _ rfl]))
  | answerCredit _ _ _ _ hc | wasteCredit _ _ hc =>
    obtain ⟨_, _, _, _, _, ht, rfl⟩ := hc
    exact ht.creditStop h
  | reopen _ hs => exact .inl (idle (by rcases hs with hs | hs | hs <;> simp [hs]))
  | stop => exact .inl rfl
  | retry _ hs => exact .inl (idle (by rcases hs with hs | ⟨hs, _⟩ <;> simp [hs]))
  | linger _ hs | close _ hs | restop _ hs => exact .inl (idle (by simp [hs]))
  | rewind | unused => exact h

theorem ReceiverMove.sendCredit (hm : ReceiverMove cfg now a i a' out)
    (h : a.sendCreditTimer.Armed (a.creditSendState = .creditSending))
    (hf : a.fctTimer.Armed (a.creditSendState = .closeWait)) :
    a'.sendCreditTimer.Armed (a'.creditSendState = .creditSending) := by
  cases hm with
  | acceptRequest => exact .resched rfl
  | stopCredits => exact h.forceCancel (by simp)
  | credit hp => exact .resched (h.pending_iff.mp hp)
  | record hp => exact .idle (h.idle_iff.mpr (by simp [hf.pending_iff.mp hp])) (by simp)
  | _ => exact h

theorem ReceiverMove.fct (hm : ReceiverMove cfg now a i a' out)
    (h : a.fctTimer.Armed (a.creditSendState = .closeWait)) :
    a'.fctTimer.Armed (a'.creditSendState = .closeWait) := by
  cases hm with
  | acceptRequest _ hs =>
    rcases hs with ⟨hs, rfl⟩ | ⟨_, rfl⟩
    · exact .idle (h.idle_iff.mpr (by simp [hs])) (by simp)
    · exact h.forceCancel (by simp)
  | stopCredits => exact .resched rfl
  | record => exact .idle rfl (by simp)
  | _ => exact h

theorem ReceiverMove.receiverRetransmit (hm : ReceiverMove cfg now a i a' out)
    (h : a.receiverRetransmitTimer.Armed (a.waitRetransmission = true)) :
    a'.receiverRetransmitTimer.Armed (a'.waitRetransmission = true) := by
  cases hm with
  | firstGap => exact .resched rfl
  | nextData =>
    by_cases hw : a.waitRetransmission = true
    · simpa [hw] using h.forceCancel (Q := False) id
    · simpa [hw] using h
  | renack _ hw => exact .resched hw
  | settled _ hw => exact .idle rfl (by simp [hw])
  | _ => exact h

/-! ## All timers -/

theorem TimersMatch.senderMove (h : a.TimersMatch) (hm : SenderMove cfg now a i a' out)
    (hi : ∀ nb, i = .advanceBytes nb → a.creditRecvState = .closed) : a'.TimersMatch where
  senderRetransmit := hm.senderRetransmit h.senderRetransmit
  creditStop := hm.creditStop hi h.creditStop
  sendCredit := by rw [hm.frame.sendCreditTimer, hm.frame.creditSendState]; exact h.sendCredit
  fct := by rw [hm.frame.fctTimer, hm.frame.creditSendState]; exact h.fct
  receiverRetransmit := by
    rw [hm.frame.receiverRetransmitTimer, hm.frame.waitRetransmission]
    exact h.receiverRetransmit

theorem TimersMatch.receiverMove (h : a.TimersMatch) (hm : ReceiverMove cfg now a i a' out) :
    a'.TimersMatch where
  senderRetransmit := by
    rw [hm.frame.senderRetransmitTimer, AwaitsRetransmit, hm.frame.creditRecvState]
    exact h.senderRetransmit
  creditStop := by
    rw [hm.frame.creditStopTimer, hm.frame.creditRecvState]
    exact h.creditStop
  sendCredit := hm.sendCredit h.sendCredit h.fct
  fct := hm.fct h.fct
  receiverRetransmit := hm.receiverRetransmit h.receiverRetransmit

theorem TimersMatch.move (h : a.TimersMatch) (hm : Move cfg now a i a' out)
    (hi : ∀ nb, i = .advanceBytes nb → a.creditRecvState = .closed) : a'.TimersMatch := by
  cases hm with
  | sender hm => exact h.senderMove hm hi
  | receiver hm => exact h.receiverMove hm
  | unknown _ _ ha => exact ha ▸ h

end XPassAgent

theorem timersMatch_invariant (cfg : Config) :
    (agentMachine cfg).Invariant fun s => s.agent.TimersMatch where
  init _ hi := .of_isNew hi
  step s x s' h he hs := by
    cases x with
    | tick t => cases hs; exact h
    | input i =>
      obtain ⟨_, hr, _⟩ := AgentState.step_input_iff.mp hs
      apply h.move (XPassAgent.react_move hr)
      rintro nb rfl
      exact he

open XPassAgent in
/-- In every state an agent reaches its timers serve their states, and none of its
inputs takes the exit of `handle_sender_retransmit`. -/
theorem timers_serve_states (cfg : Config) {s : AgentState} (h : (agentMachine cfg).Reachable s) :
    (s.agent.senderRetransmitTimer.status = .pending ↔
      s.agent.creditRecvState = .creditRequestSent ∨ s.agent.creditRecvState = .creditStopSent ∨
        s.agent.creditRecvState = .closeWait) ∧
    (s.agent.creditStopTimer.status = .pending → s.agent.creditRecvState = .creditReceiving) ∧
    (s.agent.sendCreditTimer.status = .pending ↔ s.agent.creditSendState = .creditSending) ∧
    (s.agent.fctTimer.status = .pending ↔ s.agent.creditSendState = .closeWait) ∧
    (s.agent.receiverRetransmitTimer.status = .pending ↔ s.agent.waitRetransmission = true) ∧
    (∀ r, s.Enabled (.input (.expire .senderRetransmit r)) →
      s.agent.creditRecvState ≠ .closed ∧ s.agent.creditRecvState ≠ .creditReceiving) ∧
    ∀ x, s.Enabled x → s.step cfg x ≠ .error .senderRetransmitWhileClosed := by
  have ht := (timersMatch_invariant cfg).reachable h
  have hexpire : s.agent.senderRetransmitTimer.status = .pending →
      s.agent.creditRecvState ≠ .closed ∧ s.agent.creditRecvState ≠ .creditReceiving := by
    intro hp
    rcases ht.senderRetransmit.pending_iff.mp hp with hs | hs | hs <;> simp [hs]
  refine ⟨ht.senderRetransmit.pending_iff, ?_, ht.sendCredit.pending_iff,
    ht.fct.pending_iff, ht.receiverRetransmit.pending_iff, fun r => hexpire, ?_⟩
  · intro hp
    exact (ht.creditStop.resolve_left (by simp [hp])).2
  · intro x hx hs
    cases x with
    | tick t => cases hs
    | input i =>
      cases hr : s.agent.react cfg s.clock i with
      | ok r => simp [AgentState.step, hr, Except.map] at hs
      | error e =>
        simp only [AgentState.step, hr, Except.map, Except.error.injEq] at hs
        subst hs
        cases react_stops hr with
        | closed hc => exact (hexpire hx).1 hc

theorem timers_serve_states_after_request :
    ∃ s, (agentMachine {}).Reachable s ∧ s.agent.creditRecvState = .creditRequestSent ∧
      s.agent.senderRetransmitTimer.status = .pending := by
  obtain ⟨s, hr, hs⟩ := (Machine.Reachable.init (M := agentMachine {}) (s := default)
    rfl).exists_of_exec [.input (.advanceBytes 1460)]
    (fun s => s.agent.creditRecvState = .creditRequestSent) (by decide)
  have hs := of_decide_eq_true hs
  exact ⟨s, hr, hs, (timers_serve_states {} hr).1.mpr (.inl hs)⟩

end Ns2XPass
