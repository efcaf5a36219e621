import Ns2XPass.Agent.Moves

/-! # Where an agent stops the simulation

Each error of a reaction has one of the causes below.
-/

namespace Ns2XPass

namespace XPassAgent

variable {cfg : Config} {now : ℚ} {a : XPassAgent} {e : Exit}

inductive Stops (cfg : Config) (a : XPassAgent) : Input → Exit → Prop where
  | senderRetransmitBusy {nb : ℤ} : a.senderRetransmitTimer.status ≠ .idle →
      Stops cfg a (.advanceBytes nb) (.timer .schedNotIdle)
  | fctBusy {p : Packet} {r : Rand} : p.ptype = .xpassCreditStop → a.fctTimer.status ≠ .idle →
      Stops cfg a (.recv p r) (.timer .schedNotIdle)
  | creditStopBusy {p : Packet} {r : Rand} : p.ptype = .xpassCredit →
      a.creditStopTimer.status ≠ .idle → Stops cfg a (.recv p r) .creditStopTimerScheduledTwice
  | dataLength {p : Packet} {r : Rand} : p.ptype = .xpassCredit → 0 < a.datalenRemaining →
      a.datalen cfg ≤ 0 → Stops cfg a (.recv p r) .dataLength
  | creditSequence {p : Packet} {r : Rand} : p.ptype = .xpassData →
      wrap32 (p.creditSeq - a.cRecvNext) < 0 → Stops cfg a (.recv p r) .creditSequenceReverted
  | negativeLength {p : Packet} {r : Rand} : p.ptype = .xpassData → p.size - p.hlen < 0 →
      Stops cfg a (.recv p r) .negativeLength
  | creditSizes {i : Input} : cfg.maxCreditSize < cfg.minCreditSize → Stops cfg a i .creditSizes
  | jitterBounds {i : Input} : cfg.maxJitter < cfg.minJitter → Stops cfg a i .jitterBounds
  | closed {r : Rand} : a.creditRecvState = .closed →
      Stops cfg a (.expire .senderRetransmit r) .senderRetransmitWhileClosed
  | notPending {t : AgentTimer} {r : Rand} : (a.timer t).status ≠ .pending →
      Stops cfg a (.expire t r) (.timer .handleNotPending)

theorem sendCredit_eq_error {i : Input} {r : Rand} {b : XPassAgent}
    (h : b.sendCredit cfg now r = .error e) : Stops cfg a i e := by
  simp only [sendCredit, constructCredit, bind_eq_error, bind_eq_ok, Prod.exists] at h
  rcases h with (h | ⟨_, _, h⟩) | ⟨_, _, _, h⟩
  · unfold creditSize at h
    split_ifs at h with h₁ h₂
    obtain rfl := Except.error.inj h
    exact .creditSizes (lt_of_le_of_ne (not_lt.mp h₁) (Ne.symm h₂))
  · simp at h
  · split_ifs at h with hj
    · obtain rfl := Except.error.inj h
      exact .jitterBounds hj
    · simp at h

theorem recvCreditRequest_eq_error {r : Rand} {p : Packet}
    (h : a.recvCreditRequest cfg now r p = .error e) : Stops cfg a (.recv p r) e := by
  unfold recvCreditRequest acceptCreditRequest at h
  split at h
  · rcases bind_eq_error.mp h with h | ⟨_, _, h⟩
    · exact sendCredit_eq_error h
    · simp at h
  · rcases bind_eq_error.mp h with h | ⟨_, _, h⟩
    · exact sendCredit_eq_error h
    · simp at h
  · cases h
  · cases h

theorem sendData_eq_error_iff {p : Packet} :
    a.sendData cfg p = .error e ↔
      0 < a.datalenRemaining ∧ a.datalen cfg ≤ 0 ∧ e = .dataLength := by
  unfold sendData constructData
  split_ifs with h₁ h₂
  · simp [h₁, h₂, eq_comm]
  · simp [h₂]
  · simp [h₁]

theorem scheduleCreditStop_eq_error (h : a.scheduleCreditStop now = .error e) :
    a.creditStopTimer.status ≠ .idle ∧ e = .creditStopTimerScheduledTwice := by
  unfold scheduleCreditStop at h
  split_ifs at h with hs
  · exact ⟨hs, (Except.error.inj h).symm⟩
  · rcases bind_eq_error.mp h with h | ⟨_, _, h⟩
    · obtain ⟨_, h, _⟩ := mapError_eq_error.mp h
      exact absurd (TimerHandler.sched_eq_error_iff.mp h).1 hs
    · simp at h

theorem checkCreditStop_eq_error (h : a.checkCreditStop cfg now = .error e) :
    a.creditStopTimer.status ≠ .idle ∧ e = .creditStopTimerScheduledTwice := by
  unfold checkCreditStop earlyCreditStop at h
  split_ifs at h
  · exact scheduleCreditStop_eq_error h
  · rcases bind_eq_error.mp h with h | ⟨_, _, h⟩
    · exact scheduleCreditStop_eq_error h
    · simp at h
  · rcases bind_eq_error.mp h with h | ⟨_, _, h⟩ <;> simp at h
  · simp at h

/-- The statement is about `b`, which is `a` up to the members the case changes first. -/
theorem creditReceiving_eq_error {r : Rand} {p : Packet} {b : XPassAgent}
    (hp : p.ptype = .xpassCredit) (h : b.creditReceiving cfg now p = .error e)
    (hs : b.creditStopTimer = a.creditStopTimer)
    (hrem : b.datalenRemaining = a.datalenRemaining) : Stops cfg a (.recv p r) e := by
  simp only [creditReceiving, bind_eq_error, Prod.exists] at h
  rcases h with h | ⟨b', out, hd, h | ⟨_, _, h⟩⟩
  · obtain ⟨h₁, h₂, rfl⟩ := sendData_eq_error_iff.mp h
    rw [datalen] at h₂
    exact .dataLength hp (hrem ▸ h₁) (by rwa [datalen, ← hrem])
  · obtain ⟨hb, rfl⟩ := checkCreditStop_eq_error h
    apply Stops.creditStopBusy hp
    rcases sendData_eq_ok_iff.mp hd with ⟨_, rfl, _⟩ | ⟨_, _, rfl, _⟩
    · rwa [← hs]
    · rwa [← hs]
  · simp at h

theorem recvCredit_eq_error {r : Rand} {p : Packet} (hp : p.ptype = .xpassCredit)
    (h : a.recvCredit cfg now p = .error e) : Stops cfg a (.recv p r) e := by
  simp only [recvCredit] at h
  split at h
  · exact creditReceiving_eq_error hp h rfl rfl
  · exact creditReceiving_eq_error hp h rfl rfl
  · rcases bind_eq_error.mp h with h | ⟨_, _, h⟩
    · obtain ⟨h₁, h₂, rfl⟩ := sendData_eq_error_iff.mp h
      exact .dataLength hp h₁ h₂
    · simp at h
  · cases h
  · cases h

theorem recvData_eq_error {r : Rand} {p : Packet} (hp : p.ptype = .xpassData)
    (h : a.recvData cfg now p = .error e) : Stops cfg a (.recv p r) e := by
  unfold recvData at h
  split_ifs at h with hd
  · obtain rfl := Except.error.inj h
    exact .creditSequence hp hd
  · rcases bind_eq_error.mp h with h | ⟨_, _, h⟩
    · simp only [processAck] at h
      split_ifs at h with hl
      · obtain rfl := Except.error.inj h
        exact .negativeLength hp hl
    · simp at h

theorem recv_eq_error {r : Rand} {p : Packet} (h : a.recv cfg now r p = .error e) :
    Stops cfg a (.recv p r) e := by
  unfold recv at h
  split at h
  · exact recvCreditRequest_eq_error h
  · next hp => exact recvCredit_eq_error hp h
  · next hp => exact recvData_eq_error hp h
  · next hp =>
    rcases bind_eq_error.mp h with h | ⟨_, _, h⟩
    · obtain ⟨_, hs, rfl⟩ := mapError_eq_error.mp h
      obtain ⟨hbusy, rfl⟩ := TimerHandler.sched_eq_error_iff.mp hs
      exact .fctBusy hp hbusy
    · simp at h
  · cases h
  · cases h

theorem handle_eq_error {r : Rand} {t : AgentTimer} (h : a.handle cfg now r t = .error e) :
    Stops cfg a (.expire t r) e := by
  simp only [handle, bind_eq_error, Prod.exists] at h
  rcases h with h | ⟨b, hb, h | ⟨_, _, _, h⟩⟩
  · obtain ⟨_, hs, rfl⟩ := mapError_eq_error.mp h
    obtain ⟨hbusy, rfl⟩ := TimerHandler.beginHandle_eq_error_iff.mp hs
    exact .notPending hbusy
  · cases t with
    | sendCredit => exact sendCredit_eq_error h
    | creditStop => cases h
    | senderRetransmit =>
      simp only [expire, handleSenderRetransmit] at h
      split at h
      · cases h
      · split_ifs at h
      · split_ifs at h
      · next hs => obtain rfl := Except.error.inj h; exact .closed hs
      · cases h
    | receiverRetransmit => cases h
    | fct => cases h
  · simp at h

/-- Every error of an agent has one of the causes. -/
theorem react_stops {i : Input} (h : a.react cfg now i = .error e) : Stops cfg a i e := by
  cases i with
  | advanceBytes nb =>
    simp only [react, advanceBytes, constructCreditRequest] at h
    rcases bind_eq_error.mp h with h | ⟨_, _, h⟩
    · obtain ⟨_, hs, rfl⟩ := mapError_eq_error.mp h
      obtain ⟨hbusy, rfl⟩ := TimerHandler.sched_eq_error_iff.mp hs
      exact .senderRetransmitBusy hbusy
    · simp at h
  | recv p r => exact recv_eq_error h
  | expire t r => exact handle_eq_error h

end XPassAgent

end Ns2XPass
