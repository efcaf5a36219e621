import Ns2XPass.Agent.Handlers

/-! # What an agent can do

Each successful reaction of an agent is one of the moves below. A move lists the
fields it may change, and the guards and the packets that the invariants of the
sender and of the receiver role rely on.
-/

namespace Ns2XPass

/-- The state in which a received CREDIT leaves the sender role. -/
def RecvState.afterCredit : RecvState → RecvState
  | .creditRequestSent => .creditReceiving
  | s => s

/-- The states in which a CREDIT is answered with data. -/
def RecvState.Answers (s : RecvState) : Prop :=
  s = .creditRequestSent ∨ s = .creditReceiving ∨ s = .creditStopSent

instance : DecidablePred RecvState.Answers := fun _ => inferInstanceAs (Decidable (_ ∨ _ ∨ _))

namespace XPassAgent

variable {cfg : Config} {now : ℚ} {a a' : XPassAgent} {out : List Effect}

/-- A CREDIT may leave the CREDIT_STOP timer alone or schedule it. -/
def StopTimer (now : ℚ) (a : XPassAgent) (h : TimerHandler) : Prop :=
  h = a.creditStopTimer ∨ a.creditRecvState.afterCredit = .creditReceiving ∧
    a.creditStopTimer.status = .idle ∧ h = .resched now 0

/-- The state, the retransmission timer and the credit count after a CREDIT. -/
def afterCredit (a : XPassAgent) : XPassAgent :=
  { a with
    creditRecvState := a.creditRecvState.afterCredit
    senderRetransmitTimer :=
      if a.creditRecvState = .creditRequestSent then a.senderRetransmitTimer.forceCancel
      else a.senderRetransmitTimer
    creditRecved :=
      if a.creditRecvState = .creditStopSent then wrap32 (a.creditRecved + 1)
      else a.creditRecved }

theorem afterCredit_of_requestSent (h : a.creditRecvState = .creditRequestSent) :
    a.afterCredit = { a with
      creditRecvState := .creditReceiving
      senderRetransmitTimer := a.senderRetransmitTimer.forceCancel } := by
  simp [afterCredit, h, RecvState.afterCredit]

theorem afterCredit_of_stopSent (h : a.creditRecvState = .creditStopSent) :
    a.afterCredit = { a with creditRecved := wrap32 (a.creditRecved + 1) } := by
  simp [afterCredit, h, RecvState.afterCredit]

theorem afterCredit_eq_self (h : a.creditRecvState ≠ .creditRequestSent)
    (h' : a.creditRecvState ≠ .creditStopSent) : a.afterCredit = a := by
  have hs : a.creditRecvState.afterCredit = a.creditRecvState := by
    unfold RecvState.afterCredit; split <;> simp_all
  rw [afterCredit, hs, if_neg h, if_neg h']

/-- Feedback control evaluates its measurement: one round trip has passed since the
last time, and a credit was answered or dropped. -/
def FeedbackDue (now : ℚ) (a : XPassAgent) : Prop :=
  0 < a.rtt ∧ a.rtt ≤ now - a.lastCreditRateUpdate ∧ a.creditTotal ≠ 0

instance : Decidable (a.FeedbackDue now) := inferInstanceAs (Decidable (_ ∧ _))

/-- A CREDIT takes `a` to `c` up to the CREDIT_STOP timer and the measurements. -/
def CreditTaken (now : ℚ) (a c b : XPassAgent) : Prop :=
  ∃ h ρ v u k, a.StopTimer now h ∧ b = { c with
    creditStopTimer := h, rtt := ρ, lastCreditRecvUpdate := v, creditRecvedRtt := u
    creditWasted := k }

/-- The moves of the sender role. -/
inductive SenderMove (cfg : Config) (now : ℚ) (a : XPassAgent) :
    Input → XPassAgent → List Effect → Prop where
  | advance {nb : ℤ} : a.senderRetransmitTimer.status = .idle →
      SenderMove cfg now a (.advanceBytes nb)
        { a with
          curseq := a.curseq + nb, rtt := now, creditRecvState := .creditRequestSent
          senderRetransmitTimer := .resched now cfg.retransmitTimeout }
        [.send ({ a with curseq := a.curseq + nb }.creditRequestPacket cfg now)]
  | answerCredit {p : Packet} {r : Rand} {b : XPassAgent} : p.ptype = .xpassCredit →
      a.creditRecvState.Answers → 0 < a.datalenRemaining → 0 < a.datalen cfg →
      CreditTaken now a { a.afterCredit with tSeqno := a.tSeqno + a.datalen cfg } b →
      SenderMove cfg now a (.recv p r) b [.send (a.dataPacket cfg p)]
  | wasteCredit {p : Packet} {r : Rand} {b : XPassAgent} : p.ptype = .xpassCredit →
      (a.creditRecvState.Answers → a.datalenRemaining ≤ 0) → CreditTaken now a a.afterCredit b →
      SenderMove cfg now a (.recv p r) b []
  | reopen {p : Packet} {r : Rand} : p.ptype = .xpassNack →
      a.creditRecvState = .creditStopSent ∨ a.creditRecvState = .closeWait ∨
        a.creditRecvState = .closed →
      SenderMove cfg now a (.recv p r)
        { a with
          tSeqno := p.ackno, rtt := now, creditRecvState := .creditRequestSent
          senderRetransmitTimer := .resched now cfg.retransmitTimeout }
        [.send (a.creditRequestPacket cfg now)]
  | rewind {p : Packet} {r : Rand} : p.ptype = .xpassNack →
      a.creditRecvState = .creditRequestSent ∨ a.creditRecvState = .creditReceiving →
      SenderMove cfg now a (.recv p r) { a with tSeqno := p.ackno } []
  | stop {r : Rand} {t : WithTop ℚ} : a.creditStopTimer.status = .pending →
      SenderMove cfg now a (.expire .creditStop r)
        { a with
          creditRecvState := .creditStopSent, senderRetransmitTimer := .resched now t
          creditStopTimer := { a.creditStopTimer with status := .idle } }
        [.send (a.constructCreditStop cfg)]
  | retry {r : Rand} : a.senderRetransmitTimer.status = .pending →
      a.creditRecvState = .creditRequestSent ∨
        a.creditRecvState = .creditStopSent ∧ 0 < a.datalenRemaining →
      SenderMove cfg now a (.expire .senderRetransmit r)
        { a with
          rtt := now, creditRecvState := .creditRequestSent
          senderRetransmitTimer := .resched now cfg.retransmitTimeout }
        [.send (a.creditRequestPacket cfg now)]
  | linger {r : Rand} {t : WithTop ℚ} : a.senderRetransmitTimer.status = .pending →
      a.creditRecvState = .creditStopSent → a.datalenRemaining ≤ 0 →
      SenderMove cfg now a (.expire .senderRetransmit r)
        { a with
          creditRecvState := .closeWait, creditRecved := 0
          senderRetransmitTimer := .resched now t }
        []
  | close {r : Rand} : a.senderRetransmitTimer.status = .pending →
      a.creditRecvState = .closeWait → a.creditRecved = 0 →
      SenderMove cfg now a (.expire .senderRetransmit r)
        { a with
          creditRecvState := .closed
          senderRetransmitTimer := { a.senderRetransmitTimer with status := .idle } }
        [.wasteOut cfg.fid (a.curseq - 1) a.creditWasted]
  | restop {r : Rand} {t : WithTop ℚ} : a.senderRetransmitTimer.status = .pending →
      a.creditRecvState = .closeWait → a.creditRecved ≠ 0 →
      SenderMove cfg now a (.expire .senderRetransmit r)
        { a with
          creditRecvState := .creditStopSent, senderRetransmitTimer := .resched now t }
        [.send (a.constructCreditStop cfg)]
  | unused {r : Rand} : a.senderRetransmitTimer.status = .pending →
      a.creditRecvState = .creditReceiving →
      SenderMove cfg now a (.expire .senderRetransmit r)
        { a with senderRetransmitTimer := { a.senderRetransmitTimer with status := .idle } } []

/-- The moves of the receiver role. -/
inductive ReceiverMove (cfg : Config) (now : ℚ) (a : XPassAgent) :
    Input → XPassAgent → List Effect → Prop where
  | acceptRequest {p : Packet} {r : Rand} {h : TimerHandler} {rate size : ℤ} {w : ℚ}
      {delay : WithTop ℚ} : p.ptype = .xpassCreditRequest →
      a.creditSendState = .closed ∧ h = a.fctTimer ∨
        a.creditSendState = .closeWait ∧ h = a.fctTimer.forceCancel →
      ReceiverMove cfg now a (.recv p r)
        { a with
          fctTimer := h, creditSendState := .creditSending, fst := p.creditSentTime
          cSeqno := max 1 (a.cSeqno + 1), curCreditRate := rate, w := w
          lastCreditRateUpdate := now, sendCreditTimer := .resched now delay }
        [.send (a.creditPacket now size)]
  | ignoreRequest {p : Packet} {r : Rand} : p.ptype = .xpassCreditRequest →
      a.creditSendState = .creditSending ∨ a.creditSendState = .creditStopReceived →
      ReceiverMove cfg now a (.recv p r) a []
  | firstGap {p : Packet} {r : Rand} {ρ : ℚ} : p.ptype = .xpassData →
      0 ≤ wrap32 (p.creditSeq - a.cRecvNext) → a.recvNext < p.seqno →
      a.waitRetransmission = false →
      ReceiverMove cfg now a (.recv p r)
        { a.countCredits p with
          waitRetransmission := true, rtt := ρ
          receiverRetransmitTimer := .resched now cfg.retransmitTimeout }
        [.send (constructNack cfg a.recvNext)]
  | laterGap {p : Packet} {r : Rand} {ρ : ℚ} : p.ptype = .xpassData →
      0 ≤ wrap32 (p.creditSeq - a.cRecvNext) → a.recvNext < p.seqno →
      a.waitRetransmission = true →
      ReceiverMove cfg now a (.recv p r) { a.countCredits p with rtt := ρ } []
  | nextData {p : Packet} {r : Rand} {ρ : ℚ} : p.ptype = .xpassData →
      0 ≤ wrap32 (p.creditSeq - a.cRecvNext) → p.seqno = a.recvNext → 0 ≤ p.size - p.hlen →
      ReceiverMove cfg now a (.recv p r)
        { a.countCredits p with
          waitRetransmission := false, recvNext := a.recvNext + (p.size - p.hlen), rtt := ρ
          receiverRetransmitTimer :=
            if a.waitRetransmission then a.receiverRetransmitTimer.forceCancel
            else a.receiverRetransmitTimer }
        []
  | oldData {p : Packet} {r : Rand} {ρ : ℚ} : p.ptype = .xpassData →
      0 ≤ wrap32 (p.creditSeq - a.cRecvNext) → p.seqno < a.recvNext →
      ReceiverMove cfg now a (.recv p r) { a.countCredits p with rtt := ρ } []
  | stopCredits {p : Packet} {r : Rand} : p.ptype = .xpassCreditStop →
      a.fctTimer.status = .idle →
      ReceiverMove cfg now a (.recv p r)
        { a with
          fct := now - a.fst, creditSendState := .closeWait
          fctTimer := .resched now cfg.defaultCreditStopTimeout
          sendCreditTimer := a.sendCreditTimer.forceCancel }
        []
  | credit {r : Rand} {rate size total dropped : ℤ} {w upd : ℚ} {b : Bool} {delay : WithTop ℚ} :
      a.sendCreditTimer.status = .pending →
      ¬ a.FeedbackDue now ∧ total = a.creditTotal ∧ dropped = a.creditDropped ∨
        a.FeedbackDue now ∧ total = 0 ∧ dropped = 0 →
      ReceiverMove cfg now a (.expire .sendCredit r)
        { a with
          curCreditRate := rate, w := w, canIncreaseW := b, creditTotal := total
          creditDropped := dropped, lastCreditRateUpdate := upd
          cSeqno := max 1 (a.cSeqno + 1), sendCreditTimer := .resched now delay }
        [.send (a.creditPacket now size)]
  | renack {r : Rand} : a.receiverRetransmitTimer.status = .pending →
      a.waitRetransmission = true →
      ReceiverMove cfg now a (.expire .receiverRetransmit r)
        { a with receiverRetransmitTimer := .resched now cfg.retransmitTimeout }
        [.send (constructNack cfg a.recvNext)]
  | settled {r : Rand} : a.receiverRetransmitTimer.status = .pending →
      a.waitRetransmission = false →
      ReceiverMove cfg now a (.expire .receiverRetransmit r)
        { a with receiverRetransmitTimer := { a.receiverRetransmitTimer with status := .idle } } []
  | record {r : Rand} : a.fctTimer.status = .pending →
      ReceiverMove cfg now a (.expire .fct r)
        { a with
          creditSendState := .closed, fctTimer := { a.fctTimer with status := .idle } }
        [.fctOut cfg.fid (a.recvNext - 1) a.fct]

/-- The moves of an agent: a packet of another type is dropped. -/
inductive Move (cfg : Config) (now : ℚ) (a : XPassAgent) (i : Input) (a' : XPassAgent)
    (out : List Effect) : Prop where
  | sender (h : SenderMove cfg now a i a' out)
  | receiver (h : ReceiverMove cfg now a i a' out)
  | unknown {p : Packet} {r : Rand} {c : ℕ} (hp : p.ptype = .other c) (hi : i = .recv p r)
      (ha : a' = a) (hout : out = [])

/-! ## The helpers of the handlers -/

theorem constructCredit_eq_ok {r : Rand} {p : Packet}
    (h : a.constructCredit cfg now r = .ok (p, a')) :
    ∃ size, p = a.creditPacket now size ∧ a' = { a with cSeqno := max 1 (a.cSeqno + 1) } := by
  simp only [constructCredit, bind_eq_ok, pure_eq_ok, Prod.mk.injEq] at h
  obtain ⟨size, _, rfl, rfl⟩ := h
  exact ⟨size, rfl, rfl⟩

theorem sendCredit_eq_ok {r : Rand} (h : a.sendCredit cfg now r = .ok (a', out)) :
    ∃ a₁ size, a₁ = a.creditFeedbackControl cfg now ∧ out = [.send (a₁.creditPacket now size)] ∧
      a' = { a₁ with
        cSeqno := max 1 (a₁.cSeqno + 1)
        sendCreditTimer := .resched now (a₁.jitteredDelay cfg r) } := by
  simp only [sendCredit, bind_eq_ok, Prod.exists] at h
  obtain ⟨p, a₁, h₁, h⟩ := h
  obtain ⟨size, rfl, rfl⟩ := constructCredit_eq_ok h₁
  split_ifs at h
  · simp only [pure_eq_ok, Prod.mk.injEq] at h
    exact ⟨_, size, rfl, h.2.symm, h.1.symm⟩

/-- Feedback control touches the rate and the counters of its measurement only. -/
theorem creditFeedbackControl_eq (cfg : Config) (now : ℚ) (a : XPassAgent) :
    ∃ rate w b total dropped upd,
      (¬ a.FeedbackDue now ∧ total = a.creditTotal ∧ dropped = a.creditDropped ∨
        a.FeedbackDue now ∧ total = 0 ∧ dropped = 0) ∧
      a.creditFeedbackControl cfg now = { a with
        curCreditRate := rate, w := w, canIncreaseW := b, creditTotal := total
        creditDropped := dropped, lastCreditRateUpdate := upd } := by
  unfold creditFeedbackControl
  split_ifs with h₁ h₂ h₃ h₄
  · exact ⟨_, _, _, _, _, _, .inl ⟨fun h => not_lt.mpr h₁ h.1, rfl, rfl⟩, rfl⟩
  · exact ⟨_, _, _, _, _, _, .inl ⟨fun h => not_lt.mpr h.2.1 h₂, rfl, rfl⟩, rfl⟩
  · exact ⟨_, _, _, _, _, _, .inl ⟨fun h => h.2.2 h₃, rfl, rfl⟩, rfl⟩
  · exact ⟨_, _, _, _, _, _, .inr ⟨⟨not_le.mp h₁, not_lt.mp h₂, h₃⟩, rfl, rfl⟩, rfl⟩
  · exact ⟨_, _, _, _, _, _, .inr ⟨⟨not_le.mp h₁, not_lt.mp h₂, h₃⟩, rfl, rfl⟩, rfl⟩

/-- Right after `init` no time has passed, so feedback control does nothing. -/
theorem creditFeedbackControl_of_fresh (h : a.lastCreditRateUpdate = now) :
    a.creditFeedbackControl cfg now = a := by
  unfold creditFeedbackControl
  by_cases h₁ : a.rtt ≤ 0
  · rw [if_pos h₁]
  · rw [if_neg h₁, if_pos]
    rw [h, sub_self]
    exact not_le.mp h₁

theorem sendData_eq_ok_iff {p : Packet} :
    a.sendData cfg p = .ok (a', out) ↔
      (a.datalenRemaining ≤ 0 ∧ a' = a ∧ out = []) ∨
      (0 < a.datalenRemaining ∧ 0 < a.datalen cfg ∧
        a' = { a with tSeqno := a.tSeqno + a.datalen cfg } ∧
        out = [.send (a.dataPacket cfg p)]) := by
  unfold sendData constructData
  split_ifs with h₁ h₂
  · simp only [bind_eq_ok, reduceCtorEq, false_and, exists_false, false_iff]
    omega
  · simp only [bind_eq_ok, Except.ok.injEq, Prod.exists, Prod.mk.injEq, pure_eq_ok]
    constructor
    · rintro ⟨_, _, ⟨rfl, rfl⟩, rfl, rfl⟩
      exact Or.inr ⟨h₁, not_le.mp h₂, rfl, rfl⟩
    · rintro (⟨h, _⟩ | ⟨_, _, rfl, rfl⟩)
      · omega
      · exact ⟨_, _, ⟨rfl, rfl⟩, rfl, rfl⟩
  · simp only [pure_eq_ok, Prod.mk.injEq]
    constructor
    · rintro ⟨rfl, rfl⟩; exact Or.inl ⟨not_lt.mp h₁, rfl, rfl⟩
    · rintro (⟨_, rfl, rfl⟩ | ⟨h, _⟩)
      · exact ⟨rfl, rfl⟩
      · omega

theorem scheduleCreditStop_eq_ok_iff :
    a.scheduleCreditStop now = .ok a' ↔
      a.creditStopTimer.status = .idle ∧ a' = { a with creditStopTimer := .resched now 0 } := by
  unfold scheduleCreditStop
  split_ifs with h
  · simp [h]
  · simp only [bind_eq_ok, mapError_eq_ok, TimerHandler.sched_eq_ok_iff, pure_eq_ok]
    constructor
    · rintro ⟨_, ⟨hi, rfl⟩, rfl⟩; exact ⟨hi, rfl⟩
    · rintro ⟨hi, rfl⟩; exact ⟨_, ⟨hi, rfl⟩, rfl⟩

theorem checkCreditStop_eq_ok (h : a.checkCreditStop cfg now = .ok a') :
    ∃ t u v, a' = { a with
        creditStopTimer := t, creditRecvedRtt := u, lastCreditRecvUpdate := v } ∧
      (t = a.creditStopTimer ∨ a.creditStopTimer.status = .idle ∧ t = .resched now 0) := by
  unfold checkCreditStop earlyCreditStop at h
  split_ifs at h with h₁ h₂ h₃
  · obtain ⟨hi, rfl⟩ := scheduleCreditStop_eq_ok_iff.mp h
    exact ⟨_, _, _, rfl, Or.inr ⟨hi, rfl⟩⟩
  · simp only [bind_eq_ok, pure_eq_ok] at h
    obtain ⟨_, h, rfl⟩ := h
    obtain ⟨hi, rfl⟩ := scheduleCreditStop_eq_ok_iff.mp h
    exact ⟨_, _, _, rfl, Or.inr ⟨hi, rfl⟩⟩
  · simp only [bind_eq_ok, pure_eq_ok, Except.ok.injEq] at h
    obtain ⟨_, rfl, rfl⟩ := h
    exact ⟨_, _, _, rfl, Or.inl rfl⟩
  · obtain rfl := pure_eq_ok.mp h
    exact ⟨_, _, _, rfl, Or.inl rfl⟩

theorem creditReceiving_eq_ok {p : Packet} (h : a.creditReceiving cfg now p = .ok (a', out)) :
    ∃ a₁ t u v, a.sendData cfg p = .ok (a₁, out) ∧
      a' = { a₁ with creditStopTimer := t, creditRecvedRtt := u, lastCreditRecvUpdate := v } ∧
      (t = a₁.creditStopTimer ∨ a₁.creditStopTimer.status = .idle ∧ t = .resched now 0) := by
  simp only [creditReceiving, bind_eq_ok, Prod.exists, pure_eq_ok, Prod.mk.injEq] at h
  obtain ⟨a₁, o, hd, a₂, hc, rfl, rfl⟩ := h
  obtain ⟨t, u, v, rfl, ht⟩ := checkCreditStop_eq_ok hc
  exact ⟨a₁, t, u, v, hd, rfl, ht⟩

/-! ## The handlers -/

theorem advanceBytes_move {nb : ℤ} (h : a.advanceBytes cfg now nb = .ok (a', out)) :
    SenderMove cfg now a (.advanceBytes nb) a' out := by
  simp only [advanceBytes, constructCreditRequest, bind_eq_ok, mapError_eq_ok,
    TimerHandler.sched_eq_ok_iff, pure_eq_ok, Prod.mk.injEq] at h
  obtain ⟨_, ⟨hi, rfl⟩, rfl, rfl⟩ := h
  exact .advance hi

theorem acceptCreditRequest_eq_ok {r : Rand} {p : Packet}
    (h : a.acceptCreditRequest cfg now r p = .ok (a', out)) :
    ∃ size, out = [.send (a.creditPacket now size)] ∧
      a' = { a.startCredits cfg now p with
        creditSendState := .creditSending, cSeqno := max 1 (a.cSeqno + 1)
        sendCreditTimer := .resched now ((a.startCredits cfg now p).jitteredDelay cfg r) } := by
  simp only [acceptCreditRequest, bind_eq_ok, Prod.exists, pure_eq_ok, Prod.mk.injEq] at h
  obtain ⟨_, _, h, rfl, rfl⟩ := h
  obtain ⟨a₁, size, h₁, rfl, rfl⟩ := sendCredit_eq_ok h
  obtain rfl := h₁.trans (creditFeedbackControl_of_fresh rfl)
  exact ⟨size, rfl, rfl⟩

theorem recvCreditRequest_move {r : Rand} {p : Packet} (hp : p.ptype = .xpassCreditRequest)
    (h : a.recvCreditRequest cfg now r p = .ok (a', out)) :
    ReceiverMove cfg now a (.recv p r) a' out := by
  unfold recvCreditRequest at h
  split at h
  · next hs =>
    obtain ⟨size, rfl, rfl⟩ := acceptCreditRequest_eq_ok h
    exact .acceptRequest hp (.inr ⟨hs, rfl⟩)
  · next hs =>
    obtain ⟨size, rfl, rfl⟩ := acceptCreditRequest_eq_ok h
    exact .acceptRequest hp (.inl ⟨hs, rfl⟩)
  · next hs => cases h; exact .ignoreRequest hp (.inl hs)
  · next hs => cases h; exact .ignoreRequest hp (.inr hs)

/-- The case XPASS_RECV_CREDIT_RECEIVING, from either state that reaches it. -/
theorem creditReceiving_move {r : Rand} {p : Packet} {u : ℤ} {v q : ℚ}
    (hp : p.ptype = .xpassCredit)
    (hs : a.creditRecvState = .creditRequestSent ∨ a.creditRecvState = .creditReceiving)
    (h : { a.afterCredit with creditRecvedRtt := u, rtt := q, lastCreditRecvUpdate := v
          }.creditReceiving cfg now p = .ok (a', out)) :
    SenderMove cfg now a (.recv p r) a' out := by
  have hafter : a.creditRecvState.afterCredit = .creditReceiving := by
    rcases hs with hs | hs <;> simp [hs, RecvState.afterCredit]
  obtain ⟨a₁, t, u', v', hd, rfl, ht⟩ := creditReceiving_eq_ok h
  rcases sendData_eq_ok_iff.mp hd with ⟨hrem, rfl, rfl⟩ | ⟨hrem, hlen, rfl, rfl⟩
  · exact .wasteCredit hp (fun _ => hrem) ⟨_, _, _, _, _, ht.imp id fun h => ⟨hafter, h⟩, rfl⟩
  · exact .answerCredit hp (hs.imp_right .inl) hrem hlen
      ⟨_, _, _, _, _, ht.imp id fun h => ⟨hafter, h⟩, rfl⟩

theorem wastedCredit_move {r : Rand} {p : Packet} {u k : ℤ} (hp : p.ptype = .xpassCredit)
    (hs : a.creditRecvState = .closeWait ∨ a.creditRecvState = .closed) :
    SenderMove cfg now a (.recv p r) { a with creditRecvedRtt := u, creditWasted := k } [] := by
  have hself : a.afterCredit = a :=
    afterCredit_eq_self (by rcases hs with hs | hs <;> simp [hs])
      (by rcases hs with hs | hs <;> simp [hs])
  refine .wasteCredit hp ?_ ?_
  · rintro (ha | ha | ha) <;> simp [ha] at hs
  · rw [hself]
    exact ⟨_, _, _, _, _, .inl rfl, rfl⟩

theorem recvCredit_move {r : Rand} {p : Packet} (hp : p.ptype = .xpassCredit)
    (h : a.recvCredit cfg now p = .ok (a', out)) : SenderMove cfg now a (.recv p r) a' out := by
  simp only [recvCredit] at h
  split at h
  · next hs =>
    refine creditReceiving_move hp (.inl hs) (u := wrap32 (a.creditRecvedRtt + 1))
      (q := now - a.rtt) (v := now) ?_
    rwa [afterCredit_of_requestSent hs]
  · next hs =>
    refine creditReceiving_move hp (.inr hs) (u := wrap32 (a.creditRecvedRtt + 1))
      (q := a.rtt) (v := a.lastCreditRecvUpdate) ?_
    rwa [afterCredit_eq_self (by simp [hs]) (by simp [hs])]
  · next hs =>
    simp only [bind_eq_ok, Prod.exists, pure_eq_ok, Prod.mk.injEq] at h
    obtain ⟨_, _, hd, rfl, rfl⟩ := h
    rcases sendData_eq_ok_iff.mp hd with ⟨hrem, rfl, rfl⟩ | ⟨hrem, hlen, rfl, rfl⟩
    · refine .wasteCredit hp (fun _ => hrem) ?_
      rw [afterCredit_of_stopSent hs]
      exact ⟨_, _, _, _, _, .inl rfl, rfl⟩
    · refine .answerCredit hp (.inr (.inr hs)) hrem hlen ?_
      rw [afterCredit_of_stopSent hs]
      exact ⟨_, _, _, _, _, .inl rfl, rfl⟩
  · next hs => cases h; exact wastedCredit_move hp (.inl hs)
  · next hs => cases h; exact wastedCredit_move hp (.inr hs)

theorem recvData_move {r : Rand} {p : Packet} (hp : p.ptype = .xpassData)
    (h : a.recvData cfg now p = .ok (a', out)) : ReceiverMove cfg now a (.recv p r) a' out := by
  unfold recvData at h
  split_ifs at h with hd
  simp only [bind_eq_ok, Prod.exists, pure_eq_ok, Prod.mk.injEq] at h
  obtain ⟨b, o, h, rfl, rfl⟩ := h
  simp only [processAck] at h
  split at h
  · cases h
  next hl =>
  split at h
  · next hgap =>
    split at h
    · next hw => cases h; exact .laterGap hp (not_lt.mp hd) hgap hw
    · next hw => cases h; exact .firstGap hp (not_lt.mp hd) hgap (Bool.eq_false_iff.mpr hw)
  · next hgap =>
    split at h
    · next hnext => cases h; exact .nextData hp (not_lt.mp hd) hnext (not_lt.mp hl)
    · next hnext =>
      cases h
      exact .oldData hp (not_lt.mp hd) (lt_of_le_of_ne (not_lt.mp hgap) hnext)

theorem recvCreditStop_move {r : Rand} {p : Packet} (hp : p.ptype = .xpassCreditStop)
    (h : a.recvCreditStop cfg now = .ok (a', out)) : ReceiverMove cfg now a (.recv p r) a' out := by
  simp only [recvCreditStop, bind_eq_ok, mapError_eq_ok, TimerHandler.sched_eq_ok_iff, pure_eq_ok,
    Prod.mk.injEq] at h
  obtain ⟨_, ⟨hi, rfl⟩, rfl, rfl⟩ := h
  exact .stopCredits hp hi

theorem recvNack_move {r : Rand} {p : Packet} (hp : p.ptype = .xpassNack)
    (h : a.recvNack cfg now p = (a', out)) : SenderMove cfg now a (.recv p r) a' out := by
  unfold recvNack at h
  split at h <;> cases h
  · next hs => exact .reopen hp (.inl hs)
  · next hs => exact .reopen hp (.inr (.inl hs))
  · next hs => exact .reopen hp (.inr (.inr hs))
  · next hs => exact .rewind hp (.inl hs)
  · next hs => exact .rewind hp (.inr hs)

theorem recv_move {r : Rand} {p : Packet} (h : a.recv cfg now r p = .ok (a', out)) :
    Move cfg now a (.recv p r) a' out := by
  unfold recv at h
  split at h
  · next hp => exact .receiver (recvCreditRequest_move hp h)
  · next hp => exact .sender (recvCredit_move hp h)
  · next hp => exact .receiver (recvData_move hp h)
  · next hp => exact .receiver (recvCreditStop_move hp h)
  · next hp => exact .sender (recvNack_move hp (Except.ok.inj h))
  · next hp => cases h; exact .unknown hp rfl rfl rfl

theorem handleSenderRetransmit_move {r : Rand} {b : XPassAgent}
    (hp : a.senderRetransmitTimer.status = .pending)
    (h : { a with senderRetransmitTimer := { a.senderRetransmitTimer with status := .handling }
          }.handleSenderRetransmit cfg now = .ok (b, out))
    (ha' : a' = { b with senderRetransmitTimer := b.senderRetransmitTimer.endHandle }) :
    SenderMove cfg now a (.expire .senderRetransmit r) a' out := by
  simp only [handleSenderRetransmit] at h
  split at h
  · next hs => cases h; subst ha'; exact .retry hp (.inl hs)
  · next hs =>
    split at h
    · next hrem => cases h; subst ha'; exact .retry hp (.inr ⟨hs, hrem⟩)
    · next hrem => cases h; subst ha'; exact .linger hp hs (not_lt.mp hrem)
  · next hs =>
    split_ifs at h with hc
    · cases h; subst ha'; exact .close hp hs hc
    · cases h; subst ha'; exact .restop hp hs hc
  · cases h
  · next hs => cases h; subst ha'; exact .unused hp hs

theorem handle_move {r : Rand} {t : AgentTimer} (h : a.handle cfg now r t = .ok (a', out)) :
    Move cfg now a (.expire t r) a' out := by
  simp only [handle, bind_eq_ok, mapError_eq_ok, TimerHandler.beginHandle_eq_ok_iff, Prod.exists,
    pure_eq_ok, Prod.mk.injEq] at h
  obtain ⟨_, ⟨hp, rfl⟩, b, _, h, rfl, rfl⟩ := h
  cases t with
  | sendCredit =>
    obtain ⟨_, size, rfl, rfl, rfl⟩ := sendCredit_eq_ok h
    obtain ⟨rate, w, c, total, dropped, upd, hc, he⟩ := creditFeedbackControl_eq cfg now
      (a.setTimer { a.timer .sendCredit with status := .handling } .sendCredit)
    simp only [he]
    exact .receiver (.credit hp hc)
  | creditStop => cases h; exact .sender (.stop hp)
  | senderRetransmit => exact .sender (handleSenderRetransmit_move hp h rfl)
  | receiverRetransmit =>
    simp only [expire, handleReceiverRetransmit, Except.ok.injEq] at h
    split_ifs at h with hw
    · cases h; exact .receiver (.renack hp hw)
    · cases h; exact .receiver (.settled hp (Bool.eq_false_iff.mpr hw))
  | fct => cases h; exact .receiver (.record hp)

/-- Every reaction of an agent is one of the moves. -/
theorem react_move {i : Input} (h : a.react cfg now i = .ok (a', out)) :
    Move cfg now a i a' out := by
  cases i with
  | advanceBytes nb => exact .sender (advanceBytes_move h)
  | recv p r => exact recv_move h
  | expire t r => exact handle_move h

/-! ## The two roles do not touch each other -/

/-- The state of the receiver role is the same. -/
structure SameReceiverRole (a a' : XPassAgent) : Prop where
  creditSendState : a'.creditSendState = a.creditSendState
  waitRetransmission : a'.waitRetransmission = a.waitRetransmission
  sendCreditTimer : a'.sendCreditTimer = a.sendCreditTimer
  fctTimer : a'.fctTimer = a.fctTimer
  receiverRetransmitTimer : a'.receiverRetransmitTimer = a.receiverRetransmitTimer

/-- The state of the sender role is the same. -/
structure SameSenderRole (a a' : XPassAgent) : Prop where
  creditRecvState : a'.creditRecvState = a.creditRecvState
  creditRecved : a'.creditRecved = a.creditRecved
  curseq : a'.curseq = a.curseq
  tSeqno : a'.tSeqno = a.tSeqno
  senderRetransmitTimer : a'.senderRetransmitTimer = a.senderRetransmitTimer
  creditStopTimer : a'.creditStopTimer = a.creditStopTimer

theorem SenderMove.frame {i : Input} (h : SenderMove cfg now a i a' out) :
    SameReceiverRole a a' := by
  cases h with
  | answerCredit _ _ _ _ hc | wasteCredit _ _ hc =>
    obtain ⟨_, _, _, _, _, _, rfl⟩ := hc
    exact ⟨rfl, rfl, rfl, rfl, rfl⟩
  | _ => exact ⟨rfl, rfl, rfl, rfl, rfl⟩

theorem ReceiverMove.frame {i : Input} (h : ReceiverMove cfg now a i a' out) :
    SameSenderRole a a' := by
  cases h <;> exact ⟨rfl, rfl, rfl, rfl, rfl, rfl⟩

end XPassAgent

/-- The inputs of the sender role. -/
def Input.ForSender : Input → Prop
  | .advanceBytes _ => True
  | .recv p _ => p.ptype = .xpassCredit ∨ p.ptype = .xpassNack
  | .expire t _ => t = .creditStop ∨ t = .senderRetransmit

/-- The inputs of the receiver role. -/
def Input.ForReceiver : Input → Prop
  | .advanceBytes _ => False
  | .recv p _ => p.ptype = .xpassCreditRequest ∨ p.ptype = .xpassData ∨ p.ptype = .xpassCreditStop
  | .expire t _ => t = .sendCredit ∨ t = .receiverRetransmit ∨ t = .fct

namespace XPassAgent

variable {cfg : Config} {now : ℚ} {a a' : XPassAgent} {i : Input} {out : List Effect}

theorem SenderMove.forSender (h : SenderMove cfg now a i a' out) : i.ForSender := by
  cases h <;> simp_all [Input.ForSender]

theorem ReceiverMove.forReceiver (h : ReceiverMove cfg now a i a' out) : i.ForReceiver := by
  cases h <;> simp_all [Input.ForReceiver]

theorem not_forReceiver (h : i.ForSender) : ¬ i.ForReceiver := by
  cases i with
  | advanceBytes nb => exact id
  | recv p r => rcases h with h | h <;> simp [Input.ForReceiver, h]
  | expire t r => rcases h with rfl | rfl <;> simp [Input.ForReceiver]

theorem senderMove_of_react (hi : i.ForSender) (h : a.react cfg now i = .ok (a', out)) :
    SenderMove cfg now a i a' out := by
  cases react_move h with
  | sender h => exact h
  | receiver h => exact absurd h.forReceiver (not_forReceiver hi)
  | unknown hp hi' => subst hi'; rcases hi with hi | hi <;> simp [hp] at hi

theorem receiverMove_of_react (hi : i.ForReceiver) (h : a.react cfg now i = .ok (a', out)) :
    ReceiverMove cfg now a i a' out := by
  cases react_move h with
  | sender h => exact absurd hi (not_forReceiver h.forSender)
  | receiver h => exact h
  | unknown hp hi' => subst hi'; rcases hi with hi | hi | hi <;> simp [hp] at hi

end XPassAgent

end Ns2XPass
