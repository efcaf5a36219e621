import Ns2XPass.Agent.Moves

/-! # Interference between the two roles of an agent

The roles share `rtt_`, in which a CREDIT_REQUEST stores the clock. As long as the
receiver role does not use it afterwards, the inputs of the sender role can be
removed from a run without a trace in what the receiver role does.
-/

namespace Ns2XPass

instance : DecidablePred Input.ForReceiver
  | .advanceBytes _ => inferInstanceAs (Decidable False)
  | .recv p _ => inferInstanceAs (Decidable (p.ptype = .xpassCreditRequest ∨
      p.ptype = .xpassData ∨ p.ptype = .xpassCreditStop))
  | .expire t _ => inferInstanceAs (Decidable (t = .sendCredit ∨ t = .receiverRetransmit ∨ t = .fct))

/-- What the receiver role shows in a step. The field `t_seqno_` of its packets belongs to the
sender role. -/
structure Observation where
  time : ℚ
  rate : ℤ
  effects : List Effect
  deriving DecidableEq

def Effect.withoutSeqno : Effect → Effect
  | .send p => .send { p with seqno := 0 }
  | e => e

/-- Whether a CREDIT_REQUEST is among the effects. -/
def requests (out : List Effect) : Bool :=
  out.any fun
    | .send p => p.ptype = .xpassCreditRequest
    | _ => false

abbrev TimedInput := ℚ × Input

namespace XPassAgent

variable (cfg : Config)

/-- The last state of a run, and what the receiver role shows. -/
def play : List TimedInput → XPassAgent → Except Exit (XPassAgent × List Observation)
  | [], a => .ok (a, [])
  | (now, i) :: xs, a => do
    let (a', out) ← a.react cfg now i
    let (b, obs) ← play xs a'
    pure (b,
      if i.ForReceiver then ⟨now, a'.curCreditRate, out.map (·.withoutSeqno)⟩ :: obs else obs)

/-- A condition holds at each step of a run. It may depend on whether the agent has sent a
CREDIT_REQUEST before. -/
def Along (C : Bool → XPassAgent → TimedInput → Prop) :
    Bool → List TimedInput → XPassAgent → Prop
  | _, [], _ => True
  | w, x :: xs, a =>
    C w a x ∧
      match a.react cfg x.1 x.2 with
      | .ok (a', out) => Along C (w || requests out) xs a'
      | .error _ => True

/-- The timers of the receiver role expire when they are due. -/
def Due (_ : Bool) (a : XPassAgent) (x : TimedInput) : Prop :=
  match x.2 with
  | .expire t _ => x.2.ForReceiver → (a.timer t).time = (x.1 : WithTop ℚ)
  | .advanceBytes _ | .recv _ _ => True

/-- The inputs of the receiver role that use `rtt_`: DATA, and the expiry that sends a CREDIT when
feedback control has something to evaluate. -/
def UsesRtt (a : XPassAgent) : Input → Prop
  | .recv p _ => p.ptype = .xpassData
  | .expire t _ => t = .sendCredit ∧ a.creditTotal ≠ 0
  | .advanceBytes _ => False

/-- The receiver role does not use `rtt_` once a CREDIT_REQUEST has stored the clock there. -/
def OwnRtt (requested : Bool) (a : XPassAgent) (x : TimedInput) : Prop :=
  requested = true → ¬ a.UsesRtt x.2

instance (w : Bool) (a : XPassAgent) : DecidablePred (Due w a)
  | (now, .expire t r) => inferInstanceAs (Decidable (Input.ForReceiver (.expire t r) →
      (a.timer t).time = (now : WithTop ℚ)))
  | (_, .advanceBytes _) | (_, .recv _ _) => inferInstanceAs (Decidable True)

instance (a : XPassAgent) : DecidablePred a.UsesRtt
  | .recv p _ => inferInstanceAs (Decidable (p.ptype = .xpassData))
  | .expire t _ => inferInstanceAs (Decidable (t = .sendCredit ∧ a.creditTotal ≠ 0))
  | .advanceBytes _ => inferInstanceAs (Decidable False)

instance (w : Bool) (a : XPassAgent) (x : TimedInput) : Decidable (OwnRtt w a x) :=
  inferInstanceAs (Decidable (_ → _))

instance decidableAlong (C : Bool → XPassAgent → TimedInput → Prop)
    [∀ w a x, Decidable (C w a x)] : ∀ w xs a, Decidable (Along cfg C w xs a)
  | _, [], _ => inferInstanceAs (Decidable True)
  | w, x :: xs, a =>
    haveI : Decidable (match a.react cfg x.1 x.2 with
        | .ok (a', out) => Along cfg C (w || requests out) xs a'
        | .error _ => True) :=
      match a.react cfg x.1 x.2 with
      | .ok (a', out) => decidableAlong C (w || requests out) xs a'
      | .error _ => inferInstanceAs (Decidable True)
    inferInstanceAs (Decidable (C w a x ∧ _))

/-- An input of the receiver role without the time of an expiry, which the timer determines. -/
def skeleton (x : TimedInput) : Option ℚ × Input :=
  match x.2 with
  | .expire _ _ => (none, x.2)
  | .advanceBytes _ | .recv _ _ => (some x.1, x.2)

/-- The inputs of the receiver role. -/
def receiverInputs (xs : List TimedInput) : List TimedInput := xs.filter fun x => x.2.ForReceiver

end XPassAgent

/-! ## The fields of the two roles -/

namespace XPassAgent

variable {cfg : Config} {now : ℚ} {a b a' s : XPassAgent} {i : Input} {out : List Effect}

/-- The agent `a` with the sender role of `s`, `rtt_` aside. -/
def withSender (a s : XPassAgent) : XPassAgent :=
  { a with
    creditRecvState := s.creditRecvState
    creditStopTimer := s.creditStopTimer
    senderRetransmitTimer := s.senderRetransmitTimer
    curseq := s.curseq
    tSeqno := s.tSeqno
    creditRecved := s.creditRecved
    creditWasted := s.creditWasted
    creditRecvedRtt := s.creditRecvedRtt
    lastCreditRecvUpdate := s.lastCreditRecvUpdate }

def withRtt (a : XPassAgent) (q : ℚ) : XPassAgent := { a with rtt := q }

/-- The agents differ in their sender roles and `rtt_` only. -/
def SameReceiver (a b : XPassAgent) : Prop := b = (a.withSender b).withRtt b.rtt

theorem SenderMove.sameReceiver (h : SenderMove cfg now a i a' out) : SameReceiver a a' := by
  cases h with
  | answerCredit _ _ _ _ hc | wasteCredit _ _ hc =>
    obtain ⟨_, _, _, _, _, _, rfl⟩ := hc
    rfl
  | _ => rfl

theorem SameReceiver.trans {c : XPassAgent} (h : SameReceiver a b) (h' : SameReceiver b c) :
    SameReceiver a c := by
  rw [SameReceiver] at h h' ⊢
  rw [h', h]
  rfl

theorem SameReceiver.symm (h : SameReceiver a b) : SameReceiver b a := by
  rw [SameReceiver] at h ⊢
  rw [h]
  rfl

/-! ## The handlers of the receiver role do not look at the sender role -/

theorem creditFeedbackControl_withSender :
    (a.withSender s).creditFeedbackControl cfg now =
      (a.creditFeedbackControl cfg now).withSender s := by
  unfold creditFeedbackControl
  by_cases hr : a.rtt ≤ 0
  · rw [if_pos hr, if_pos (show (a.withSender s).rtt ≤ 0 from hr)]
  by_cases hl : now - a.lastCreditRateUpdate < a.rtt
  · rw [if_neg hr, if_neg (show ¬ (a.withSender s).rtt ≤ 0 from hr), if_pos hl,
      if_pos (show now - (a.withSender s).lastCreditRateUpdate < (a.withSender s).rtt from hl)]
  by_cases ht : a.creditTotal = 0
  · rw [if_neg hr, if_neg (show ¬ (a.withSender s).rtt ≤ 0 from hr), if_neg hl,
      if_neg (show ¬ now - (a.withSender s).lastCreditRateUpdate < (a.withSender s).rtt from hl),
      if_pos ht, if_pos (show (a.withSender s).creditTotal = 0 from ht)]
  rw [if_neg hr, if_neg (show ¬ (a.withSender s).rtt ≤ 0 from hr), if_neg hl,
    if_neg (show ¬ now - (a.withSender s).lastCreditRateUpdate < (a.withSender s).rtt from hl),
    if_neg ht, if_neg (show ¬ (a.withSender s).creditTotal = 0 from ht)]
  by_cases hc : a.targetLoss cfg < a.lossRate
  · rw [if_pos hc, if_pos (show (a.withSender s).targetLoss cfg < (a.withSender s).lossRate from hc)]
    rfl
  · rw [if_neg hc,
      if_neg (show ¬ (a.withSender s).targetLoss cfg < (a.withSender s).lossRate from hc)]
    rfl

theorem sendCredit_withSender {r : Rand} (h : a.sendCredit cfg now r = .ok (a', out)) :
    ∃ out', (a.withSender s).sendCredit cfg now r = .ok (a'.withSender s, out') ∧
      out'.map (·.withoutSeqno) = out.map (·.withoutSeqno) := by
  unfold sendCredit at h ⊢
  rw [creditFeedbackControl_withSender]
  generalize a.creditFeedbackControl cfg now = c at h ⊢
  simp only [bind_eq_ok, Prod.exists, constructCredit, pure_eq_ok, Prod.mk.injEq] at h ⊢
  obtain ⟨p, c', ⟨size, hsize, rfl, rfl⟩, h⟩ := h
  split_ifs at h with hj
  obtain ⟨rfl, rfl⟩ := Prod.mk.inj (pure_eq_ok.mp h)
  refine ⟨[.send ((c.withSender s).creditPacket now size)], ⟨_, _, ⟨size, hsize, rfl, rfl⟩, ?_⟩, rfl⟩
  rw [if_neg hj]
  exact pure_eq_ok.mpr rfl

theorem recvData_withSender {p : Packet} (h : a.recvData cfg now p = .ok (a', out)) :
    (a.withSender s).recvData cfg now p = .ok (a'.withSender s, out) := by
  have hack : ∀ b : XPassAgent, (b.withSender s).processAck cfg now p =
      (b.processAck cfg now p).map fun r => (r.1.withSender s, r.2) := fun b => by
    unfold processAck
    simp only [apply_ite (Except.map fun r : XPassAgent × List Effect => (r.1.withSender s, r.2))]
    rfl
  unfold recvData at h ⊢
  by_cases hd : wrap32 (p.creditSeq - a.cRecvNext) < 0
  · rw [if_pos hd] at h
    cases h
  · rw [if_neg hd] at h
    rw [if_neg (show ¬ wrap32 (p.creditSeq - (a.withSender s).cRecvNext) < 0 from hd),
      show (a.withSender s).countCredits p = (a.countCredits p).withSender s from rfl, hack]
    simp only [bind_eq_ok, Prod.exists, pure_eq_ok, Prod.mk.injEq] at h ⊢
    obtain ⟨c, o, hc, rfl, rfl⟩ := h
    rw [hc]
    exact ⟨c.withSender s, o, rfl, rfl, rfl⟩

section Request

variable {r : Rand} {p : Packet}

theorem recvCreditRequest_closeWait (h : a.creditSendState = .closeWait) :
    a.recvCreditRequest cfg now r p =
      { a with fctTimer := a.fctTimer.forceCancel }.acceptCreditRequest cfg now r p := by
  unfold recvCreditRequest
  split <;> first | rfl | simp_all

theorem recvCreditRequest_closed (h : a.creditSendState = .closed) :
    a.recvCreditRequest cfg now r p = a.acceptCreditRequest cfg now r p := by
  unfold recvCreditRequest
  split <;> first | rfl | simp_all

theorem recvCreditRequest_sending
    (h : a.creditSendState = .creditSending ∨ a.creditSendState = .creditStopReceived) :
    a.recvCreditRequest cfg now r p = .ok (a, []) := by
  unfold recvCreditRequest
  split <;> simp_all

end Request

theorem recvCreditRequest_withSender {r : Rand} {p : Packet}
    (h : a.recvCreditRequest cfg now r p = .ok (a', out)) :
    ∃ out', (a.withSender s).recvCreditRequest cfg now r p = .ok (a'.withSender s, out') ∧
      out'.map (·.withoutSeqno) = out.map (·.withoutSeqno) := by
  have haccept : ∀ b : XPassAgent, b.acceptCreditRequest cfg now r p = .ok (a', out) →
      ∃ out', (b.withSender s).acceptCreditRequest cfg now r p = .ok (a'.withSender s, out') ∧
        out'.map (·.withoutSeqno) = out.map (·.withoutSeqno) := by
    intro b h
    unfold acceptCreditRequest at h ⊢
    simp only [bind_eq_ok, Prod.exists, pure_eq_ok, Prod.mk.injEq] at h ⊢
    obtain ⟨c, o, hc, rfl, rfl⟩ := h
    obtain ⟨o', hc', ho⟩ := sendCredit_withSender (s := s) hc
    exact ⟨o', ⟨c.withSender s, o', hc', rfl, rfl⟩, ho⟩
  unfold recvCreditRequest at h
  split at h
  · next hs =>
    rw [recvCreditRequest_closeWait (show (a.withSender s).creditSendState = .closeWait from hs)]
    exact haccept { a with fctTimer := a.fctTimer.forceCancel } h
  · next hs =>
    rw [recvCreditRequest_closed (show (a.withSender s).creditSendState = .closed from hs)]
    exact haccept a h
  · next hs =>
    obtain ⟨rfl, rfl⟩ := Prod.mk.inj (Except.ok.inj h)
    exact ⟨[], recvCreditRequest_sending (.inl hs), rfl⟩
  · next hs =>
    obtain ⟨rfl, rfl⟩ := Prod.mk.inj (Except.ok.inj h)
    exact ⟨[], recvCreditRequest_sending (.inr hs), rfl⟩

theorem recvCreditStop_withSender (h : a.recvCreditStop cfg now = .ok (a', out)) :
    (a.withSender s).recvCreditStop cfg now = .ok (a'.withSender s, out) := by
  unfold recvCreditStop at h ⊢
  simp only [bind_eq_ok, pure_eq_ok, Prod.mk.injEq] at h ⊢
  obtain ⟨t, ht, rfl, rfl⟩ := h
  exact ⟨t, ht, rfl, rfl⟩

theorem handleReceiverRetransmit_withSender (cfg : Config) (now : ℚ) (a s : XPassAgent) :
    (a.withSender s).handleReceiverRetransmit cfg now =
      ((a.handleReceiverRetransmit cfg now).1.withSender s,
        (a.handleReceiverRetransmit cfg now).2) := by
  unfold handleReceiverRetransmit
  by_cases hw : a.waitRetransmission = true
  · rw [if_pos hw, if_pos (show (a.withSender s).waitRetransmission = true from hw)]
    rfl
  · rw [if_neg hw, if_neg (show ¬ (a.withSender s).waitRetransmission = true from hw)]

/-- The receiver role reacts in the same way whatever the state of the sender role is. -/
theorem react_withSender (hi : i.ForReceiver) (h : a.react cfg now i = .ok (a', out)) :
    ∃ out', (a.withSender s).react cfg now i = .ok (a'.withSender s, out') ∧
      out'.map (·.withoutSeqno) = out.map (·.withoutSeqno) := by
  cases i with
  | advanceBytes nb => cases hi
  | recv p r =>
    simp only [react, recv] at h ⊢
    rcases hi with hp | hp | hp
    · rw [hp] at h ⊢
      exact recvCreditRequest_withSender h
    · rw [hp] at h ⊢
      exact ⟨out, recvData_withSender h, rfl⟩
    · rw [hp] at h ⊢
      exact ⟨out, recvCreditStop_withSender h, rfl⟩
  | expire t r =>
    simp only [react, handle, bind_eq_ok, Prod.exists, pure_eq_ok, Prod.mk.injEq] at h ⊢
    obtain ⟨th, hth, c, o, hc, rfl, rfl⟩ := h
    rcases hi with rfl | rfl | rfl
    · obtain ⟨o', hc', ho⟩ := sendCredit_withSender (s := s) hc
      exact ⟨o', ⟨th, hth, c.withSender s, o', hc', rfl, rfl⟩, ho⟩
    · refine ⟨o, ⟨th, hth, c.withSender s, o, ?_, rfl, rfl⟩, rfl⟩
      have hr := handleReceiverRetransmit_withSender cfg now (a.setTimer th .receiverRetransmit) s
      rw [Except.ok.inj hc] at hr
      exact congrArg Except.ok hr
    · obtain ⟨rfl, rfl⟩ := Prod.mk.inj (Except.ok.inj hc)
      exact ⟨_, ⟨th, hth, _, _, rfl, rfl, rfl⟩, rfl⟩

/-! ## Without a use of `rtt_` its value does not matter -/

section Rtt

variable {q : ℚ} {r : Rand} {p : Packet}

/-- A CREDIT that is sent without a measurement to evaluate. -/
theorem sendCredit_withRtt (hf : a.creditFeedbackControl cfg now = a)
    (hf' : (a.withRtt q).creditFeedbackControl cfg now = a.withRtt q)
    (h : a.sendCredit cfg now r = .ok (a', out)) :
    (a.withRtt q).sendCredit cfg now r = .ok (a'.withRtt q, out) ∧ a'.rtt = a.rtt := by
  unfold sendCredit at h ⊢
  rw [hf] at h
  rw [hf']
  simp only [bind_eq_ok, Prod.exists, constructCredit, pure_eq_ok, Prod.mk.injEq] at h ⊢
  obtain ⟨p, c, ⟨size, hsize, rfl, rfl⟩, h⟩ := h
  split_ifs at h with hj
  obtain ⟨rfl, rfl⟩ := Prod.mk.inj (pure_eq_ok.mp h)
  refine ⟨⟨_, _, ⟨size, hsize, rfl, rfl⟩, ?_⟩, rfl⟩
  rw [if_neg hj]
  exact pure_eq_ok.mpr rfl

theorem creditFeedbackControl_of_total (h : a.creditTotal = 0) :
    a.creditFeedbackControl cfg now = a := by
  unfold creditFeedbackControl
  rw [if_pos h]
  split_ifs <;> rfl

theorem recvCreditRequest_withRtt (h : a.recvCreditRequest cfg now r p = .ok (a', out)) :
    (a.withRtt q).recvCreditRequest cfg now r p = .ok (a'.withRtt q, out) ∧ a'.rtt = a.rtt := by
  have haccept : ∀ b : XPassAgent, b.acceptCreditRequest cfg now r p = .ok (a', out) →
      (b.withRtt q).acceptCreditRequest cfg now r p = .ok (a'.withRtt q, out) ∧
        a'.rtt = b.rtt := by
    intro b h
    unfold acceptCreditRequest at h ⊢
    simp only [bind_eq_ok, Prod.exists, pure_eq_ok, Prod.mk.injEq] at h ⊢
    obtain ⟨c, o, hc, rfl, rfl⟩ := h
    obtain ⟨hc', hrtt⟩ := sendCredit_withRtt (q := q) (creditFeedbackControl_of_fresh rfl)
      (creditFeedbackControl_of_fresh rfl) hc
    exact ⟨⟨c.withRtt q, o, hc', rfl, rfl⟩, hrtt⟩
  unfold recvCreditRequest at h
  split at h
  · next hs =>
    rw [recvCreditRequest_closeWait (show (a.withRtt q).creditSendState = .closeWait from hs)]
    exact haccept { a with fctTimer := a.fctTimer.forceCancel } h
  · next hs =>
    rw [recvCreditRequest_closed (show (a.withRtt q).creditSendState = .closed from hs)]
    exact haccept a h
  · next hs =>
    obtain ⟨rfl, rfl⟩ := Prod.mk.inj (Except.ok.inj h)
    exact ⟨recvCreditRequest_sending (.inl hs), rfl⟩
  · next hs =>
    obtain ⟨rfl, rfl⟩ := Prod.mk.inj (Except.ok.inj h)
    exact ⟨recvCreditRequest_sending (.inr hs), rfl⟩

theorem handleReceiverRetransmit_withRtt (cfg : Config) (now : ℚ) (a : XPassAgent) (q : ℚ) :
    (a.withRtt q).handleReceiverRetransmit cfg now =
      ((a.handleReceiverRetransmit cfg now).1.withRtt q,
        (a.handleReceiverRetransmit cfg now).2) ∧
      (a.handleReceiverRetransmit cfg now).1.rtt = a.rtt := by
  unfold handleReceiverRetransmit
  by_cases hw : a.waitRetransmission = true
  · rw [if_pos hw, if_pos (show (a.withRtt q).waitRetransmission = true from hw)]
    exact ⟨rfl, rfl⟩
  · rw [if_neg hw, if_neg (show ¬ (a.withRtt q).waitRetransmission = true from hw)]
    exact ⟨rfl, rfl⟩

/-- An input that does not use `rtt_` leaves it alone and does the same whatever it is. -/
theorem react_withRtt (hi : i.ForReceiver) (hu : ¬ a.UsesRtt i)
    (h : a.react cfg now i = .ok (a', out)) :
    (a.withRtt q).react cfg now i = .ok (a'.withRtt q, out) ∧ a'.rtt = a.rtt := by
  cases i with
  | advanceBytes nb => cases hi
  | recv p r =>
    simp only [react, recv] at h ⊢
    rcases hi with hp | hp | hp
    · rw [hp] at h ⊢
      exact recvCreditRequest_withRtt h
    · exact absurd hp hu
    · rw [hp] at h ⊢
      simp only [recvCreditStop, bind_eq_ok, pure_eq_ok, Prod.mk.injEq] at h ⊢
      obtain ⟨t, ht, rfl, rfl⟩ := h
      exact ⟨⟨t, ht, rfl, rfl⟩, rfl⟩
  | expire t r =>
    simp only [react, handle, bind_eq_ok, Prod.exists, pure_eq_ok, Prod.mk.injEq] at h ⊢
    obtain ⟨th, hth, c, o, hc, rfl, rfl⟩ := h
    rcases hi with rfl | rfl | rfl
    · have ht : a.creditTotal = 0 := by
        by_contra hne
        exact hu ⟨rfl, hne⟩
      obtain ⟨hc', hrtt⟩ := sendCredit_withRtt (a := a.setTimer th .sendCredit) (q := q)
        (creditFeedbackControl_of_total ht) (creditFeedbackControl_of_total ht) hc
      exact ⟨⟨th, hth, c.withRtt q, o, hc', rfl, rfl⟩, hrtt⟩
    · obtain ⟨hr, hrtt⟩ := handleReceiverRetransmit_withRtt cfg now
        (a.setTimer th .receiverRetransmit) q
      rw [Except.ok.inj hc] at hr hrtt
      exact ⟨⟨th, hth, c.withRtt q, o, congrArg Except.ok hr, rfl, rfl⟩, hrtt⟩
    · obtain ⟨rfl, rfl⟩ := Prod.mk.inj (Except.ok.inj hc)
      exact ⟨⟨th, hth, _, _, rfl, rfl, rfl⟩, rfl⟩

end Rtt

/-! ## Steps of the two roles -/

/-- Agents with the same receiver role take the same step in it, if `rtt_` is not used or the
same. -/
theorem SameReceiver.react (hab : SameReceiver a b) (hi : i.ForReceiver)
    (hu : a.UsesRtt i → b.rtt = a.rtt) (h : a.react cfg now i = .ok (a', out)) :
    ∃ b' out', b.react cfg now i = .ok (b', out') ∧ SameReceiver a' b' ∧
      out'.map (·.withoutSeqno) = out.map (·.withoutSeqno) ∧ (b.rtt = a.rtt → b'.rtt = a'.rtt) := by
  obtain ⟨out', hr, ho⟩ := react_withSender (s := b) hi h
  by_cases hrtt : b.rtt = a.rtt
  · have hb : a.withSender b = b := by
      rw [SameReceiver, hrtt] at hab
      exact hab.symm
    rw [hb] at hr
    exact ⟨_, out', hr, rfl, ho, fun _ => rfl⟩
  · have hu' : ¬ (a.withSender b).UsesRtt i := fun h' => by
      cases i with
      | advanceBytes nb => exact h'
      | recv p r => exact hrtt (hu h')
      | expire t r => exact hrtt (hu h')
    obtain ⟨hr', -⟩ := react_withRtt (q := b.rtt) hi hu' hr
    rw [← show b = (a.withSender b).withRtt b.rtt from hab] at hr'
    exact ⟨_, out', hr', rfl, ho, fun h' => absurd h' hrtt⟩

theorem sendData_rtt {p : Packet} (h : a.sendData cfg p = .ok (a', out)) : a'.rtt = a.rtt := by
  rcases sendData_eq_ok_iff.mp h with ⟨-, rfl, -⟩ | ⟨-, -, rfl, -⟩ <;> rfl

theorem recvCredit_rtt {p : Packet} (hs : a.creditRecvState ≠ .creditRequestSent)
    (h : a.recvCredit cfg now p = .ok (a', out)) : a'.rtt = a.rtt := by
  simp only [recvCredit] at h
  split at h
  · next hs' => exact absurd hs' hs
  · obtain ⟨_, _, _, _, hd, rfl, -⟩ := creditReceiving_eq_ok h
    have hrtt := sendData_rtt hd
    exact hrtt
  · simp only [bind_eq_ok, Prod.exists, pure_eq_ok, Prod.mk.injEq] at h
    obtain ⟨_, _, hd, rfl, rfl⟩ := h
    have hrtt := sendData_rtt hd
    exact hrtt
  · cases h; rfl
  · cases h; rfl

/-- An input of the sender role leaves `rtt_` alone before the first CREDIT_REQUEST. -/
theorem SenderMove.rtt (hm : SenderMove cfg now a i a' out)
    (h : a.react cfg now i = .ok (a', out)) :
    (a'.creditRecvState = .creditRequestSent →
      a.creditRecvState = .creditRequestSent ∨ requests out = true) ∧
    (a.creditRecvState ≠ .creditRequestSent → requests out = false → a'.rtt = a.rtt) := by
  cases hm with
  | answerCredit hp _ _ _ hc | wasteCredit hp _ hc =>
    simp only [XPassAgent.react, recv, hp] at h
    obtain ⟨_, _, _, _, _, -, rfl⟩ := hc
    refine ⟨fun hs => .inl ?_, fun hs _ => recvCredit_rtt hs h⟩
    change a.creditRecvState.afterCredit = .creditRequestSent at hs
    cases hs' : a.creditRecvState <;> simp [hs', RecvState.afterCredit] at hs
  | advance | reopen | retry =>
    exact ⟨fun _ => .inr rfl, fun _ hq => by simp [requests, creditRequestPacket] at hq⟩
  | rewind | unused => exact ⟨.inl, fun _ _ => rfl⟩
  | _ =>
    refine ⟨fun hs => ?_, fun _ _ => rfl⟩
    cases hs

/-- Any other input than one of the receiver role. -/
theorem other_step (hi : ¬ i.ForReceiver) (h : a.react cfg now i = .ok (a', out)) :
    SameReceiver a a' ∧
    (a'.creditRecvState = .creditRequestSent →
      a.creditRecvState = .creditRequestSent ∨ requests out = true) ∧
    (a.creditRecvState ≠ .creditRequestSent → requests out = false → a'.rtt = a.rtt) := by
  cases react_move h with
  | sender hm => exact ⟨hm.sameReceiver, hm.rtt h⟩
  | receiver hm => exact absurd hm.forReceiver hi
  | unknown _ _ ha =>
    subst ha
    exact ⟨rfl, .inl, fun _ _ => rfl⟩

/-! ## Runs -/

section Runs

variable {xs ys : List TimedInput} {obs : List Observation} {w v : Bool}

theorem play_cons {x : TimedInput} :
    play cfg (x :: xs) a = .ok (b, obs) ↔
      ∃ a' out obs', a.react cfg x.1 x.2 = .ok (a', out) ∧ play cfg xs a' = .ok (b, obs') ∧
        obs = if x.2.ForReceiver then ⟨x.1, a'.curCreditRate, out.map (·.withoutSeqno)⟩ :: obs'
          else obs' := by
  simp only [play, bind_eq_ok, Prod.exists, pure_eq_ok, Prod.mk.injEq]
  constructor
  · rintro ⟨a', out, hr, b', obs', hp, rfl, rfl⟩; exact ⟨a', out, obs', hr, hp, rfl⟩
  · rintro ⟨a', out, obs', hr, hp, rfl⟩; exact ⟨a', out, hr, b, obs', hp, rfl, rfl⟩

theorem along_cons {C : Bool → XPassAgent → TimedInput → Prop} {x : TimedInput}
    (hr : a.react cfg x.1 x.2 = .ok (a', out)) :
    Along cfg C w (x :: xs) a ↔ C w a x ∧ Along cfg C (w || requests out) xs a' := by
  rw [Along, hr]

theorem SameReceiver.due {x : TimedInput} (hab : SameReceiver a b) (h : Due w a x) :
    Due v b x := by
  obtain ⟨now, i⟩ := x
  cases i with
  | advanceBytes nb => trivial
  | recv p r => trivial
  | expire t r =>
    rintro (rfl | rfl | rfl) <;> rw [hab]
    · exact h (.inl rfl)
    · exact h (.inr (.inl rfl))
    · exact h (.inr (.inr rfl))

/-- The inputs of the sender role can be removed from a run that uses no `rtt_` of its making. -/
theorem play_receiverInputs (h : play cfg xs a = .ok (a', obs)) (hab : SameReceiver a b)
    (hs : a.creditRecvState = .creditRequestSent → w = true) (hq : w = false → b.rtt = a.rtt)
    (ho : Along cfg OwnRtt w xs a) (hd : Along cfg Due w xs a) :
    ∃ b', play cfg (receiverInputs xs) b = .ok (b', obs) ∧ SameReceiver a' b' ∧
      Along cfg Due v (receiverInputs xs) b := by
  induction xs generalizing a b w v obs with
  | nil =>
    obtain ⟨rfl, rfl⟩ := Prod.mk.inj (Except.ok.inj h)
    exact ⟨b, rfl, hab, trivial⟩
  | cons x xs ih =>
    obtain ⟨c, out, obs', hr, hp, rfl⟩ := play_cons.mp h
    obtain ⟨hox, ho⟩ := (along_cons hr).mp ho
    obtain ⟨hdx, hd⟩ := (along_cons hr).mp hd
    by_cases hi : x.2.ForReceiver
    · have hu : a.UsesRtt x.2 → b.rtt = a.rtt := fun hu => hq (by
        cases w
        · rfl
        · exact absurd hu (hox rfl))
      obtain ⟨d, out', hrb, hcd, hout, hrtt⟩ := hab.react hi hu hr
      have hst : c.creditRecvState = a.creditRecvState :=
        (receiverMove_of_react hi hr).frame.creditRecvState
      obtain ⟨b', hp', hab', hdue⟩ := ih (v := v || requests out') hp hcd
        (fun hs' => by rw [hs (hst ▸ hs')]; rfl)
        (fun hw => hrtt (hq (by cases w <;> simp_all))) ho hd
      have hrec : receiverInputs (x :: xs) = x :: receiverInputs xs := by
        simp [receiverInputs, hi]
      rw [hrec]
      refine ⟨b', ?_, hab', (along_cons hrb).mpr ⟨hab.due hdx, hdue⟩⟩
      rw [play_cons]
      refine ⟨d, out', obs', hrb, hp', ?_⟩
      rw [if_pos hi, if_pos hi, hout, show d.curCreditRate = c.curCreditRate by rw [hcd]; rfl]
    · obtain ⟨hsame, hreq, hrtt⟩ := other_step hi hr
      have hrec : receiverInputs (x :: xs) = receiverInputs xs := by
        simp [receiverInputs, hi]
      rw [hrec, if_neg hi]
      refine ih hp (hsame.symm.trans hab) (fun hs' => ?_) (fun hw => ?_) ho hd
      · rcases hreq hs' with h' | h'
        · rw [hs h']; rfl
        · rw [h', Bool.or_true]
      · obtain ⟨hw, ho⟩ := Bool.or_eq_false_iff.mp hw
        rw [hq hw, hrtt (fun hs' => by simp [hs hs'] at hw) ho]

/-- A timer that expires when it is due leaves no choice of the time. -/
theorem skeleton_inj {x y : TimedInput} (hx : Due w a x) (hy : Due v a y)
    (hi : x.2.ForReceiver) (h : skeleton x = skeleton y) : x = y := by
  obtain ⟨now, i⟩ := x
  obtain ⟨now', j⟩ := y
  cases i with
  | advanceBytes nb => cases hi
  | recv p r =>
    cases j with
    | recv p' r' => simpa [skeleton] using h
    | _ => simp [skeleton] at h
  | expire t r =>
    cases j with
    | expire t' r' =>
      obtain ⟨rfl, rfl⟩ : t = t' ∧ r = r' := by simpa [skeleton] using h
      have : (now : WithTop ℚ) = now' := (hx hi).symm.trans (hy hi)
      rw [WithTop.coe_inj.mp this]
    | _ => simp [skeleton] at h

theorem eq_of_skeleton (hx : Along cfg Due w xs a) (hy : Along cfg Due v ys a)
    (hfor : ∀ x ∈ xs, x.2.ForReceiver) (hp : play cfg xs a = .ok (b, obs))
    (hs : xs.map skeleton = ys.map skeleton) : xs = ys := by
  induction xs generalizing a w v obs ys with
  | nil => exact (List.map_eq_nil_iff.mp hs.symm).symm
  | cons x xs ih =>
    cases ys with
    | nil => cases hs
    | cons y ys =>
      obtain ⟨hxy, hs'⟩ := List.cons.inj hs
      obtain ⟨c, out, obs', hr, hp', -⟩ := play_cons.mp hp
      obtain rfl : x = y := skeleton_inj hx.1 hy.1 (hfor x List.mem_cons_self) hxy
      rw [ih ((along_cons hr).mp hx).2 ((along_cons hr).mp hy).2
        (fun z hz => hfor z (List.mem_cons_of_mem x hz)) hp' hs']

/-- In two runs from the same new agent whose receiver roles get the same packets at the same
times, and whose timers expire when they are due, the receiver roles show the same, if neither
uses `rtt_` once a CREDIT_REQUEST has stored the clock there. -/
theorem receiver_undisturbed {c : XPassAgent} {obs' : List Observation} (ha : a.IsNew)
    (hxy : (receiverInputs xs).map skeleton = (receiverInputs ys).map skeleton)
    (hx : play cfg xs a = .ok (b, obs)) (hy : play cfg ys a = .ok (c, obs'))
    (hdx : Along cfg Due false xs a) (hdy : Along cfg Due false ys a)
    (hox : Along cfg OwnRtt false xs a) (hoy : Along cfg OwnRtt false ys a) :
    obs = obs' ∧ SameReceiver b c := by
  have hst : a.creditRecvState = .creditRequestSent → false = true := fun h => by
    rw [ha] at h
    cases h
  obtain ⟨b', hpx, hb, hdx'⟩ :=
    play_receiverInputs (b := a) (v := false) hx rfl hst (fun _ => rfl) hox hdx
  obtain ⟨c', hpy, hc, hdy'⟩ :=
    play_receiverInputs (b := a) (v := false) hy rfl hst (fun _ => rfl) hoy hdy
  have heq : receiverInputs xs = receiverInputs ys :=
    eq_of_skeleton hdx' hdy' (fun x hm => by simpa using List.of_mem_filter hm) hpx hxy
  rw [← heq, hpx] at hpy
  obtain ⟨rfl, rfl⟩ := Prod.mk.inj (Except.ok.inj hpy)
  exact ⟨rfl, hb.trans hc.symm⟩

end Runs

/-! ## A CREDIT_REQUEST between two rounds of feedback control -/

/-- Small rates and no randomness. -/
def steadyConfig : Config where
  maxCreditRate := 8400
  minJitter := 0
  maxJitter := 0

def peerRequest : Packet where
  ptype := .xpassCreditRequest
  size := 84
  sendbuffer := 100
  creditSentTime := 1

def peerData : Packet where
  ptype := .xpassData
  size := 1538
  seqno := 1
  hlen := 78
  creditSeq := 1
  creditSentTime := 1

/-- A CREDIT_REQUEST, DATA after ten milliseconds and the CREDIT that is due after twenty. -/
def peerFlow : List TimedInput :=
  [(1, .recv peerRequest default), (101 / 100, .recv peerData default),
    (51 / 50, .expire .sendCredit default)]

/-- The same, with an `advance-bytes` of the agent in between. -/
def peerFlowWithOwn : List TimedInput :=
  peerFlow.take 2 ++ (203 / 200, .advanceBytes 1460) :: peerFlow.drop 2

/-- The rates that the receiver role shows in a run. -/
def rates (cfg : Config) (xs : List TimedInput) (a : XPassAgent) : Option (List ℤ) :=
  match play cfg xs a with
  | .ok (_, obs) => some (obs.map (·.rate))
  | .error _ => none

theorem play_of_rates {xs : List TimedInput} {rs : List ℤ} (h : rates cfg xs a = some rs) :
    ∃ b obs, play cfg xs a = .ok (b, obs) ∧ obs.map (·.rate) = rs := by
  unfold rates at h
  split at h
  · next hp => exact ⟨_, _, hp, Option.some.inj h⟩
  · cases h

/-- The clock in `rtt_` keeps feedback control from raising the rate. -/
theorem receiver_disturbed : ∃ b c obs obs',
    receiverInputs peerFlow = receiverInputs peerFlowWithOwn ∧
      play steadyConfig peerFlow default = .ok (b, obs) ∧
      play steadyConfig peerFlowWithOwn default = .ok (c, obs') ∧
      Along steadyConfig Due false peerFlow default ∧
      Along steadyConfig Due false peerFlowWithOwn default ∧
      obs.map (·.rate) = [4200, 4200, 8400] ∧ obs'.map (·.rate) = [4200, 4200, 4200] := by
  have hp : rates steadyConfig peerFlow default = some [4200, 4200, 8400] := by decide +kernel
  have hp' : rates steadyConfig peerFlowWithOwn default = some [4200, 4200, 4200] := by
    decide +kernel
  obtain ⟨b, obs, hb, ho⟩ := play_of_rates hp
  obtain ⟨c, obs', hc, ho'⟩ := play_of_rates hp'
  exact ⟨b, c, obs, obs', by rfl, hb, hc, by decide +kernel, by decide +kernel, ho, ho'⟩

/-- A run with an `advance-bytes` after the last use of `rtt_` shows what the run without shows. -/
theorem receiver_undisturbed_peerFlow : ∃ b c obs obs',
    play steadyConfig peerFlow default = .ok (b, obs) ∧
      play steadyConfig (peerFlow ++ [(21 / 20, .advanceBytes 1460)]) default = .ok (c, obs') ∧
      obs = obs' := by
  have hp : rates steadyConfig peerFlow default = some [4200, 4200, 8400] := by decide +kernel
  have hp' : rates steadyConfig (peerFlow ++ [(21 / 20, .advanceBytes 1460)]) default =
      some [4200, 4200, 8400] := by decide +kernel
  obtain ⟨b, obs, hb, -⟩ := play_of_rates hp
  obtain ⟨c, obs', hc, -⟩ := play_of_rates hp'
  exact ⟨b, c, obs, obs', hb, hc, (receiver_undisturbed (a := default) rfl (by rfl) hb hc
    (by decide +kernel) (by decide +kernel) (by decide +kernel) (by decide +kernel)).1⟩

end XPassAgent

end Ns2XPass
