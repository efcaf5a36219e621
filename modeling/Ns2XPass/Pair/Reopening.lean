import Ns2XPass.Agent.CloseWait
import Ns2XPass.Library.Channel
import Ns2XPass.Library.Switch
import Ns2XPass.Pair.Moves

/-! # Stopping and reopening a flow

A CREDIT_REQUEST makes the receiver send credits and a CREDIT_STOP ends this, but
the sender takes any CREDIT for the answer to its request, also one that was sent
before. As long as it does so only when the receiver will indeed be sending, no
CREDIT_STOP arrives at a receiver that is not, and no timer is scheduled twice.
-/

namespace Ns2XPass

open XPassAgent

/-- A CREDIT_REQUEST turns the receiver on and a CREDIT_STOP turns it off. -/
def InFlight.switch (m : InFlight) : Option Bool :=
  match m.pkt.ptype with
  | .xpassCreditRequest => some true
  | .xpassCreditStop => some false
  | .xpassCredit | .xpassData | .xpassNack | .other _ => none

namespace Pair

variable {cfg : Side → Config} {s s' : Pair} {x : PairAction}

def sending (s : Pair) : Bool := s.receiver.creditSendState = .creditSending

/-- Whether the receiver will be sending credits when all packets on their way have arrived. -/
def willSend (s : Pair) : Bool := turned InFlight.switch s.sending s.toReceiver

/-- What follows the packet at a position of the channel, a CREDIT_STOP or the present state of
the sender, takes the receiver to be sending credits. -/
def ReliedOn (s : Pair) (i : ℕ) : Prop :=
  (s.toReceiver.drop (i + 1)).findSome? InFlight.switch = some false ∨
    (s.toReceiver.drop (i + 1)).findSome? InFlight.switch = none ∧
      s.sender.creditRecvState = .creditReceiving

instance (s : Pair) (i : ℕ) : Decidable (s.ReliedOn i) := inferInstanceAs (Decidable (_ ∨ _ ∧ _))

/-- A CREDIT that is taken for the answer to a CREDIT_REQUEST comes when the receiver will be
sending credits, and a CREDIT_REQUEST is lost only if the receiver will be sending without it
or nothing relies on it. -/
def Answered (s : Pair) : PairAction → Prop
  | .deliver .sender i _ => ∀ m ∈ s.toSender[i]?, m.pkt.ptype = .xpassCredit →
      s.sender.creditRecvState = .creditRequestSent → s.willSend = true
  | .lose .receiver i => ∀ m ∈ s.toReceiver[i]?, m.pkt.ptype = .xpassCreditRequest →
      turned InFlight.switch s.sending (s.toReceiver.take i) = true ∨ ¬ s.ReliedOn i
  | _ => True

instance (s : Pair) : DecidablePred s.Answered
  | .deliver .sender i _ => inferInstanceAs (Decidable (∀ m ∈ s.toSender[i]?,
      m.pkt.ptype = .xpassCredit → s.sender.creditRecvState = .creditRequestSent →
      s.willSend = true))
  | .lose .receiver i => inferInstanceAs (Decidable (∀ m ∈ s.toReceiver[i]?,
      m.pkt.ptype = .xpassCreditRequest →
      turned InFlight.switch s.sending (s.toReceiver.take i) = true ∨ ¬ s.ReliedOn i))
  | .deliver .receiver _ _ | .lose .sender _ | .tick _ | .advanceBytes _ | .expire _ _ _ =>
    inferInstanceAs (Decidable True)

/-- Each CREDIT_STOP on its way arrives at a receiver that is sending credits, and a sender that
receives credits will go on to. -/
structure Served (s : Pair) : Prop where
  stops : OffsMeetOn InFlight.switch s.sending s.toReceiver
  receiving : s.sender.creditRecvState = .creditReceiving → s.willSend = true
  live : s.receiver.creditSendState ≠ .creditStopReceived
  uncounted : s.sender.NoneCounted

/-! ## Moves of the sender -/

theorem switch_of_data {m : InFlight} (h : m.pkt.ptype = .xpassData) : m.switch = none := by
  simp [InFlight.switch, h]

theorem switch_of_request {m : InFlight} (h : m.pkt.ptype = .xpassCreditRequest) :
    m.switch = some true := by
  simp [InFlight.switch, h]

theorem switch_of_stop {m : InFlight} (h : m.pkt.ptype = .xpassCreditStop) :
    m.switch = some false := by
  simp [InFlight.switch, h]

theorem switch_ne_on {m : InFlight} (h : m.pkt.ptype ≠ .xpassCreditRequest) :
    m.switch ≠ some true := by
  unfold InFlight.switch
  split <;> simp_all

theorem state_of_afterCredit {a : XPassAgent}
    (h : a.afterCredit.creditRecvState = .creditReceiving) :
    a.creditRecvState = .creditRequestSent ∨ a.creditRecvState = .creditReceiving := by
  cases hs : a.creditRecvState <;> simp_all [afterCredit, RecvState.afterCredit]

/-- The sender puts no packet in the channel, or one that is not a CREDIT_STOP unless the
receiver will be sending. -/
theorem Served.senderMove (h : s.Served) (ht : s.sender.TimersMatch) {c : Config} {i : Input}
    {y : XPassAgent} {out : List Effect} {ms : List InFlight} {l : ℤ} {k n : ℕ}
    (hm : SenderMove c s.clock s.sender i y out)
    (hans : ∀ p r, i = .recv p r → p.ptype = .xpassCredit →
      s.sender.creditRecvState = .creditRequestSent → s.willSend = true) :
    { s with
      sender := y, flows := k, toSender := ms
      toReceiver := s.toReceiver ++ flight l n out }.Served := by
  have hcredit : ∀ p r, i = .recv p r → p.ptype = .xpassCredit →
      s.sender.afterCredit.creditRecvState = .creditReceiving → s.willSend = true := by
    intro p r hi hp hs
    rcases state_of_afterCredit hs with hs | hs
    · exact hans p r hi hp hs
    · exact h.receiving hs
  refine ⟨?_, ?_, h.live, hm.noneCounted h.uncounted⟩
  · apply offsMeetOn_append.mpr
    refine ⟨h.stops, ?_⟩
    cases hm with
    | advance | reopen | retry => exact ⟨by simp [InFlight.switch, creditRequestPacket], trivial⟩
    | answerCredit => exact ⟨by simp [InFlight.switch, dataPacket], trivial⟩
    | stop hp =>
      have hs := (ht.creditStop.resolve_left (by simp [hp])).2
      exact ⟨fun _ => h.receiving hs, trivial⟩
    | restop _ hs hc => exact absurd (h.uncounted hs) hc
    | wasteCredit | rewind | linger | close | unused => trivial
  · intro hs
    rw [willSend, turned_append]
    cases hm with
    | answerCredit hp _ _ _ hc =>
      obtain ⟨_, _, _, _, _, _, rfl⟩ := hc
      exact hcredit _ _ rfl hp hs
    | wasteCredit hp _ hc =>
      obtain ⟨_, _, _, _, _, _, rfl⟩ := hc
      exact hcredit _ _ rfl hp hs
    | rewind => exact h.receiving hs
    | unused _ hs => exact h.receiving hs
    | advance | reopen | retry | stop | linger | close | restop => cases hs

/-! ## Moves of the receiver -/

/-- The receiver is switched by the packets it takes. -/
theorem sending_of_recv {c : Config} {now : ℚ} {a a' : XPassAgent} {r : Rand} {m : InFlight}
    {out : List Effect} (hm : ReceiverMove c now a (.recv m.pkt r) a' out)
    (hlive : a.creditSendState ≠ .creditStopReceived) :
    decide (a'.creditSendState = .creditSending) =
        turn InFlight.switch (decide (a.creditSendState = .creditSending)) m ∧
      a'.creditSendState ≠ .creditStopReceived := by
  cases hm with
  | acceptRequest hp => exact ⟨by simp [turn, switch_of_request hp], by simp⟩
  | ignoreRequest hp hs =>
    have hs := hs.resolve_right hlive
    exact ⟨by simp [turn, switch_of_request hp, hs], hlive⟩
  | stopCredits hp => exact ⟨by simp [turn, switch_of_stop hp], by simp⟩
  | firstGap hp | laterGap hp | nextData hp | oldData hp =>
    rw [turn_of_none (switch_of_data hp)]
    exact ⟨rfl, hlive⟩

theorem sending_of_expire {c : Config} {now : ℚ} {a a' : XPassAgent} {t : AgentTimer} {r : Rand}
    {out : List Effect} (hm : ReceiverMove c now a (.expire t r) a' out) (ht : a.TimersMatch)
    (hlive : a.creditSendState ≠ .creditStopReceived) :
    decide (a'.creditSendState = .creditSending) = decide (a.creditSendState = .creditSending) ∧
      a'.creditSendState ≠ .creditStopReceived := by
  cases hm with
  | credit | renack | settled => exact ⟨rfl, hlive⟩
  | record hp => simp [ht.fct.pending_iff.mp hp]

theorem Served.receiverRecv (h : s.Served) {c : Config} {r : Rand} {m : InFlight}
    {rest ms : List InFlight} {y : XPassAgent} {out : List Effect}
    (hrest : s.toReceiver = m :: rest)
    (hm : ReceiverMove c s.clock s.receiver (.recv m.pkt r) y out) :
    { s with receiver := y, toReceiver := rest, toSender := ms }.Served := by
  obtain ⟨hsend, hlive⟩ := sending_of_recv hm h.live
  have hstops := h.stops
  have hreceiving := h.receiving
  rw [willSend, hrest] at hreceiving
  rw [hrest] at hstops
  constructor
  · rw [sending, hsend]; exact hstops.2
  · intro hs
    rw [willSend, sending, hsend]
    exact hreceiving hs
  · exact hlive
  · exact h.uncounted

theorem Served.receiverExpire (h : s.Served) (ht : s.receiver.TimersMatch) {c : Config}
    {t : AgentTimer} {r : Rand} {ms : List InFlight} {y : XPassAgent} {out : List Effect}
    (hm : ReceiverMove c s.clock s.receiver (.expire t r) y out) :
    { s with receiver := y, toSender := ms }.Served := by
  obtain ⟨hsend, hlive⟩ := sending_of_expire hm ht h.live
  constructor
  · rw [sending, hsend]; exact h.stops
  · intro hs
    rw [willSend, sending, hsend]
    exact h.receiving hs
  · exact hlive
  · exact h.uncounted

/-! ## Losses -/

theorem Served.lose (h : s.Served) {i : ℕ} {m : InFlight} (hm : s.toReceiver[i]? = some m)
    (hans : m.pkt.ptype = .xpassCreditRequest →
      turned InFlight.switch s.sending (s.toReceiver.take i) = true ∨ ¬ s.ReliedOn i) :
    { s with toReceiver := s.toReceiver.eraseIdx i }.Served := by
  have hsplit := eq_append_of_getElem? hm
  have hstops := h.stops
  have hreceiving := h.receiving
  rw [hsplit] at hstops
  rw [willSend, hsplit] at hreceiving
  by_cases hp : m.pkt.ptype = .xpassCreditRequest
  · have hon := switch_of_request hp
    have hsafe := hans hp
    refine ⟨?_, fun hs => ?_, h.live, h.uncounted⟩
    · rw [List.eraseIdx_eq_take_drop_succ]
      exact hstops.erase_on hon (hsafe.imp_right fun hn hoff => hn (.inl hoff))
    · rw [willSend, List.eraseIdx_eq_take_drop_succ]
      apply turned_erase_on hon (hreceiving hs)
      apply hsafe.imp_right
      intro hn
      cases hk : (s.toReceiver.drop (i + 1)).findSome? InFlight.switch with
      | none => exact absurd (.inr ⟨hk, hs⟩) hn
      | some on =>
        cases on with
        | true => rfl
        | false => exact absurd (.inl hk) hn
  · have hoff := switch_ne_on hp
    refine ⟨?_, fun hs => ?_, h.live, h.uncounted⟩
    · rw [List.eraseIdx_eq_take_drop_succ]
      exact hstops.erase hoff
    · rw [willSend, List.eraseIdx_eq_take_drop_succ]
      exact turned_erase hoff (hreceiving hs)

/-! ## Runs -/

theorem Served.move (h : s.Served) (hr : s.Roles) (hm : Move cfg s x s') (hf : s.Fifo x)
    (hans : s.Answered x) : s'.Served := by
  cases hm with
  | tick => exact ⟨h.stops, h.receiving, h.live, h.uncounted⟩
  | loseToReceiver hi =>
    have hget := List.getElem?_eq_getElem hi
    exact h.lose hget (hans _ hget)
  | loseToSender => exact ⟨h.stops, h.receiving, h.live, h.uncounted⟩
  | advance _ _ hm => exact h.senderMove hr.senderTimers hm (by simp)
  | senderRecv hget _ hm =>
    exact h.senderMove hr.senderTimers hm (by rintro _ _ ⟨⟩; exact hans _ hget)
  | senderExpire hm => exact h.senderMove hr.senderTimers hm (by simp)
  | receiverRecv hget _ hm =>
    obtain rfl : _ = 0 := hf
    obtain ⟨rest, hrest⟩ := eq_cons_of_getElem?_zero hget
    rw [hrest]
    exact h.receiverRecv hrest hm
  | receiverExpire hm => exact h.receiverExpire hr.receiverTimers hm

end Pair

/-- The runs over queues in which requests are answered. -/
def answeredMachine (cfg : Side → Config) : Machine Pair PairAction Exit :=
  (pairMachine cfg).restrict fun s x => s.Fifo x ∧ s.Answered x

theorem served_invariant (cfg : Side → Config) :
    (answeredMachine cfg).Invariant fun s => s.Roles ∧ s.Served := by
  apply (roles_invariant cfg).restrict.under
  · rintro s ⟨hs, hr, ht, _⟩
    constructor
    · simp [ht, OffsMeetOn]
    · rw [hs]; simp
    · rw [hr]; simp
    · rw [hs]; intro h; cases h
  · intro s x s' hr h he hs
    exact h.move hr (Pair.step_move hr he.1 hs) he.2.1 he.2.2

/-- In the runs whose requests are answered, no step schedules a timer that is not idle, when a
scheduled CREDIT_STOP leaves before the next packet arrives. -/
theorem no_timer_aborts (cfg : Side → Config) {s : Pair} {x : PairAction}
    (h : (answeredMachine cfg).Reachable s) (he : s.Enabled x) (hf : s.Fifo x)
    (hst : s.StopFirst x) :
    (∀ a, s.step cfg x ≠ .error (.timer a)) ∧
      s.step cfg x ≠ .error .creditStopTimerScheduledTwice := by
  obtain ⟨hr, hserved⟩ := (served_invariant cfg).reachable h
  constructor
  · intro a hs
    cases Pair.step_stopped he hs with
    | advanceBytes hstop =>
      cases hstop with
      | senderRetransmitBusy hbusy =>
        exact hbusy (hr.senderTimers.senderRetransmit.idle_iff.mpr
          (by simp [AwaitsRetransmit, he.2]))
    | @deliver d i r m hm _ hstop =>
      cases hstop with
      | fctBusy hp hbusy =>
        cases d with
        | sender =>
          have := hr.toSender m (List.mem_of_getElem? hm)
          simp [PacketType.FromReceiver, hp] at this
        | receiver =>
          obtain rfl : i = 0 := hf
          obtain ⟨rest, hrest⟩ := eq_cons_of_getElem?_zero hm
          have hstops := hserved.stops
          rw [show s.toReceiver = m :: rest from hrest] at hstops
          have hsending := of_decide_eq_true (hstops.1 (Pair.switch_of_stop hp))
          exact hbusy (hr.receiverTimers.fct.idle_iff.mpr (by simp [hsending]))
    | expire hstop =>
      cases hstop with
      | notPending hidle => exact hidle he
  · intro hs
    cases Pair.step_stopped he hs with
    | advanceBytes hstop => cases hstop
    | expire hstop => cases hstop
    | @deliver d i r m hm _ hstop =>
      cases hstop with
      | creditStopBusy hp hbusy =>
        cases d with
        | sender => exact hbusy (hr.senderTimers.creditStop.resolve_right fun hpend => hst hpend.1)
        | receiver =>
          have := hr.toReceiver m (List.mem_of_getElem? hm)
          simp [PacketType.FromSender, hp] at this

/-- A CREDIT_STOP that arrives after its request was answered schedules the FCT timer. -/
theorem no_timer_aborts_at_stop :
    ∃ s, (answeredMachine fun _ => {}).Reachable s ∧ s.Enabled (.deliver .receiver 0 default) ∧
      s.toReceiver.map (·.pkt.ptype) = [.xpassCreditStop] ∧
      ∀ a, s.step (fun _ => {}) (.deliver .receiver 0 default) ≠ .error (.timer a) := by
  obtain ⟨s, hr, hp⟩ := (Machine.Reachable.init (M := (pairMachine fun _ => {}).restrict
      fun s x => s.Fifo x ∧ s.Answered x) (s := default)
      (pairMachine_init fun _ => {})).exists_of_exec
    [.advanceBytes 1460, .deliver .receiver 0 default, .deliver .sender 0 default,
      .expire .sender .creditStop default, .deliver .receiver 0 default]
    (fun s => s.Enabled (.deliver .receiver 0 default) ∧
      s.toReceiver.map (·.pkt.ptype) = [.xpassCreditStop] ∧
      s.StopFirst (.deliver .receiver 0 default)) (by decide +kernel)
  obtain ⟨he, hstop, hst⟩ := of_decide_eq_true hp
  exact ⟨s, hr, he, hstop, (no_timer_aborts _ hr he rfl hst).1⟩

/-- A flow of two packets loses the first one and then the CREDIT_REQUEST that follows the
NACK. Two CREDITs that were sent before answer it, the data is sent again, and the second
CREDIT_STOP arrives while the first one keeps the FCT timer pending. -/
theorem second_stop_aborts :
    ∃ s x, ((pairMachine fun _ => {}).restrict Pair.Exact).Reachable s ∧
      s.Enabled x ∧ s.Exact x ∧ s.step (fun _ => {}) x = .error (.timer .schedNotIdle) := by
  let r : Rand := default
  obtain ⟨s, hr, hp⟩ := (Machine.Reachable.init (M := (pairMachine fun _ => {}).restrict Pair.Exact)
      (s := default) (pairMachine_init fun _ => {})).exists_of_exec
    [.advanceBytes 2920, .deliver .receiver 0 r,
      .tick (27 / 577990), .expire .receiver .sendCredit r, .deliver .sender 0 r, .lose .receiver 0,
      .deliver .sender 0 r, .expire .sender .creditStop r, .deliver .receiver 0 r,
      .tick (54 / 577990), .expire .receiver .sendCredit r,
      .tick (81 / 577990), .expire .receiver .sendCredit r, .deliver .receiver 0 r,
      .deliver .sender 0 r, .lose .receiver 0,
      .tick (108 / 577990), .deliver .sender 0 r, .deliver .sender 0 r,
      .expire .sender .creditStop r, .deliver .receiver 0 r, .deliver .receiver 0 r]
    (fun s => s.Enabled (.deliver .receiver 0 r) ∧ s.Exact (.deliver .receiver 0 r) ∧
      s.step (fun _ => {}) (.deliver .receiver 0 r) = .error (.timer .schedNotIdle))
    (by decide +kernel)
  exact ⟨s, .deliver .receiver 0 r, hr, of_decide_eq_true hp⟩

end Ns2XPass
