import Mathlib.Logic.Function.Basic
import Ns2XPass.Pair.Moves

/-! # Flow completion times

The receiver takes the start of a flow from each CREDIT_REQUEST that makes it
send credits, and records the completion when the FCT timer expires after a
CREDIT_STOP. The record is right as long as it begins to send credits only for
the first CREDIT_REQUEST of a flow, and each CREDIT_STOP ends such a period.
-/

namespace Ns2XPass

open XPassAgent

/-- What a run has done: when each flow started, the CREDIT_STOPs received and the completions
recorded, each with its flow and the latest first, and the flow whose CREDIT_REQUEST made the
receiver send credits last. -/
structure FlowHistory where
  start : ℕ → ℚ := fun _ => 0
  stops : List (ℕ × ℚ) := []
  records : List (ℕ × ℚ) := []
  current : ℕ := 0

/-- The entries of one flow. -/
def timesOf (k : ℕ) (es : List (ℕ × ℚ)) : List ℚ := (es.filter (·.1 = k)).map (·.2)

theorem timesOf_cons_self {k : ℕ} {t : ℚ} {es : List (ℕ × ℚ)} :
    timesOf k ((k, t) :: es) = t :: timesOf k es := by
  simp [timesOf]

theorem timesOf_cons_of_ne {j k : ℕ} {t : ℚ} {es : List (ℕ × ℚ)} (h : j ≠ k) :
    timesOf k ((j, t) :: es) = timesOf k es := by
  simp [timesOf, h]

namespace FlowHistory

/-- The flow that the receiver was told to stop last. -/
def lastStopped (g : FlowHistory) : ℕ := (g.stops.head?.map (·.1)).getD 0

def take (s : Pair) (m : InFlight) (g : FlowHistory) : FlowHistory :=
  if m.pkt.ptype = .xpassCreditStop then { g with stops := (m.flow, s.clock) :: g.stops }
  else if m.pkt.ptype = .xpassCreditRequest ∧ s.receiver.creditSendState ≠ .creditSending then
    { g with current := m.flow }
  else g

theorem take_of_data {s : Pair} {m : InFlight} {g : FlowHistory} (h : m.pkt.ptype = .xpassData) :
    take s m g = g := by
  simp [take, h]

/-- A flow starts with its `advance-bytes`, which sends its first CREDIT_REQUEST, and a
completion belongs to the flow stopped last. -/
def record (s : Pair) (x : PairAction) (s' : Pair) (g : FlowHistory) : FlowHistory :=
  match x with
  | .advanceBytes _ => { g with start := Function.update g.start s'.flows s.clock }
  | .deliver .receiver i _ => ((s.toReceiver[i]?).map (take s · g)).getD g
  | .expire .receiver .fct _ =>
    { g with records := (g.lastStopped, s.receiver.fct) :: g.records }
  | _ => g

/-- A receiver that is not sending credits gets a CREDIT_REQUEST only when it is closed, from a
flow that was not stopped yet and with the time at which this flow started; and a CREDIT_STOP
ends the credits of its own flow. -/
def Timed (p : Pair × FlowHistory) : PairAction → Prop
  | .deliver .receiver i _ => ∀ m ∈ p.1.toReceiver[i]?,
      (m.pkt.ptype = .xpassCreditRequest → p.1.receiver.creditSendState = .creditSending ∨
        p.1.receiver.creditSendState = .closed ∧ m.pkt.creditSentTime = p.2.start m.flow ∧
          timesOf m.flow p.2.stops = []) ∧
      (m.pkt.ptype = .xpassCreditStop →
        p.1.receiver.creditSendState = .creditSending ∧ m.flow = p.2.current)
  | _ => True

instance (p : Pair × FlowHistory) : DecidablePred (Timed p)
  | .deliver .receiver i _ => inferInstanceAs (Decidable (∀ m ∈ p.1.toReceiver[i]?,
      (m.pkt.ptype = .xpassCreditRequest → p.1.receiver.creditSendState = .creditSending ∨
        p.1.receiver.creditSendState = .closed ∧ m.pkt.creditSentTime = p.2.start m.flow ∧
          timesOf m.flow p.2.stops = []) ∧
      (m.pkt.ptype = .xpassCreditStop →
        p.1.receiver.creditSendState = .creditSending ∧ m.flow = p.2.current)))
  | .deliver .sender _ _ | .tick _ | .advanceBytes _ | .lose _ _ | .expire _ _ _ =>
    inferInstanceAs (Decidable True)

variable {cfg : Side → Config} {s s' : Pair} {x : PairAction} {g : FlowHistory} {k : ℕ}

/-- The flow was not stopped and has no record. -/
def Unstopped (g : FlowHistory) (k : ℕ) : Prop := timesOf k g.stops = [] ∧ timesOf k g.records = []

/-- The flow was stopped once and has one record, of the time from its start to the stop. -/
def Recorded (g : FlowHistory) (k : ℕ) : Prop :=
  ∃ τ, timesOf k g.stops = [τ] ∧ timesOf k g.records = [τ - g.start k]

/-- The flow was stopped once and its record is pending. -/
def Waiting (s : Pair) (g : FlowHistory) (k : ℕ) : Prop :=
  s.receiver.creditSendState = .closeWait ∧ g.lastStopped = k ∧
    ∃ τ, timesOf k g.stops = [τ] ∧ timesOf k g.records = [] ∧ s.receiver.fct = τ - g.start k

structure Completion (s : Pair) (g : FlowHistory) : Prop where
  flow : ∀ k, g.Unstopped k ∨ g.Recorded k ∨ Waiting s g k
  waiting : s.receiver.creditSendState = .closeWait → Waiting s g g.lastStopped
  sending : s.receiver.creditSendState = .creditSending →
    s.receiver.fst = g.start g.current ∧ g.Unstopped g.current ∧ g.current ≤ s.flows
  future : ∀ k, s.flows < k → g.Unstopped k
  inFlight : ∀ m ∈ s.toReceiver, m.flow ≤ s.flows
  live : s.receiver.creditSendState ≠ .creditStopReceived

theorem Recorded.not_unstopped (h : g.Recorded k) : ¬ g.Unstopped k := by
  obtain ⟨τ, hτ, _⟩ := h
  rintro ⟨hn, _⟩
  simp [hn] at hτ

theorem Waiting.not_unstopped (h : Waiting s g k) : ¬ g.Unstopped k := by
  obtain ⟨_, _, τ, hτ, _⟩ := h
  rintro ⟨hn, _⟩
  simp [hn] at hτ

/-! ## Steps that leave the record alone -/

/-- The receiver keeps its state and its times, and packets of known flows are on their way. -/
theorem Completion.of_eq (h : Completion s g)
    (hs : s'.receiver.creditSendState = s.receiver.creditSendState)
    (hfst : s'.receiver.fst = s.receiver.fst) (hfct : s'.receiver.fct = s.receiver.fct)
    (hflows : s'.flows = s.flows) (hm : ∀ m ∈ s'.toReceiver, m.flow ≤ s.flows) :
    Completion s' g := by
  have hw : ∀ k, Waiting s g k → Waiting s' g k := by
    rintro k ⟨hc, hl, τ, hτ⟩
    exact ⟨hs.trans hc, hl, τ, by rwa [hfct]⟩
  constructor
  · intro k
    exact (h.flow k).imp_right (.imp_right (hw k))
  · intro hc
    exact hw _ (h.waiting (hs ▸ hc))
  · intro hc
    rw [hfst, hflows]
    exact h.sending (hs ▸ hc)
  · rw [hflows]; exact h.future
  · rw [hflows]; exact hm
  · exact hs ▸ h.live

theorem flow_of_flight {l : ℤ} {n b : ℕ} {out : List Effect} {ms : List InFlight} (hn : n ≤ b)
    (hms : ∀ m ∈ ms, m.flow ≤ b) : ∀ m ∈ ms ++ Pair.flight l n out, m.flow ≤ b := by
  intro m hm
  rcases List.mem_append.mp hm with hm | hm
  · exact hms m hm
  · exact (Pair.mem_flight.mp hm).2.2.le.trans hn

/-- A new flow starts. -/
theorem Completion.advance (h : Completion s g) {y : XPassAgent} {l : ℤ} {out : List Effect} :
    Completion
      { s with
        sender := y, flows := s.flows + 1
        toReceiver := s.toReceiver ++ Pair.flight l (s.flows + 1) out }
      { g with start := Function.update g.start (s.flows + 1) s.clock } := by
  -- the flows that were stopped started before
  have hstart : ∀ k, ¬ g.Unstopped k →
      Function.update g.start (s.flows + 1) s.clock k = g.start k := by
    intro k hk
    have := mt (h.future k) hk
    exact Function.update_of_ne (by omega) _ _
  have hw : ∀ k, Waiting s g k → Waiting
      { s with
        sender := y, flows := s.flows + 1
        toReceiver := s.toReceiver ++ Pair.flight l (s.flows + 1) out }
      { g with start := Function.update g.start (s.flows + 1) s.clock } k := by
    intro k hk
    have hsame := hstart k hk.not_unstopped
    obtain ⟨hc, hl, τ, hτ, hr, hf⟩ := hk
    exact ⟨hc, hl, τ, hτ, hr, hf.trans (congrArg (τ - ·) hsame.symm)⟩
  constructor
  · intro k
    rcases h.flow k with hk | hk | hk
    · exact .inl hk
    · have hsame := hstart k hk.not_unstopped
      obtain ⟨τ, hτ, hr⟩ := hk
      exact .inr (.inl ⟨τ, hτ, hr.trans (congrArg (fun q => [τ - q]) hsame.symm)⟩)
    · exact .inr (.inr (hw k hk))
  · intro hc
    exact hw _ (h.waiting hc)
  · intro hc
    obtain ⟨hfst, hun, hle⟩ := h.sending hc
    refine ⟨?_, hun, hle.trans (Nat.le_succ _)⟩
    dsimp only
    rw [Function.update_of_ne (by omega)]
    exact hfst
  · intro k hk
    dsimp only at hk
    exact h.future k (by omega)
  · exact flow_of_flight le_rfl fun m hm => (h.inFlight m hm).trans (Nat.le_succ _)
  · exact h.live

/-! ## Steps of the receiver -/

/-- A closed receiver begins to send credits for a flow. -/
theorem Completion.accept (h : Completion s g) {y : XPassAgent} {ms ms' : List InFlight} {k : ℕ}
    (hc : s.receiver.creditSendState = .closed) (hy : y.creditSendState = .creditSending)
    (hfst : y.fst = g.start k) (hk : timesOf k g.stops = []) (hle : k ≤ s.flows)
    (hms : ms ⊆ s.toReceiver) :
    Completion { s with receiver := y, toReceiver := ms, toSender := ms' }
      { g with current := k } := by
  have hflow : ∀ j, g.Unstopped j ∨ g.Recorded j := by
    intro j
    rcases h.flow j with hj | hj | hj
    · exact .inl hj
    · exact .inr hj
    · exact absurd hj.1 (by simp [hc])
  have hun : g.Unstopped k := by
    rcases hflow k with hj | ⟨τ, hτ, _⟩
    · exact hj
    · simp [hk] at hτ
  constructor
  · intro j
    exact (hflow j).imp id .inl
  · intro hc'
    rw [hy] at hc'
    cases hc'
  · intro _
    exact ⟨hfst, hun, hle⟩
  · exact h.future
  · intro m hm
    exact h.inFlight m (hms hm)
  · rw [hy]; simp

/-- The receiver stops sending credits for its flow. -/
theorem Completion.stop (h : Completion s g) {y : XPassAgent} {ms ms' : List InFlight}
    (hc : s.receiver.creditSendState = .creditSending) (hy : y.creditSendState = .closeWait)
    (hfct : y.fct = s.clock - s.receiver.fst) (hms : ms ⊆ s.toReceiver) :
    Completion { s with receiver := y, toReceiver := ms, toSender := ms' }
      { g with stops := (g.current, s.clock) :: g.stops } := by
  obtain ⟨hfst, ⟨hstops, hrecords⟩, hle⟩ := h.sending hc
  have hwait : Waiting { s with receiver := y, toReceiver := ms, toSender := ms' }
      { g with stops := (g.current, s.clock) :: g.stops } g.current :=
    ⟨hy, rfl, s.clock, by rw [timesOf_cons_self, hstops], hrecords, by rw [hfct, hfst]⟩
  constructor
  · intro k
    by_cases hk : g.current = k
    · exact .inr (.inr (hk ▸ hwait))
    · rcases h.flow k with ⟨hs, hr⟩ | ⟨τ, hs, hr⟩ | hw
      · exact .inl ⟨by rw [timesOf_cons_of_ne hk, hs], hr⟩
      · exact .inr (.inl ⟨τ, by rw [timesOf_cons_of_ne hk, hs], hr⟩)
      · exact absurd hw.1 (by simp [hc])
  · intro _
    exact hwait
  · intro hc'
    rw [hy] at hc'
    cases hc'
  · intro k hk
    obtain ⟨hs, hr⟩ := h.future k hk
    exact ⟨by rw [timesOf_cons_of_ne (by dsimp only at hk; omega), hs], hr⟩
  · intro m hm
    exact h.inFlight m (hms hm)
  · rw [hy]; simp

/-- The FCT timer expires and the completion is recorded. -/
theorem Completion.expire (h : Completion s g) {y : XPassAgent} {ms : List InFlight}
    (hc : s.receiver.creditSendState = .closeWait) (hy : y.creditSendState = .closed) :
    Completion { s with receiver := y, toSender := ms }
      { g with records := (g.lastStopped, s.receiver.fct) :: g.records } := by
  have hwait := h.waiting hc
  constructor
  · intro k
    by_cases hk : g.lastStopped = k
    · obtain ⟨_, _, τ, hs, hr, hf⟩ := hwait
      rw [hk] at hs hr hf
      exact .inr (.inl ⟨τ, hs, by rw [hk, timesOf_cons_self, hr, hf]⟩)
    · rcases h.flow k with ⟨hs, hr⟩ | ⟨τ, hs, hr⟩ | hw
      · exact .inl ⟨hs, by rw [timesOf_cons_of_ne hk, hr]⟩
      · exact .inr (.inl ⟨τ, hs, by rw [timesOf_cons_of_ne hk, hr]⟩)
      · exact absurd hw.2.1 hk
  · intro hc'
    rw [hy] at hc'
    cases hc'
  · intro hc'
    rw [hy] at hc'
    cases hc'
  · intro k hk
    obtain ⟨hs, hr⟩ := h.future k hk
    refine ⟨hs, ?_⟩
    rw [timesOf_cons_of_ne, hr]
    rintro rfl
    exact hwait.not_unstopped ⟨hs, hr⟩
  · exact h.inFlight
  · rw [hy]; simp

theorem Completion.receiverRecv (h : Completion s g) {c : Config} {i : ℕ} {r : Rand}
    {m : InFlight} {y : XPassAgent} {out : List Effect} {ms : List InFlight}
    (hget : s.toReceiver[i]? = some m)
    (hm : ReceiverMove c s.clock s.receiver (.recv m.pkt r) y out)
    (ht : Timed (s, g) (.deliver .receiver i r)) :
    Completion { s with receiver := y, toReceiver := s.toReceiver.eraseIdx i, toSender := ms }
      (take s m g) := by
  obtain ⟨hreq, hstop⟩ := ht m hget
  have hsub : s.toReceiver.eraseIdx i ⊆ s.toReceiver := fun _ => List.mem_of_mem_eraseIdx
  have hrest : ∀ m ∈ s.toReceiver.eraseIdx i, m.flow ≤ s.flows := fun m hm => h.inFlight m (hsub hm)
  have hle := h.inFlight m (List.mem_of_getElem? hget)
  cases hm with
  | acceptRequest hp hs =>
    have hclosed : s.receiver.creditSendState ≠ .creditSending := by
      rcases hs with ⟨hs, _⟩ | ⟨hs, _⟩ <;> simp [hs]
    obtain ⟨hc, hfst, hk⟩ := (hreq hp).resolve_left hclosed
    rw [take, if_neg (by simp [hp]), if_pos ⟨hp, hclosed⟩]
    exact h.accept hc rfl hfst hk hle hsub
  | ignoreRequest hp hs =>
    have hs := hs.resolve_right h.live
    rw [take, if_neg (by simp [hp]), if_neg (by simp [hs])]
    exact h.of_eq rfl rfl rfl rfl hrest
  | stopCredits hp =>
    obtain ⟨hs, hk⟩ := hstop hp
    rw [take, if_pos hp, hk]
    exact h.stop hs rfl rfl hsub
  | firstGap hp | laterGap hp | nextData hp | oldData hp =>
    rw [take_of_data hp]
    exact h.of_eq rfl rfl rfl rfl hrest

theorem Completion.move (h : Completion s g) (hr : s.Roles) (hm : Pair.Move cfg s x s')
    (ht : Timed (s, g) x) : Completion s' (record s x s' g) := by
  cases hm with
  | tick => exact h.of_eq rfl rfl rfl rfl h.inFlight
  | loseToReceiver =>
    exact h.of_eq rfl rfl rfl rfl fun m hm => h.inFlight m (List.mem_of_mem_eraseIdx hm)
  | loseToSender => exact h.of_eq rfl rfl rfl rfl h.inFlight
  | advance => exact h.advance
  | senderRecv => exact h.of_eq rfl rfl rfl rfl (flow_of_flight le_rfl h.inFlight)
  | senderExpire => exact h.of_eq rfl rfl rfl rfl (flow_of_flight le_rfl h.inFlight)
  | receiverRecv hget _ hm =>
    simp only [record, hget, Option.map_some, Option.getD_some]
    exact h.receiverRecv hget hm ht
  | receiverExpire hm =>
    cases hm with
    | credit | renack | settled => exact h.of_eq rfl rfl rfl rfl h.inFlight
    | record hp => exact h.expire (hr.receiverTimers.fct.pending_iff.mp hp) rfl

end FlowHistory

/-- The runs in which credits are started and stopped once for each flow, with the record of the
flows. -/
def timedMachine (cfg : Side → Config) : Machine (Pair × FlowHistory) PairAction Exit :=
  ((pairMachine cfg).withHistory {} FlowHistory.record).restrict FlowHistory.Timed

theorem completion_invariant (cfg : Side → Config) :
    (timedMachine cfg).Invariant fun p => p.1.Roles ∧ FlowHistory.Completion p.1 p.2 := by
  apply (roles_invariant cfg).withHistory.restrict.under
  · rintro p ⟨⟨_, hr, ht, _, hf⟩, hg⟩
    rw [hg]
    exact ⟨fun _ => .inl ⟨rfl, rfl⟩, by rw [hr]; simp, by rw [hr]; simp,
      fun _ _ => ⟨rfl, rfl⟩, by simp [ht], by rw [hr]; simp⟩
  · intro p x p' hroles h he hs
    obtain ⟨hs, hg⟩ := (Machine.withHistory_step_iff {}).mp hs
    rw [hg]
    exact h.move hroles (Pair.step_move hroles he.1 hs) he.2

/-- A flow has at most one record, and once it was stopped and its record is not pending it has
exactly one, of the time from its first CREDIT_REQUEST to its CREDIT_STOP. -/
theorem completion_recorded_once (cfg : Side → Config) {s : Pair} {g : FlowHistory}
    (h : (timedMachine cfg).Reachable (s, g)) (k : ℕ) :
    (timesOf k g.records).length ≤ 1 ∧
    (timesOf k g.stops = [] → timesOf k g.records = []) ∧
    (timesOf k g.stops ≠ [] →
      ¬ (s.receiver.fctTimer.status = .pending ∧ g.lastStopped = k) →
      ∃ τ, timesOf k g.stops = [τ] ∧ timesOf k g.records = [τ - g.start k]) := by
  obtain ⟨hr, hc⟩ := (completion_invariant cfg).reachable h
  rcases hc.flow k with ⟨hs, hrec⟩ | ⟨τ, hs, hrec⟩ | ⟨hw, hl, τ, hs, hrec, _⟩
  · exact ⟨by simp [hrec], fun _ => hrec, fun hne => absurd hs hne⟩
  · refine ⟨by simp [hrec], fun hn => ?_, fun _ _ => ⟨τ, hs, hrec⟩⟩
    simp [hn] at hs
  · refine ⟨by simp [hrec], fun hn => ?_, fun _ hp => ?_⟩
    · simp [hn] at hs
    · exact absurd ⟨hr.receiverTimers.fct.pending_iff.mpr hw, hl⟩ hp

theorem completion_recorded_after_flow :
    ∃ s g, (timedMachine fun _ => {}).Reachable (s, g) ∧
      ∃ τ, timesOf 1 g.stops = [τ] ∧ timesOf 1 g.records = [τ - g.start 1] := by
  let r : Rand := default
  obtain ⟨⟨s, g⟩, hr, hp⟩ := (Machine.Reachable.init (M := ((pairMachine fun _ => {}).withHistory {}
      FlowHistory.record).restrict FlowHistory.Timed) (s := (default, {}))
      ⟨pairMachine_init fun _ => {}, rfl⟩).exists_of_exec
    [.advanceBytes 1460, .deliver .receiver 0 r, .deliver .sender 0 r,
      .expire .sender .creditStop r, .deliver .receiver 0 r, .deliver .receiver 0 r,
      .expire .receiver .fct r]
    (fun s => timesOf 1 s.2.stops ≠ [] ∧ s.1.receiver.fctTimer.status ≠ .pending)
    (by decide +kernel)
  obtain ⟨hs, hf⟩ := of_decide_eq_true hp
  exact ⟨s, g, hr, (completion_recorded_once _ hr 1).2.2 hs fun h => hf h.1⟩

/-- The first CREDIT_REQUEST is lost: the recorded completion time of the flow leaves out the
time up to its retransmission. -/
theorem completion_without_first_request :
    ∃ s g, (((pairMachine fun _ => {}).restrict Pair.Exact).withHistory {}
        FlowHistory.record).Reachable (s, g) ∧
      s.sender.creditRecvState = .closed ∧ s.receiver.creditSendState = .closed ∧
      g.start 1 = 0 ∧ timesOf 1 g.stops = [10001 / 100000] ∧
      timesOf 1 g.records = [1 / 100000] := by
  let r : Rand := default
  obtain ⟨⟨s, g⟩, hr, hp⟩ := (Machine.Reachable.init (M := ((pairMachine fun _ => {}).restrict
      Pair.Exact).withHistory {} FlowHistory.record) (s := (default, {}))
      ⟨pairMachine_init fun _ => {}, rfl⟩).exists_of_exec
    [.advanceBytes 1460, .lose .receiver 0,
      .tick (1 / 10), .expire .sender .senderRetransmit r, .deliver .receiver 0 r,
      .tick (10001 / 100000), .deliver .sender 0 r, .expire .sender .creditStop r,
      .deliver .receiver 0 r, .deliver .receiver 0 r,
      .tick (10003 / 100000), .expire .sender .senderRetransmit r,
      .tick (10004 / 100000), .expire .sender .senderRetransmit r,
      .tick (10201 / 100000), .expire .receiver .fct r]
    (fun s => s.1.sender.creditRecvState = .closed ∧ s.1.receiver.creditSendState = .closed ∧
      s.2.start 1 = 0 ∧ timesOf 1 s.2.stops = [10001 / 100000] ∧
      timesOf 1 s.2.records = [1 / 100000]) (by decide +kernel)
  exact ⟨s, g, hr, of_decide_eq_true hp⟩

end Ns2XPass
