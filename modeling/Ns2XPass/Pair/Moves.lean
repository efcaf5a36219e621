import Ns2XPass.Agent.Exits
import Ns2XPass.Agent.Timers
import Ns2XPass.Pair.System

/-! # What a pair can do

In a pair each agent plays one role: the receiver role of the sender and the
sender role of the receiver stay as they were created, and each channel carries
the packets of one role. So every step of a pair is one of the moves below.
-/

namespace Ns2XPass

open XPassAgent

/-- The packets of the sender role. -/
def PacketType.FromSender (t : PacketType) : Prop :=
  t = .xpassCreditRequest ∨ t = .xpassData ∨ t = .xpassCreditStop

/-- The packets of the receiver role. -/
def PacketType.FromReceiver (t : PacketType) : Prop := t = .xpassCredit ∨ t = .xpassNack

namespace Pair

variable {cfg : Side → Config} {s s' : Pair} {x : PairAction}

/-! ## Packets entering a channel -/

section Flight

variable {l : ℤ} {n : ℕ} {out : List Effect} {p : Packet} {m : InFlight}

@[simp] theorem flight_nil : flight l n [] = [] := rfl

@[simp] theorem flight_send :
    flight l n [.send p] = [{ pkt := p, datalen := l, flow := n }] := rfl

@[simp] theorem flight_fctOut {i j : ℤ} {q : ℚ} : flight l n [.fctOut i j q] = [] := rfl

@[simp] theorem flight_wasteOut {i j k : ℤ} : flight l n [.wasteOut i j k] = [] := rfl

theorem mem_flight : m ∈ flight l n out ↔ .send m.pkt ∈ out ∧ m.datalen = l ∧ m.flow = n := by
  simp only [flight, List.mem_map, List.mem_filterMap]
  constructor
  · rintro ⟨p, ⟨e, he, hp⟩, rfl⟩
    cases e with
    | send q => obtain rfl := Option.some.inj hp; exact ⟨he, rfl, rfl⟩
    | fctOut | wasteOut => cases hp
  · rintro ⟨h, rfl, rfl⟩
    exact ⟨m.pkt, ⟨_, h, rfl⟩, rfl⟩

end Flight

/-! ## The moves -/

inductive Move (cfg : Side → Config) (s : Pair) : PairAction → Pair → Prop where
  | tick {t : ℚ} : s.clock ≤ t → Move cfg s (.tick t) { s with clock := t }
  | loseToReceiver {i : ℕ} : i < s.toReceiver.length →
      Move cfg s (.lose .receiver i) { s with toReceiver := s.toReceiver.eraseIdx i }
  | loseToSender {i : ℕ} : i < s.toSender.length →
      Move cfg s (.lose .sender i) { s with toSender := s.toSender.eraseIdx i }
  | advance {nb : ℤ} {x : XPassAgent} {out : List Effect} :
      0 < nb → s.sender.creditRecvState = .closed →
      SenderMove (cfg .sender) s.clock s.sender (.advanceBytes nb) x out →
      Move cfg s (.advanceBytes nb)
        { s with
          sender := x, flows := s.flows + 1
          toReceiver := s.toReceiver ++ flight (x.tSeqno - s.sender.tSeqno) (s.flows + 1) out }
  | senderRecv {i : ℕ} {r : Rand} {m : InFlight} {x : XPassAgent} {out : List Effect} :
      s.toSender[i]? = some m → (∀ m' ∈ s.toSender.take i, m'.pkt.ptype ≠ m.pkt.ptype) →
      SenderMove (cfg .sender) s.clock s.sender (.recv m.pkt r) x out →
      Move cfg s (.deliver .sender i r)
        { s with
          sender := x, toSender := s.toSender.eraseIdx i
          toReceiver := s.toReceiver ++ flight (x.tSeqno - s.sender.tSeqno) s.flows out }
  | senderExpire {t : AgentTimer} {r : Rand} {x : XPassAgent} {out : List Effect} :
      SenderMove (cfg .sender) s.clock s.sender (.expire t r) x out →
      Move cfg s (.expire .sender t r)
        { s with
          sender := x
          toReceiver := s.toReceiver ++ flight (x.tSeqno - s.sender.tSeqno) s.flows out }
  | receiverRecv {i : ℕ} {r : Rand} {m : InFlight} {x : XPassAgent} {out : List Effect} :
      s.toReceiver[i]? = some m → (∀ m' ∈ s.toReceiver.take i, m'.pkt.ptype ≠ m.pkt.ptype) →
      ReceiverMove (cfg .receiver) s.clock s.receiver (.recv m.pkt r) x out →
      Move cfg s (.deliver .receiver i r)
        { s with
          receiver := x, toReceiver := s.toReceiver.eraseIdx i
          toSender := s.toSender ++ flight 0 s.flows out }
  | receiverExpire {t : AgentTimer} {r : Rand} {x : XPassAgent} {out : List Effect} :
      ReceiverMove (cfg .receiver) s.clock s.receiver (.expire t r) x out →
      Move cfg s (.expire .receiver t r)
        { s with receiver := x, toSender := s.toSender ++ flight 0 s.flows out }

/-- Each agent plays its role: its timers match its states, its other role is as it was
created, and the channels carry the packets of the roles. -/
structure Roles (s : Pair) : Prop where
  senderTimers : s.sender.TimersMatch
  receiverTimers : s.receiver.TimersMatch
  sender_closed : s.sender.creditSendState = .closed
  sender_settled : s.sender.waitRetransmission = false
  receiver_closed : s.receiver.creditRecvState = .closed
  toReceiver : ∀ m ∈ s.toReceiver, m.pkt.ptype.FromSender
  toSender : ∀ m ∈ s.toSender, m.pkt.ptype.FromReceiver

theorem Roles.receiver_creditStop (h : s.Roles) : s.receiver.creditStopTimer.status = .idle :=
  h.receiverTimers.creditStop.resolve_right fun hs => by simp [h.receiver_closed] at hs

theorem Roles.forSender_expire (h : s.Roles) {t : AgentTimer} {r : Rand}
    (ht : (s.sender.timer t).status = .pending) : (Input.expire t r).ForSender := by
  cases t with
  | creditStop => exact .inl rfl
  | senderRetransmit => exact .inr rfl
  | sendCredit =>
    exact absurd (h.senderTimers.sendCredit.pending_iff.mp ht) (by simp [h.sender_closed])
  | fct => exact absurd (h.senderTimers.fct.pending_iff.mp ht) (by simp [h.sender_closed])
  | receiverRetransmit =>
    exact absurd (h.senderTimers.receiverRetransmit.pending_iff.mp ht) (by simp [h.sender_settled])

theorem Roles.forReceiver_expire (h : s.Roles) {t : AgentTimer} {r : Rand}
    (ht : (s.receiver.timer t).status = .pending) : (Input.expire t r).ForReceiver := by
  cases t with
  | sendCredit => exact .inl rfl
  | receiverRetransmit => exact .inr (.inl rfl)
  | fct => exact .inr (.inr rfl)
  | creditStop => exact absurd ht (by simp [timer, h.receiver_creditStop])
  | senderRetransmit =>
    exact absurd (h.receiverTimers.senderRetransmit.pending_iff.mp ht)
      (by simp [AwaitsRetransmit, h.receiver_closed])

theorem act_eq_ok {d : Side} {i : Input} (h : s.act cfg d i = .ok s') :
    ∃ x out, (s.agent d).react (cfg d) s.clock i = .ok (x, out) ∧
      s' = (s.setAgent x d).setInbox
        (s.inbox d.other ++ flight (x.tSeqno - (s.agent d).tSeqno) s.flows out) d.other := by
  simp only [act, bind_eq_ok, Prod.exists, Except.ok.injEq] at h
  obtain ⟨x, out, hr, rfl⟩ := h
  exact ⟨x, out, hr, rfl⟩

/-- Every step of a pair is one of the moves. -/
theorem step_move (hr : s.Roles) (he : s.Enabled x) (h : s.step cfg x = .ok s') :
    Move cfg s x s' := by
  cases x with
  | tick t => cases h; exact .tick he
  | advanceBytes nb =>
    obtain ⟨x, out, hx, rfl⟩ := act_eq_ok h
    exact .advance he.1 he.2 (senderMove_of_react (i := .advanceBytes nb) trivial hx)
  | lose d i =>
    cases d with
    | sender => cases h; exact .loseToSender he
    | receiver => cases h; exact .loseToReceiver he
  | deliver d i r =>
    obtain ⟨m, hm, hfirst⟩ := he
    rw [Option.mem_def] at hm
    simp only [step, hm] at h
    obtain ⟨x, out, hx, rfl⟩ := act_eq_ok h
    cases d with
    | sender =>
      exact .senderRecv hm hfirst (senderMove_of_react (i := .recv m.pkt r)
        (hr.toSender m (List.mem_of_getElem? hm)) hx)
    | receiver =>
      have hx := receiverMove_of_react (i := .recv m.pkt r)
        (hr.toReceiver m (List.mem_of_getElem? hm)) hx
      simp only [agent, setInbox, hx.frame.tSeqno, sub_self]
      exact .receiverRecv hm hfirst hx
  | expire d t r =>
    obtain ⟨x, out, hx, rfl⟩ := act_eq_ok h
    cases d with
    | sender => exact .senderExpire (senderMove_of_react (hr.forSender_expire he) hx)
    | receiver =>
      have hx := receiverMove_of_react (hr.forReceiver_expire (r := r) he) hx
      simp only [agent, hx.frame.tSeqno, sub_self]
      exact .receiverExpire hx

/-- An error of a step has its cause in the agent that takes the input. -/
inductive Stopped (cfg : Side → Config) (s : Pair) (e : Exit) : PairAction → Prop where
  | advanceBytes {nb : ℤ} : Stops (cfg .sender) s.sender (.advanceBytes nb) e →
      Stopped cfg s e (.advanceBytes nb)
  | deliver {d : Side} {i : ℕ} {r : Rand} {m : InFlight} : (s.inbox d)[i]? = some m →
      (∀ m' ∈ (s.inbox d).take i, m'.pkt.ptype ≠ m.pkt.ptype) →
      Stops (cfg d) (s.agent d) (.recv m.pkt r) e → Stopped cfg s e (.deliver d i r)
  | expire {d : Side} {t : AgentTimer} {r : Rand} : Stops (cfg d) (s.agent d) (.expire t r) e →
      Stopped cfg s e (.expire d t r)

theorem act_eq_error {d : Side} {i : Input} {e : Exit} (h : s.act cfg d i = .error e) :
    Stops (cfg d) (s.agent d) i e := by
  rcases bind_eq_error.mp h with h | ⟨_, _, h⟩
  · exact react_stops h
  · cases h

theorem step_stopped {e : Exit} (he : s.Enabled x) (h : s.step cfg x = .error e) :
    Stopped cfg s e x := by
  cases x with
  | tick t => cases h
  | advanceBytes nb => exact .advanceBytes (act_eq_error (s := { s with flows := s.flows + 1 }) h)
  | lose d i => cases h
  | deliver d i r =>
    obtain ⟨m, hm, hfirst⟩ := he
    rw [Option.mem_def] at hm
    simp only [step, hm] at h
    have hs := act_eq_error h
    cases d <;> exact .deliver hm hfirst hs
  | expire d t r => exact .expire (act_eq_error h)

/-! ## The roles are kept -/

theorem flight_fromSender {c : Config} {now : ℚ} {a a' : XPassAgent} {i : Input}
    {out : List Effect} (h : SenderMove c now a i a' out) {l : ℤ} {n : ℕ} :
    ∀ m ∈ flight l n out, m.pkt.ptype.FromSender := by
  intro m hm
  have hm := (mem_flight.mp hm).1
  cases h with
  | advance | reopen | retry | answerCredit | stop | restop =>
    rw [Effect.send.inj (List.mem_singleton.mp hm)]
    simp [PacketType.FromSender, creditRequestPacket, dataPacket, constructCreditStop]
  | wasteCredit | rewind | linger | unused => simp at hm
  | close => simp at hm

theorem flight_fromReceiver {c : Config} {now : ℚ} {a a' : XPassAgent} {i : Input}
    {out : List Effect} (h : ReceiverMove c now a i a' out) {l : ℤ} {n : ℕ} :
    ∀ m ∈ flight l n out, m.pkt.ptype.FromReceiver := by
  intro m hm
  have hm := (mem_flight.mp hm).1
  cases h with
  | acceptRequest | firstGap | credit | renack =>
    rw [Effect.send.inj (List.mem_singleton.mp hm)]
    simp [PacketType.FromReceiver, creditPacket, constructNack]
  | ignoreRequest | laterGap | nextData | oldData | stopCredits | settled => simp at hm
  | record => simp at hm

/-- A move of the sender keeps the roles, when the channel to it loses packets only. -/
theorem Roles.senderMove (h : s.Roles) {c : Config} {i : Input} {x : XPassAgent}
    {out : List Effect} {ms : List InFlight} {l : ℤ} {n : ℕ}
    (hm : SenderMove c s.clock s.sender i x out)
    (hi : ∀ nb, i = .advanceBytes nb → s.sender.creditRecvState = .closed)
    (hms : ms ⊆ s.toSender) {k : ℕ} :
    { s with
      sender := x, flows := k, toSender := ms
      toReceiver := s.toReceiver ++ flight l n out }.Roles where
  senderTimers := h.senderTimers.senderMove hm hi
  receiverTimers := h.receiverTimers
  sender_closed := hm.frame.creditSendState.trans h.sender_closed
  sender_settled := hm.frame.waitRetransmission.trans h.sender_settled
  receiver_closed := h.receiver_closed
  toReceiver m hm' := (List.mem_append.mp hm').elim (h.toReceiver m) (flight_fromSender hm m)
  toSender m hm' := h.toSender m (hms hm')

theorem Roles.receiverMove (h : s.Roles) {c : Config} {i : Input} {x : XPassAgent}
    {out : List Effect} {ms : List InFlight} {l : ℤ} {n : ℕ}
    (hm : ReceiverMove c s.clock s.receiver i x out) (hms : ms ⊆ s.toReceiver) :
    { s with
      receiver := x, toReceiver := ms, toSender := s.toSender ++ flight l n out }.Roles where
  senderTimers := h.senderTimers
  receiverTimers := h.receiverTimers.receiverMove hm
  sender_closed := h.sender_closed
  sender_settled := h.sender_settled
  receiver_closed := hm.frame.creditRecvState.trans h.receiver_closed
  toReceiver m hm' := h.toReceiver m (hms hm')
  toSender m hm' := (List.mem_append.mp hm').elim (h.toSender m) (flight_fromReceiver hm m)

theorem Roles.move (h : s.Roles) (hm : Move cfg s x s') : s'.Roles := by
  cases hm with
  | tick => exact ⟨h.1, h.2, h.3, h.4, h.5, h.6, h.7⟩
  | loseToReceiver =>
    exact ⟨h.1, h.2, h.3, h.4, h.5, fun m hm => h.6 m (List.mem_of_mem_eraseIdx hm), h.7⟩
  | loseToSender =>
    exact ⟨h.1, h.2, h.3, h.4, h.5, h.6, fun m hm => h.7 m (List.mem_of_mem_eraseIdx hm)⟩
  | advance _ hs hm => exact h.senderMove hm (fun _ _ => hs) (List.Subset.refl _)
  | senderRecv _ _ hm =>
    exact h.senderMove hm (by simp) fun m hm => List.mem_of_mem_eraseIdx hm
  | senderExpire hm => exact h.senderMove hm (by simp) (List.Subset.refl _)
  | receiverRecv _ _ hm => exact h.receiverMove hm fun m hm => List.mem_of_mem_eraseIdx hm
  | receiverExpire hm => exact h.receiverMove hm (List.Subset.refl _)

end Pair

theorem roles_invariant (cfg : Side → Config) : (pairMachine cfg).Invariant Pair.Roles where
  init s hi := by
    obtain ⟨hs, hr, ht, ht', _⟩ := hi
    exact ⟨.of_isNew hs, .of_isNew hr, by rw [hs], by rw [hs], by rw [hr], by simp [ht],
      by simp [ht']⟩
  step _ _ _ h he hs := h.move (Pair.step_move h he hs)

end Ns2XPass
