import Ns2XPass.Pair.Reopening
import Ns2XPass.Pair.Stream

/-! # Whether the whole stream arrives

The receiver asks for lost data when a later DATA packet shows the gap, so the
last DATA packet of what has been sent must neither be lost nor be dropped as
old. Then, as long as requests are answered and no packet is padded, a pair that
has come to rest has carried the whole stream.
-/

namespace Ns2XPass

open XPassAgent

namespace Pair

variable {cfg : Side → Config} {s s' : Pair} {x : PairAction} {g : StreamHistory}

/-- The last DATA packet on its way, when the sender has sent everything and the receiver has not
got everything. -/
def IsTail (s : Pair) (i : ℕ) : Prop :=
  s.sender.tSeqno = s.sender.curseq ∧ s.receiver.recvNext ≠ s.sender.curseq ∧
    (∃ m ∈ s.toReceiver[i]?, m.pkt.ptype = .xpassData) ∧ dataIn (s.toReceiver.drop (i + 1)) = []

instance (s : Pair) (i : ℕ) : Decidable (s.IsTail i) := inferInstanceAs (Decidable (_ ∧ _ ∧ _ ∧ _))

/-- The last DATA packet is not lost, and does not start below `recv_next_` when it arrives. -/
def TailKept (s : Pair) : PairAction → Prop
  | .lose .receiver i => ¬ s.IsTail i
  | .deliver .receiver i _ => s.IsTail i → ∀ m ∈ s.toReceiver[i]?, s.receiver.recvNext ≤ m.pkt.seqno
  | _ => True

instance (s : Pair) : DecidablePred s.TailKept
  | .lose .receiver i => inferInstanceAs (Decidable (¬ s.IsTail i))
  | .deliver .receiver i _ => inferInstanceAs (Decidable (s.IsTail i →
      ∀ m ∈ s.toReceiver[i]?, s.receiver.recvNext ≤ m.pkt.seqno))
  | .lose .sender _ | .deliver .sender _ _ | .tick _ | .advanceBytes _ | .expire _ _ _ =>
    inferInstanceAs (Decidable True)

/-- No packet is on its way and no timer is pending. -/
def Quiescent (s : Pair) : Prop :=
  s.toReceiver = [] ∧ s.toSender = [] ∧ ∀ d t, ((s.agent d).timer t).status ≠ .pending

instance (s : Pair) : Decidable s.Quiescent := inferInstanceAs (Decidable (_ ∧ _ ∧ _))

/-- The DATA packets on their way end with one that ends the stream. -/
def TailOnWay (s : Pair) : Prop :=
  ∃ m ∈ (dataIn s.toReceiver).getLast?, m.pkt.seqno + m.datalen = s.sender.curseq

/-- When the sender has sent everything, the receiver has got it, or the end of the stream is on
its way, or the receiver asks for what it lacks. -/
structure Tail (s : Pair) : Prop where
  tail : s.sender.tSeqno = s.sender.curseq → s.receiver.recvNext = s.sender.curseq ∨
    s.TailOnWay ∨ dataIn s.toReceiver = [] ∧ s.receiver.waitRetransmission = true
  closing : s.sender.creditRecvState = .closed ∨ s.sender.creditRecvState = .closeWait →
    s.sender.tSeqno = s.sender.curseq

/-! ## The DATA packets of a channel -/

section DataIn

variable {ms ms' : List InFlight} {m : InFlight} {i : ℕ}

@[simp] theorem dataIn_nil : dataIn [] = [] := rfl

@[simp] theorem dataIn_append : dataIn (ms ++ ms') = dataIn ms ++ dataIn ms' := by simp [dataIn]

theorem dataIn_cons_of_data (h : m.pkt.ptype = .xpassData) : dataIn (m :: ms) = m :: dataIn ms := by
  simp [dataIn, h]

theorem dataIn_cons_of_ne (h : m.pkt.ptype ≠ .xpassData) : dataIn (m :: ms) = dataIn ms := by
  simp [dataIn, h]

/-- Losing a message before the last one does not change the last one. -/
theorem getLast?_dataIn_eraseIdx (h : dataIn (ms.drop (i + 1)) ≠ []) :
    (dataIn (ms.eraseIdx i)).getLast? = (dataIn ms).getLast? := by
  have hsplit : dataIn ms = dataIn (ms.take (i + 1)) ++ dataIn (ms.drop (i + 1)) := by
    rw [← dataIn_append, List.take_append_drop]
  rw [List.eraseIdx_eq_take_drop_succ, dataIn_append, hsplit, List.getLast?_append_of_ne_nil _ h,
    List.getLast?_append_of_ne_nil _ h]

end DataIn

/-! ## Moves of the sender -/

theorem Tail.of_eq (h : s.Tail) (hs : s'.sender.tSeqno = s.sender.tSeqno)
    (hc : s'.sender.curseq = s.sender.curseq)
    (hd : dataIn s'.toReceiver = dataIn s.toReceiver) (hr : s'.receiver = s.receiver)
    (hclose : s'.sender.creditRecvState = .closed ∨ s'.sender.creditRecvState = .closeWait →
      s.sender.tSeqno = s.sender.curseq) : s'.Tail := by
  constructor
  · intro ht
    rw [TailOnWay, hc, hd, hr]
    exact h.tail (by rwa [← hs, ← hc])
  · intro hst
    rw [hs, hc]
    exact hclose hst

/-- A sender that has not sent everything is not closing. -/
theorem Tail.of_lt (hlt : s'.sender.tSeqno < s'.sender.curseq)
    (hst : s'.sender.creditRecvState ≠ .closed ∧ s'.sender.creditRecvState ≠ .closeWait) :
    s'.Tail :=
  ⟨fun ht => absurd ht hlt.ne, fun h => absurd h (not_or.mpr hst)⟩

/-- A DATA packet that ends at what has been sent enters the channel. -/
theorem Tail.of_sent {ms : List InFlight} {d : InFlight} (hd : s'.toReceiver = ms ++ [d])
    (hp : d.pkt.ptype = .xpassData) (hend : d.pkt.seqno + d.datalen = s'.sender.tSeqno)
    (hst : s'.sender.creditRecvState ≠ .closed ∧ s'.sender.creditRecvState ≠ .closeWait) :
    s'.Tail := by
  constructor
  · intro ht
    refine .inr (.inl ⟨d, ?_, hend.trans ht⟩)
    rw [hd, dataIn_append, dataIn_cons_of_data hp, dataIn_nil]
    exact List.getLast?_concat
  · intro h
    exact absurd h (not_or.mpr hst)

theorem afterCredit_closing {a : XPassAgent}
    (h : a.afterCredit.creditRecvState = .closed ∨ a.afterCredit.creditRecvState = .closeWait) :
    a.creditRecvState = .closed ∨ a.creditRecvState = .closeWait := by
  cases hs : a.creditRecvState <;> simp_all [afterCredit, RecvState.afterCredit]

theorem Tail.senderMove (h : s.Tail) (hs : s.Stream g) {c : Config} {i : Input} {y : XPassAgent}
    {out : List Effect} {ms : List InFlight} {k n : ℕ}
    (hm : SenderMove c s.clock s.sender i y out)
    (hnb : ∀ nb, i = .advanceBytes nb → 0 < nb)
    (hack : ∀ p r, i = .recv p r → p.ptype = .xpassNack → p.ackno < g.highest) :
    { s with
      sender := y, flows := k, toSender := ms
      toReceiver := s.toReceiver ++ flight (y.tSeqno - s.sender.tSeqno) n out }.Tail := by
  have hle : s.sender.tSeqno ≤ s.sender.curseq := hs.outstanding.sent.trans hs.outstanding.stream
  cases hm with
  | @advance nb =>
    have := hnb nb rfl
    exact .of_lt (by dsimp only; omega) ⟨by simp, by simp⟩
  | @answerCredit p r b hp ha hrem _ hc =>
    obtain ⟨_, _, _, _, _, _, rfl⟩ := hc
    refine .of_sent rfl rfl (by simp [dataPacket]) (not_or.mp fun hst => ?_)
    have hst := afterCredit_closing hst
    rcases ha with ha | ha | ha <;> simp [ha] at hst
  | wasteCredit _ _ hc =>
    obtain ⟨_, _, _, _, _, _, rfl⟩ := hc
    exact h.of_eq rfl rfl (by simp) rfl fun hst => h.closing (afterCredit_closing hst)
  | reopen hp =>
    have := hack _ _ rfl hp
    have := hs.outstanding.stream
    exact .of_lt (by dsimp only; omega) ⟨by simp, by simp⟩
  | rewind hp hst =>
    have := hack _ _ rfl hp
    have := hs.outstanding.stream
    exact .of_lt (by dsimp only; omega) (by rcases hst with hst | hst <;> simp [hst])
  | stop | restop =>
    exact h.of_eq rfl rfl (by simp [dataIn, constructCreditStop]) rfl (by simp)
  | retry => exact h.of_eq rfl rfl (by simp [dataIn, creditRequestPacket]) rfl (by simp)
  | linger _ _ hrem =>
    refine h.of_eq rfl rfl (by simp) rfl fun _ => ?_
    rw [datalenRemaining] at hrem
    omega
  | close _ hst => exact h.of_eq rfl rfl (by simp) rfl fun _ => h.closing (.inr hst)
  | unused => exact h.of_eq rfl rfl (by simp) rfl h.closing

/-! ## Moves of the receiver -/

/-- The receiver takes a packet that carries no data, or a timer of it expires. -/
theorem Tail.of_receiver (h : s.Tail) {y : XPassAgent} {ms ms' : List InFlight}
    (hn : y.recvNext = s.receiver.recvNext)
    (hw : y.waitRetransmission = s.receiver.waitRetransmission)
    (hd : dataIn ms = dataIn s.toReceiver) :
    { s with receiver := y, toReceiver := ms, toSender := ms' }.Tail :=
  ⟨fun ht => by simpa only [TailOnWay, hn, hw, hd] using h.tail ht, h.closing⟩

/-- The effect of a DATA packet on the receiver. -/
theorem data_cases {c : Config} {now : ℚ} {a a' : XPassAgent} {m : InFlight} {r : Rand}
    {out : List Effect} (hm : ReceiverMove c now a (.recv m.pkt r) a' out)
    (hp : m.pkt.ptype = .xpassData) :
    a'.recvNext = a.recvNext ∧ a'.waitRetransmission = true ∨
    m.pkt.seqno = a.recvNext ∧ a'.recvNext = m.pkt.seqno + (m.pkt.size - m.pkt.hlen) ∨
    m.pkt.seqno < a.recvNext ∧ a'.recvNext = a.recvNext := by
  cases hm with
  | firstGap => exact .inl ⟨rfl, rfl⟩
  | laterGap _ _ _ hw => exact .inl ⟨rfl, hw⟩
  | nextData _ _ hnext => exact .inr (.inl ⟨hnext, by rw [hnext]⟩)
  | oldData _ _ hold => exact .inr (.inr ⟨hold, rfl⟩)
  | acceptRequest hq | ignoreRequest hq | stopCredits hq => simp [hp] at hq

theorem Tail.data (h : s.Tail) (hs : s.Stream g) {c : Config} {r : Rand} {m : InFlight}
    {rest ms : List InFlight} {y : XPassAgent} {out : List Effect}
    (hrest : s.toReceiver = m :: rest)
    (hm : ReceiverMove c s.clock s.receiver (.recv m.pkt r) y out)
    (hp : m.pkt.ptype = .xpassData)
    (hkept : s.IsTail 0 → s.receiver.recvNext ≤ m.pkt.seqno) :
    { s with receiver := y, toReceiver := rest, toSender := ms }.Tail := by
  have hcarry := hs.data m (by rw [hrest]; exact List.mem_cons_self) hp
  have hpos := hcarry.pos
  have hend := hcarry.le
  have hstream := hs.outstanding.stream
  have hdata : dataIn s.toReceiver = m :: dataIn rest := by rw [hrest, dataIn_cons_of_data hp]
  refine ⟨fun ht => ?_, h.closing⟩
  dsimp only at ht ⊢
  rcases h.tail ht with hall | ⟨d, hd, hdend⟩ | ⟨hnone, _⟩
  · -- everything is received already, so the packet is old
    left
    rcases data_cases hm hp with ⟨hn, _⟩ | ⟨hseq, _⟩ | ⟨_, hn⟩
    · rw [hn, hall]
    · omega
    · rw [hn, hall]
  · by_cases hr : dataIn rest = []
    · -- the packet ends the stream
      obtain rfl : m = d := by simpa [hdata, hr] using hd
      rcases data_cases hm hp with ⟨_, hw⟩ | ⟨_, hn⟩ | ⟨hold, hn⟩
      · exact .inr (.inr ⟨hr, hw⟩)
      · left
        rw [hn, hcarry.counted, hdend]
      · left
        by_contra hne
        have htail : s.IsTail 0 := ⟨ht, by rwa [← hn], ⟨m, by simp [hrest], hp⟩, by simpa [hrest]⟩
        exact absurd hold (not_lt.mpr (hkept htail))
    · right; left
      refine ⟨d, ?_, hdend⟩
      rw [hdata, List.getLast?_cons_of_ne_nil hr] at hd
      exact hd
  · rw [hdata] at hnone
    cases hnone

theorem Tail.receiverRecv (h : s.Tail) (hs : s.Stream g) {c : Config} {r : Rand} {m : InFlight}
    {rest ms : List InFlight} {y : XPassAgent} {out : List Effect}
    (hrest : s.toReceiver = m :: rest)
    (hm : ReceiverMove c s.clock s.receiver (.recv m.pkt r) y out)
    (hkept : s.IsTail 0 → s.receiver.recvNext ≤ m.pkt.seqno) :
    { s with receiver := y, toReceiver := rest, toSender := ms }.Tail := by
  by_cases hp : m.pkt.ptype = .xpassData
  · exact h.data hs hrest hm hp hkept
  · have hd : dataIn rest = dataIn s.toReceiver := by rw [hrest, dataIn_cons_of_ne hp]
    cases hm with
    | acceptRequest | ignoreRequest | stopCredits => exact h.of_receiver rfl rfl hd
    | firstGap hq | laterGap hq | nextData hq | oldData hq => exact absurd hq hp

theorem Tail.receiverExpire (h : s.Tail) {c : Config} {t : AgentTimer} {r : Rand}
    {ms : List InFlight} {y : XPassAgent} {out : List Effect}
    (hm : ReceiverMove c s.clock s.receiver (.expire t r) y out) :
    { s with receiver := y, toSender := ms }.Tail := by
  cases hm <;> exact h.of_receiver rfl rfl rfl

/-! ## Losses -/

theorem Tail.lose (h : s.Tail) {i : ℕ} {m : InFlight} (hm : s.toReceiver[i]? = some m)
    (hkept : ¬ s.IsTail i) : { s with toReceiver := s.toReceiver.eraseIdx i }.Tail := by
  refine ⟨fun ht => ?_, h.closing⟩
  by_cases hp : m.pkt.ptype = .xpassData
  · by_cases hall : s.receiver.recvNext = s.sender.curseq
    · exact .inl hall
    · have hlater : dataIn (s.toReceiver.drop (i + 1)) ≠ [] :=
        fun hnone => hkept ⟨ht, hall, ⟨m, hm, hp⟩, hnone⟩
      rcases h.tail ht with hall' | ⟨d, hd, hend⟩ | ⟨hnone, _⟩
      · exact .inl hall'
      · exact .inr (.inl ⟨d, by rw [getLast?_dataIn_eraseIdx hlater]; exact hd, hend⟩)
      · exact absurd (mem_dataIn.mpr ⟨List.mem_of_getElem? hm, hp⟩) (by simp [hnone])
  · have hd : dataIn (s.toReceiver.eraseIdx i) = dataIn s.toReceiver :=
      filter_eraseIdx_of_not hm (by simpa using hp)
    simpa only [TailOnWay, hd] using h.tail ht

theorem Tail.move (h : s.Tail) (hs : s.Stream g) (hm : Move cfg s x s') (hf : s.Fifo x)
    (hkept : s.TailKept x) : s'.Tail := by
  cases hm with
  | tick => exact ⟨h.tail, h.closing⟩
  | loseToReceiver hi => exact h.lose (List.getElem?_eq_getElem hi) hkept
  | loseToSender => exact ⟨h.tail, h.closing⟩
  | advance hnb _ hm => exact h.senderMove hs hm (by rintro _ ⟨⟩; exact hnb) (by simp)
  | @senderRecv i r m y out hget _ hm =>
    apply h.senderMove hs hm (by simp)
    rintro _ _ ⟨⟩ hp
    exact hs.nack m (List.mem_of_getElem? hget) hp
  | senderExpire hm => exact h.senderMove hs hm (by simp) (by simp)
  | receiverRecv hget _ hm =>
    obtain rfl : _ = 0 := hf
    obtain ⟨rest, hrest⟩ := eq_cons_of_getElem?_zero hget
    rw [hrest]
    exact h.receiverRecv hs hrest hm fun ht => hkept ht _ hget
  | receiverExpire hm => exact h.receiverExpire hm

end Pair

/-- The runs in which requests are answered, no DATA packet is padded and the last DATA packet
is kept. -/
def reliableMachine (cfg : Side → Config) : Machine Pair PairAction Exit :=
  (pairMachine cfg).restrict fun s x =>
    s.Fifo x ∧ s.Answered x ∧ s.Unpadded cfg x ∧ s.TailKept x

section Reliable

variable {cfg : Side → Config} {s : Pair}

theorem served_of_reliable (h : (reliableMachine cfg).Reachable s) : s.Roles ∧ s.Served :=
  (served_invariant cfg).reachable (h.restrict_mono fun _ _ hx => ⟨hx.1, hx.2.1⟩)

theorem stream_of_reliable (h : (reliableMachine cfg).Reachable s) : ∃ g, s.Stream g := by
  have h' : ((pairMachine cfg).restrict (Pair.Unpadded cfg)).Reachable s :=
    h.restrict_mono fun _ _ hx => hx.2.2.1
  obtain ⟨g, hg⟩ : ∃ g, (streamMachine cfg).Reachable (s, g) := h'.exists_history
  exact ⟨g, ((stream_invariant cfg).reachable hg).2⟩

end Reliable

theorem tail_invariant (cfg : Side → Config) :
    (reliableMachine cfg).Invariant fun s => (reliableMachine cfg).Reachable s ∧ s.Tail := by
  apply Machine.Reachable.invariant.under
  · rintro s ⟨hs, hr, _⟩
    exact ⟨fun _ => .inl (by rw [hs, hr]), fun _ => by rw [hs]⟩
  · intro s x s' hreach h he hs
    obtain ⟨g, hg⟩ := stream_of_reliable hreach
    exact h.move hg (Pair.step_move (served_of_reliable hreach).1 he.1 hs) he.2.1 he.2.2.2.2

/-- A flow of one packet, from `advance-bytes` to the record of its completion. -/
def onePacketRun (atData : PairAction) : List PairAction :=
  let r : Rand := default
  [.advanceBytes 1460, .deliver .receiver 0 r, .tick (1 / 100000), .deliver .sender 0 r, atData,
    .expire .sender .creditStop r, .deliver .receiver 0 r,
    .tick (3 / 100000), .expire .sender .senderRetransmit r,
    .tick (4 / 100000), .expire .sender .senderRetransmit r,
    .tick (201 / 100000), .expire .receiver .fct r]

end Ns2XPass
