import Ns2XPass.Agent.Backlog
import Ns2XPass.Pair.Moves

/-! # The byte stream

The receiver counts the bytes of a DATA packet from its size, which is padded to
the minimum of Ethernet. As long as no DATA packet is padded, it counts the
bytes by which the sender advanced, never gets ahead of the sender, and has a
packet for each byte it has counted.
-/

namespace Ns2XPass

open XPassAgent

/-- The DATA packets among the packets of a channel. -/
def dataIn (ms : List InFlight) : List InFlight := ms.filter (·.pkt.ptype = .xpassData)

theorem mem_dataIn {ms : List InFlight} {m : InFlight} :
    m ∈ dataIn ms ↔ m ∈ ms ∧ m.pkt.ptype = .xpassData := by
  simp [dataIn]

/-- What a run has done: the highest value `t_seqno_` has had, and the DATA packets received. -/
structure StreamHistory where
  highest : ℤ := 1
  received : List InFlight := []

namespace Pair

/-- The packet that an action delivers to the receiver. -/
def received (s : Pair) : PairAction → List InFlight
  | .deliver .receiver i _ => (s.toReceiver[i]?).toList
  | _ => []

/-- A CREDIT does not find a segment so short that its DATA packet is padded. -/
def Unpadded (cfg : Side → Config) (s : Pair) : PairAction → Prop
  | .deliver .sender i _ => ∀ m ∈ s.toSender[i]?, m.pkt.ptype = .xpassCredit →
      s.sender.creditRecvState.Answers → 0 < s.sender.datalenRemaining →
      (cfg .sender).minEthernetSize ≤ (cfg .sender).xpassHdrSize + s.sender.datalen (cfg .sender)
  | _ => True

instance (cfg : Side → Config) (s : Pair) : DecidablePred (s.Unpadded cfg)
  | .deliver .sender i _ => inferInstanceAs (Decidable (∀ m ∈ s.toSender[i]?,
      m.pkt.ptype = .xpassCredit → s.sender.creditRecvState.Answers →
      0 < s.sender.datalenRemaining → (cfg .sender).minEthernetSize ≤
        (cfg .sender).xpassHdrSize + s.sender.datalen (cfg .sender)))
  | .deliver .receiver _ _ | .tick _ | .advanceBytes _ | .lose _ _ | .expire _ _ _ =>
    inferInstanceAs (Decidable True)

end Pair

def StreamHistory.record (s : Pair) (x : PairAction) (s' : Pair) (g : StreamHistory) :
    StreamHistory where
  highest := max g.highest s'.sender.tSeqno
  received := dataIn (s.received x) ++ g.received

/-- The runs in which no DATA packet is padded, with the record of the stream. -/
def streamMachine (cfg : Side → Config) : Machine (Pair × StreamHistory) PairAction Exit :=
  ((pairMachine cfg).restrict (Pair.Unpadded cfg)).withHistory {} StreamHistory.record

namespace Pair

variable {cfg : Side → Config} {s s' : Pair} {x : PairAction} {g : StreamHistory}

/-- A packet of the stream up to `n`, of the length that the receiver counts. -/
structure Carries (n : ℤ) (m : InFlight) : Prop where
  counted : m.pkt.size - m.pkt.hlen = m.datalen
  pos : 0 < m.datalen
  le : m.pkt.seqno + m.datalen ≤ n

structure Stream (s : Pair) (g : StreamHistory) : Prop where
  outstanding : s.sender.Outstanding g.highest
  data : ∀ m ∈ s.toReceiver, m.pkt.ptype = .xpassData → Carries g.highest m
  nack : ∀ m ∈ s.toSender, m.pkt.ptype = .xpassNack → m.pkt.ackno < g.highest
  le : s.receiver.recvNext ≤ g.highest
  gap : s.receiver.waitRetransmission = true → s.receiver.recvNext < g.highest
  counted : ∀ m ∈ g.received, Carries g.highest m
  covered : ∀ b, 1 ≤ b → b < s.receiver.recvNext →
    ∃ m ∈ g.received, m.pkt.seqno ≤ b ∧ b < m.pkt.seqno + m.datalen

theorem Carries.mono {m : InFlight} {n n' : ℤ} (h : Carries n m) (hn : n ≤ n') : Carries n' m :=
  ⟨h.counted, h.pos, h.le.trans hn⟩

/-- The DATA packets that a sender puts in the channel. -/
theorem data_of_flight {c : Config} {now : ℚ} {a a' : XPassAgent} {i : Input} {out : List Effect}
    {n : ℕ} {m : InFlight} (hm : SenderMove c now a i a' out)
    (hmem : m ∈ flight (a'.tSeqno - a.tSeqno) n out) (hp : m.pkt.ptype = .xpassData) :
    ∃ p r, i = .recv p r ∧ p.ptype = .xpassCredit ∧ a.creditRecvState.Answers ∧
      0 < a.datalenRemaining ∧ 0 < a.datalen c ∧ m.pkt = a.dataPacket c p ∧
      m.datalen = a.datalen c ∧ a'.tSeqno = a.tSeqno + a.datalen c := by
  obtain ⟨hout, hlen, _⟩ := mem_flight.mp hmem
  cases hm with
  | @answerCredit p r _ hc ha hrem hpos ht =>
    obtain ⟨_, _, _, _, _, _, rfl⟩ := ht
    exact ⟨p, r, rfl, hc, ha, hrem, hpos, Effect.send.inj (List.mem_singleton.mp hout),
      by rw [hlen]; simp, rfl⟩
  | advance | reopen | retry | stop | restop =>
    rw [Effect.send.inj (List.mem_singleton.mp hout)] at hp
    simp [creditRequestPacket, constructCreditStop] at hp
  | wasteCredit | rewind | linger | unused => simp at hout
  | close => simp at hout

theorem carries_dataPacket {c : Config} {a a' : XPassAgent} {p : Packet} {m : InFlight} {n : ℤ}
    (hpkt : m.pkt = a.dataPacket c p) (hlen : m.datalen = a.datalen c) (hpos : 0 < a.datalen c)
    (ht : a'.tSeqno = a.tSeqno + a.datalen c) (hn : a'.tSeqno ≤ n)
    (hpad : c.minEthernetSize ≤ c.xpassHdrSize + a.datalen c) : Carries n m := by
  constructor
  · simp only [hpkt, dataPacket, max_eq_right hpad, hlen]
    ring
  · exact hlen ▸ hpos
  · simp only [hpkt, dataPacket, hlen]
    omega

/-- What a sender can do to the stream, when it takes one of the packets it may be sent. -/
theorem Stream.senderMove (h : s.Stream g) {c : Config} {i : Input} {y : XPassAgent}
    {out : List Effect} {ms : List InFlight} {k n : ℕ}
    (hm : SenderMove c s.clock s.sender i y out) (hms : ms ⊆ s.toSender)
    (hnb : ∀ nb, i = .advanceBytes nb → 0 < nb)
    (hack : ∀ p r, i = .recv p r → p.ptype = .xpassNack → p.ackno < g.highest)
    (hpad : ∀ p r, i = .recv p r → p.ptype = .xpassCredit → s.sender.creditRecvState.Answers →
      0 < s.sender.datalenRemaining →
      c.minEthernetSize ≤ c.xpassHdrSize + s.sender.datalen c) :
    { s with
      sender := y, flows := k, toSender := ms
      toReceiver := s.toReceiver ++ flight (y.tSeqno - s.sender.tSeqno) n out }.Stream
      { g with highest := max g.highest y.tSeqno } where
  outstanding := h.outstanding.senderMove hm hnb hack
  data m hmem hp := by
    rcases List.mem_append.mp hmem with hmem | hmem
    · exact (h.data m hmem hp).mono (le_max_left _ _)
    · obtain ⟨p, r, hi, hc, ha, hrem, hpos, hpkt, hlen, ht⟩ := data_of_flight hm hmem hp
      exact carries_dataPacket hpkt hlen hpos ht (le_max_right _ _) (hpad p r hi hc ha hrem)
  nack m hmem hp := (h.nack m (hms hmem) hp).trans_le (le_max_left _ _)
  le := h.le.trans (le_max_left _ _)
  gap hw := (h.gap hw).trans_le (le_max_left _ _)
  counted m hmem := (h.counted m hmem).mono (le_max_left _ _)
  covered := h.covered

/-- The receiver does not pass over bytes, and knows of a gap only from a later packet. -/
structure Advances (a : XPassAgent) (m : Option InFlight) (a' : XPassAgent) : Prop where
  next : a'.recvNext = a.recvNext ∨
    ∃ d ∈ m, d.pkt.ptype = .xpassData ∧ d.pkt.seqno = a.recvNext ∧
      a'.recvNext = a.recvNext + (d.pkt.size - d.pkt.hlen)
  gap : a'.waitRetransmission = true → a'.recvNext = a.recvNext ∧
    (a.waitRetransmission = true ∨
      ∃ d ∈ m, d.pkt.ptype = .xpassData ∧ a.recvNext < d.pkt.seqno)

theorem advances_of_recv {c : Config} {now : ℚ} {a a' : XPassAgent} {r : Rand} {m : InFlight}
    {out : List Effect} (hm : ReceiverMove c now a (.recv m.pkt r) a' out) :
    Advances a (some m) a' := by
  cases hm with
  | acceptRequest | ignoreRequest | stopCredits =>
    exact ⟨.inl rfl, fun hw => ⟨rfl, .inl hw⟩⟩
  | firstGap hp _ hgap => exact ⟨.inl rfl, fun _ => ⟨rfl, .inr ⟨m, rfl, hp, hgap⟩⟩⟩
  | laterGap | oldData => exact ⟨.inl rfl, fun hw => ⟨rfl, .inl hw⟩⟩
  | nextData hp _ hnext => exact ⟨.inr ⟨m, rfl, hp, hnext, rfl⟩, fun hw => by cases hw⟩

theorem advances_of_expire {c : Config} {now : ℚ} {a a' : XPassAgent} {t : AgentTimer} {r : Rand}
    {out : List Effect} (hm : ReceiverMove c now a (.expire t r) a' out) : Advances a none a' := by
  cases hm <;> exact ⟨.inl rfl, fun hw => ⟨rfl, .inl hw⟩⟩

/-- A NACK asks for the byte at which the receiver knows of a gap. -/
theorem nack_of_flight {c : Config} {now : ℚ} {a a' : XPassAgent} {i : Input} {out : List Effect}
    {l : ℤ} {n : ℕ} {m : InFlight} (hm : ReceiverMove c now a i a' out)
    (hmem : m ∈ flight l n out) (hp : m.pkt.ptype = .xpassNack) :
    m.pkt.ackno = a'.recvNext ∧ a'.waitRetransmission = true := by
  have hout := (mem_flight.mp hmem).1
  cases hm with
  | firstGap =>
    rw [Effect.send.inj (List.mem_singleton.mp hout)]
    exact ⟨rfl, rfl⟩
  | renack _ hw =>
    rw [Effect.send.inj (List.mem_singleton.mp hout)]
    exact ⟨rfl, hw⟩
  | acceptRequest | credit =>
    rw [Effect.send.inj (List.mem_singleton.mp hout)] at hp
    simp [creditPacket] at hp
  | ignoreRequest | laterGap | nextData | oldData | stopCredits | settled => simp at hout
  | record => simp at hout

theorem Stream.receiverMove (h : s.Stream g) {c : Config} {i : Input} {y : XPassAgent}
    {out : List Effect} {ms : List InFlight} {m : Option InFlight} {l : ℤ} {n : ℕ}
    (hm : ReceiverMove c s.clock s.receiver i y out) (ha : Advances s.receiver m y)
    (hmem : ∀ d ∈ m, d ∈ s.toReceiver) (hms : ms ⊆ s.toReceiver) :
    { s with
      receiver := y, toReceiver := ms, toSender := s.toSender ++ flight l n out }.Stream
      { g with received := dataIn m.toList ++ g.received } := by
  have hgap : y.waitRetransmission = true → y.recvNext < g.highest := by
    intro hw
    obtain ⟨hr, hw | ⟨d, hd, hp, hlt⟩⟩ := ha.gap hw
    · exact hr ▸ h.gap hw
    · have hd := h.data d (hmem d hd) hp
      have := hd.pos
      have := hd.le
      omega
  constructor
  · exact h.outstanding
  · intro d hd hp
    exact h.data d (hms hd) hp
  · intro d hd hp
    rcases List.mem_append.mp hd with hd | hd
    · exact h.nack d hd hp
    · obtain ⟨hack, hw⟩ := nack_of_flight hm hd hp
      exact hack ▸ hgap hw
  · rcases ha.next with hr | ⟨d, hd, hp, hseq, hr⟩
    · exact hr ▸ h.le
    · have hd := h.data d (hmem d hd) hp
      dsimp only
      rw [hr, hd.counted, ← hseq]
      exact hd.le
  · exact hgap
  · intro d hd
    rcases List.mem_append.mp hd with hd | hd
    · obtain ⟨hd, hp⟩ := mem_dataIn.mp hd
      exact h.data d (hmem d (Option.mem_toList.mp hd)) hp
    · exact h.counted d hd
  · intro b hb hlt
    rcases ha.next with hr | ⟨d, hd, hp, hseq, hr⟩
    · obtain ⟨d, hd, hb⟩ := h.covered b hb (hr ▸ hlt)
      exact ⟨d, List.mem_append_right _ hd, hb⟩
    · by_cases hb' : b < s.receiver.recvNext
      · obtain ⟨d, hd, hb⟩ := h.covered b hb hb'
        exact ⟨d, List.mem_append_right _ hd, hb⟩
      · refine ⟨d, List.mem_append_left _ (mem_dataIn.mpr ⟨Option.mem_toList.mpr hd, hp⟩),
          by omega, ?_⟩
        rw [hseq, ← (h.data d (hmem d hd) hp).counted]
        exact hr ▸ hlt

theorem Stream.of_sublist (h : s.Stream g) {ms ms' : List InFlight} (hms : ms ⊆ s.toReceiver)
    (hms' : ms' ⊆ s.toSender) {t : ℚ} :
    { s with clock := t, toReceiver := ms, toSender := ms' }.Stream g :=
  ⟨h.outstanding, fun m hm => h.data m (hms hm), fun m hm => h.nack m (hms' hm), h.le, h.gap,
    h.counted, h.covered⟩

/-- Only a step of the sender or a packet received changes the record. -/
theorem Stream.recorded (h : s.Stream g) (h' : s'.Stream g) (hs : s'.sender = s.sender)
    (hr : s.received x = []) : s'.Stream (g.record s x s') := by
  have hg : g.record s x s' = g := by
    simp [StreamHistory.record, hs, hr, dataIn, max_eq_left h.outstanding.sent]
  rwa [hg]

theorem eraseIdx_subset {α : Type*} {l : List α} {i : ℕ} : l.eraseIdx i ⊆ l :=
  fun _ => List.mem_of_mem_eraseIdx

theorem Stream.move (h : s.Stream g) (hm : Move cfg s x s') (hpad : s.Unpadded cfg x) :
    s'.Stream (g.record s x s') := by
  have hmax : max g.highest s.sender.tSeqno = g.highest := max_eq_left h.outstanding.sent
  cases hm with
  | tick =>
    exact h.recorded (h.of_sublist (List.Subset.refl _) (List.Subset.refl _)) rfl rfl
  | loseToReceiver =>
    exact h.recorded (h.of_sublist eraseIdx_subset (List.Subset.refl _)) rfl rfl
  | loseToSender =>
    exact h.recorded (h.of_sublist (List.Subset.refl _) eraseIdx_subset) rfl rfl
  | advance hnb _ hm =>
    exact h.senderMove hm (List.Subset.refl _) (by rintro _ ⟨⟩; exact hnb) (by simp) (by simp)
  | @senderRecv i r m y out hget _ hm =>
    apply h.senderMove hm eraseIdx_subset (by simp)
    · rintro _ _ ⟨⟩ hp
      exact h.nack m (List.mem_of_getElem? hget) hp
    · rintro _ _ ⟨⟩ hp
      exact hpad m hget hp
  | senderExpire hm => exact h.senderMove hm (List.Subset.refl _) (by simp) (by simp) (by simp)
  | @receiverRecv i r m y out hget _ hm =>
    have := h.receiverMove (l := 0) (n := s.flows) hm (advances_of_recv hm)
      (by rintro d ⟨⟩; exact List.mem_of_getElem? hget) (eraseIdx_subset (i := i))
    simpa only [StreamHistory.record, hmax, received, hget] using this
  | receiverExpire hm =>
    exact h.recorded (h.receiverMove (l := 0) (n := s.flows) hm (advances_of_expire hm) (by simp)
      (List.Subset.refl _)) rfl rfl

end Pair

theorem stream_invariant (cfg : Side → Config) :
    (streamMachine cfg).Invariant fun p => p.1.Roles ∧ p.1.Stream p.2 := by
  apply (roles_invariant cfg).restrict.withHistory.under
  · rintro p ⟨⟨hs, hr, ht, ht', _⟩, hg⟩
    constructor
    · rw [hs, hg]; exact ⟨le_rfl, le_rfl, by simp⟩
    · simp [ht]
    · simp [ht']
    · rw [hr, hg]
    · rw [hr]; simp
    · simp [hg]
    · rw [hr]
      intro b hb hlt
      exact absurd hlt (not_lt.mpr hb)
  · intro p x p' hroles h he hs
    obtain ⟨hs, hg⟩ := (Machine.withHistory_step_iff {}).mp hs
    rw [hg]
    exact h.move (Pair.step_move hroles he.1 hs) he.2

/-- In every run that builds no padded DATA packet, the receiver stays within the stream and
has a packet for each byte below `recv_next_`. A DATA packet is counted at its length exactly
when it is not padded. -/
theorem receiver_within_stream (cfg : Side → Config) {s : Pair} {g : StreamHistory}
    (h : (streamMachine cfg).Reachable (s, g)) :
    (s.receiver.recvNext ≤ g.highest ∧ g.highest ≤ s.sender.curseq) ∧
    (∀ b, 1 ≤ b → b < s.receiver.recvNext →
      ∃ m ∈ g.received, m.pkt.seqno ≤ b ∧ b < m.pkt.seqno + m.datalen) ∧
    (∀ m, m ∈ g.received ∨ m ∈ dataIn s.toReceiver → m.pkt.size - m.pkt.hlen = m.datalen) ∧
    ∀ (c : Config) (a : XPassAgent) (p : Packet),
      (a.dataPacket c p).size - (a.dataPacket c p).hlen = a.datalen c ↔
        c.minEthernetSize ≤ c.xpassHdrSize + a.datalen c := by
  obtain ⟨_, hs⟩ := (stream_invariant cfg).reachable h
  refine ⟨⟨hs.le, hs.outstanding.stream⟩, hs.covered, ?_, fun c a p => ?_⟩
  · rintro m (hm | hm)
    · exact (hs.counted m hm).counted
    · obtain ⟨hm, hp⟩ := mem_dataIn.mp hm
      exact (hs.data m hm hp).counted
  · simp only [dataPacket]
    omega

theorem receiver_within_stream_after_segment :
    ∃ s g, (streamMachine fun _ => {}).Reachable (s, g) ∧ s.receiver.recvNext = 1461 ∧
      ∃ m ∈ g.received, m.pkt.seqno ≤ 1460 ∧ 1460 < m.pkt.seqno + m.datalen := by
  obtain ⟨⟨s, g⟩, hr, hp⟩ := (Machine.Reachable.init
    (M := ((pairMachine fun _ => {}).restrict (Pair.Unpadded fun _ => {})).withHistory {}
      StreamHistory.record) (s := (default, {})) ⟨pairMachine_init fun _ => {}, rfl⟩).exists_of_exec
    [.advanceBytes 1460, .deliver .receiver 0 default, .deliver .sender 0 default,
      .deliver .receiver 0 default]
    (fun s => s.1.receiver.recvNext = 1461) (by decide +kernel)
  have hn : s.receiver.recvNext = 1461 := of_decide_eq_true hp
  exact ⟨s, g, hr, hn,
    (receiver_within_stream _ hr).2.1 1460 (by decide) (by rw [hn]; decide)⟩

/-- A flow of one byte: the receiver counts six bytes. -/
theorem receiver_ahead_of_sender :
    ∃ s g, (((pairMachine fun _ => {}).restrict Pair.Exact).withHistory {}
        StreamHistory.record).Reachable (s, g) ∧
      g.highest = 2 ∧ s.sender.curseq = 2 ∧ s.receiver.recvNext = 7 := by
  obtain ⟨⟨s, g⟩, hr, hp⟩ := (Machine.Reachable.init
    (M := ((pairMachine fun _ => {}).restrict Pair.Exact).withHistory {} StreamHistory.record)
    (s := (default, {})) ⟨pairMachine_init fun _ => {}, rfl⟩).exists_of_exec
    [.advanceBytes 1, .deliver .receiver 0 default, .deliver .sender 0 default,
      .deliver .receiver 0 default]
    (fun s => s.2.highest = 2 ∧ s.1.sender.curseq = 2 ∧ s.1.receiver.recvNext = 7)
    (by decide +kernel)
  exact ⟨s, g, hr, of_decide_eq_true hp⟩

end Ns2XPass
