import Ns2XPass.Dccp.AckWalks
import Ns2XPass.Dccp.PipeBooks

/-! # Runs of a TCP-like sender

Packets are sent, acknowledged in any order, or lost, and the timers expire. No run aborts:
the pipe is the number of the data packets since the last timeout that have not left it,
each leaves at most once, and the timeout timer runs as long as there are some.
-/

namespace Ns2XPass

variable {junk : ℕ → ℕ → ℕ} {ackNum : ℕ}

/-- The settings of a sender, with sizes for which its ack vectors are sound. -/
structure PipeSettings extends TcpLikeSettings where
  numDupAcks : ℕ
  ackvSize : ℕ
  three_le : 3 ≤ initialCwnd
  dup_pos : 1 ≤ numDupAcks
  two_le : 2 ≤ ackvSize
  size_le : ackvSize ≤ maxAckvSize

inductive PipeInput
  | send (data : Bool)
  | recvAck (ackNum : ℕ) (option : Option (UInt8 × List UInt8)) (i : TcpLikeSender.AckInput)
  | recvData (lostAck changes : Bool)
  | timeout (changes : Bool)
  | negotiated (ratio : ℤ)
  | timeoutDack

namespace PipeInput

/-- The ack vector that is imported from an option. -/
def imported (junk : ℕ → ℕ → ℕ) (cfg : PipeSettings) (ackNum : ℕ)
    (option : Option (UInt8 × List UInt8)) : Option AckVector :=
  option.bind fun o => AckVector.processAckVector junk cfg.ackvSize o.1 o.2 ackNum

/-- A packet that has been sent is acknowledged, with states of packets behind the handshake. There
is space for them, if the acknowledgement is not an old one. The numbers do not wrap. -/
def Legal (junk : ℕ → ℕ → ℕ) (cfg : PipeSettings) (s : TcpLikeSender) : PipeInput → Prop
  | send _ => s.window.seqNum < 2 ^ 31
  | recvAck ackNum option _ => (ackNum : ℤ) < s.window.seqNum ∧
      (∀ o ∈ option, o.2.length ≤ maxAckvSize ∧ total (o.2.map UInt8.toNat) ≤ ackNum ∧
        ∀ b ∈ o.2, itemState b.toNat ≠ .reserved) ∧
      ∀ v ∈ imported junk cfg ackNum option, 0 < v.size → s.highAckRecv ≤ ackNum →
        TcpLikeSender.HasSpace junk s.storedAckv v
  | timeout _ => s.timerTo = true
  | recvData _ _ | negotiated _ | timeoutDack => True

end PipeInput

/-- A sender beside the books on its packets, which do not influence it. The matrix is that of the
constructor, or after a reset that of any ack vector. -/
def pipeMachine (junk : ℕ → ℕ → ℕ) (cfg : PipeSettings) :
    Machine (TcpLikeSender × PipeLedger) PipeInput PipeError where
  Init p := p.2 = {} ∧ ∃ cons, (cons = likeCons ∨ cons = newAckvCons) ∧
    p.1 = {
      window := .reset cfg.toTcpLikeSettings
      numDupAcks := cfg.numDupAcks
      storedAckv := { AckVector.new junk cfg.ackvSize with ackvCons := cons } }
  Enabled p x := x.Legal junk cfg p.1
  step p
    | .send data => .ok (p.1.send data,
        if data then { p.2 with sent := p.1.window.seqNum.toNat :: p.2.sent } else p.2)
    | .recvAck ackNum option i =>
      (p.1.recvAck junk ackNum (PipeInput.imported junk cfg ackNum option) i).map fun r =>
        (r.2.changeRemoteAckRatio i.changes, { p.2 with left := r.1 ++ p.2.left })
    | .recvData lostAck changes => .ok ((p.1.recvData lostAck).changeRemoteAckRatio changes, p.2)
    | .timeout changes => .ok (p.1.timeout cfg.toTcpLikeSettings changes, p.2)
    | .negotiated ratio =>
      .ok ({ p.1 with window := { p.1.window with ackRatioRemote := u16 ratio } }, p.2)
    | .timeoutDack => .ok ({ p.1 with window := p.1.window.timeoutDack }, p.2)

namespace TcpLikeSender

variable {s : TcpLikeSender} {led : PipeLedger} {v : AckVector}

/-- What an option tells of packets behind the handshake is sound. -/
theorem Received.of_option {ackvSize : ℕ} {o : UInt8 × List UInt8} (hpos : 0 < ackvSize)
    (hsize : ackvSize ≤ maxAckvSize) (hlen : o.2.length ≤ maxAckvSize)
    (htotal : total (o.2.map UInt8.toNat) ≤ ackNum) (hlt : ackNum < 2 ^ 31)
    (hstates : ∀ b ∈ o.2, itemState b.toNat ≠ .reserved)
    (hv : AckVector.processAckVector junk ackvSize o.1 o.2 ackNum = some v) (hne : 0 < v.size) :
    Received v ∧ v.seqHead = ackNum := by
  obtain ⟨ene, hene⟩ : ∃ ene, ene = 1 - (optAckVectorN1.toNat - o.1.toNat) := ⟨_, rfl⟩
  obtain ⟨w, hw, hi⟩ : ∃ w, AckVector.setAckVector junk (o.2.map UInt8.toNat) ackNum ene
      AckVector.doublings (.new junk ackvSize) = (w, true) ∧
      w.Imported (o.2.map UInt8.toNat) ackNum := by
    apply AckVector.setAckVector_ok ackNum ene hpos hsize
    rwa [List.length_map]
  rw [AckVector.processAckVector, ← hene, hw] at hv
  obtain rfl : w = v := Option.some.inj hv
  have hitems : o.2.map UInt8.toNat ≠ [] := by
    intro hnil
    rw [hi.size, hnil] at hne
    exact hne.false
  have hvalid := hi.valid hitems (by omega) (by omega) (by
    intro b hb
    obtain ⟨c, -, rfl⟩ := List.mem_map.mp hb
    exact c.toNat_lt)
  have hspan := hvalid.span hitems
  have hhead := hi.seqHead
  refine ⟨⟨⟨_, hitems, hvalid⟩, fun q hq => ?_, by omega, by omega⟩, hhead⟩
  obtain ⟨b, hb, hin⟩ := List.mem_flatMap.mp (hvalid.mem_of_map hq)
  obtain ⟨c, hc, rfl⟩ := List.mem_map.mp hb
  exact hstates c hc (List.eq_of_mem_replicate hin).symm

namespace Accounts

/-- What is noted of an acknowledgement changes no number of a packet. -/
theorem note (h : s.Accounts led) (skips : Bool) (rto : ℚ) :
    ({ s with window := { s.window with skipAckLoss := skips, rto := rto } } :
      TcpLikeSender).Accounts led := by
  have hw := h.counts.windowed
  have hr := h.counts.ranged
  apply h.withWindow
  · exact ⟨rfl, rfl, rfl⟩
  · exact ⟨⟨⟨hw.1.1, hw.1.2, hw.1.3⟩, hw.2, hw.3, hw.4, hw.5⟩, ⟨hr.1, hr.2, hr.3⟩⟩

theorem lostOrMarkedAck (h : s.Accounts led) : s.lostOrMarkedAck.Accounts led := by
  apply h.withWindow
  · exact .lostOrMarkedAck _
  · exact TcpLike.lostOrMarkedAck_windowed h.counts.windowed h.counts.ranged

theorem changeRemoteAckRatio (h : s.Accounts led) (changes : Bool) :
    (s.changeRemoteAckRatio changes).Accounts led := by
  apply h.withWindow
  · exact .changeRemoteAckRatio _ changes
  · constructor
    · exact h.counts.windowed.changeRemoteAckRatio changes
    · exact h.counts.ranged.changeRemoteAckRatio changes

theorem recvData (h : s.Accounts led) (lostAck : Bool) : (s.recvData lostAck).Accounts led := by
  unfold TcpLikeSender.recvData
  split_ifs
  · exact h.lostOrMarkedAck
  · exact h

theorem negotiated (h : s.Accounts led) (ratio : ℤ) :
    ({ s with window := { s.window with ackRatioRemote := u16 ratio } } :
      TcpLikeSender).Accounts led := by
  have hw := h.counts.windowed
  have hr := h.counts.ranged
  apply h.withWindow
  · exact ⟨rfl, rfl, rfl⟩
  · exact ⟨⟨⟨hw.1.1, hw.1.2, hw.1.3⟩, hw.2, hw.3, hw.4, hw.5⟩, ⟨hr.1, hr.2, u16_nonneg _⟩⟩

theorem timeoutDack (h : s.Accounts led) :
    ({ s with window := s.window.timeoutDack } : TcpLikeSender).Accounts led := by
  have hw := h.counts.windowed
  have hr := h.counts.ranged
  apply h.withWindow
  · exact ⟨rfl, rfl, rfl⟩
  · exact ⟨⟨⟨hw.1.1, hw.1.2, hw.1.3⟩, hw.2, hw.3, hw.4, hw.5⟩, ⟨hr.1, hr.2, hr.3⟩⟩

/-- Any acknowledgement is processed to the end. -/
theorem recvAck {ackv : Option AckVector} (h : s.Accounts led)
    (hlt : (ackNum : ℤ) < s.window.seqNum)
    (hv : ∀ v ∈ ackv, 0 < v.size → (Received v ∧ v.seqHead = ackNum) ∧
      (s.highAckRecv ≤ ackNum → HasSpace junk s.storedAckv v)) (i : AckInput) :
    ∃ leaving s', s.recvAck junk ackNum ackv i = .ok (leaving, s') ∧
      s'.Accounts { led with left := leaving ++ led.left } := by
  have hnoted := h.note (decide ((ackNum : ℤ) < s.window.ackWinStart)) s.window.rto
  unfold TcpLikeSender.recvAck
  dsimp only
  cases hf : ackv.filter fun v => 0 < v.size with
  | none =>
    refine ⟨[], _, rfl, ?_⟩
    split_ifs
    · exact hnoted.lostOrMarkedAck
    · exact hnoted
  | some v =>
    obtain ⟨hmem, hpos⟩ := Option.filter_eq_some_iff.mp hf
    obtain ⟨⟨hrecv, hhead⟩, hspace⟩ := hv v hmem (of_decide_eq_true hpos)
    obtain ⟨rto, hrto⟩ : ∃ rto, rto =
        if (findPacketInSendHistory ackNum s.sendHist).head? = some ackNum then i.rto
        else s.window.rto := ⟨_, rfl⟩
    have hmeasured := h.note (decide ((ackNum : ℤ) < s.window.ackWinStart)) rto
    dsimp only
    rw [← hrto]
    split_ifs with hold hlost
    · exact ⟨[], _, rfl, hmeasured.lostOrMarkedAck⟩
    · exact ⟨[], _, rfl, hmeasured⟩
    · have hge := not_lt.mp hold
      exact hmeasured.processAck hrecv (hspace hge) hhead.symm hge hlt i.lostAck i.quiescent

theorem init (cfg : PipeSettings) {cons : PacketState → PacketState → PacketState}
    (hcons : cons = likeCons ∨ cons = newAckvCons) :
    ({ window := .reset cfg.toTcpLikeSettings
       numDupAcks := cfg.numDupAcks
       storedAckv := { AckVector.new junk cfg.ackvSize with ackvCons := cons } } :
      TcpLikeSender).Accounts {} := by
  have htwo := cfg.two_le
  have hvalid : ({ AckVector.new junk cfg.ackvSize with ackvCons := cons } : AckVector).Valid [] :=
    .init (by omega) cfg.size_le
  constructor
  case dup => exact cfg.dup_pos
  case tracks =>
    constructor
    case sorted => exact .nil
    case history => exact .slnil
    case nodup => exact List.nodup_nil
    case unreserved =>
      intro q
      rw [stateOf_of_none (congrFun hvalid.map_nil q)]
      decide
    case knows =>
      rcases hcons with rfl | rfl
      · exact knows_likeCons
      · exact knows_newAckvCons
    case histLast => exact le_rfl
    all_goals
      intro q hq
      cases hq
  case stored => exact .inl ⟨hvalid, htwo, rfl⟩
  case counts =>
    constructor
    case windowed => exact windowed_reset_iff.mpr cfg.three_le
    case ranged => exact ranged_reset
    case seqNum_nonneg => exact le_rfl
    case seqNum_le => exact (by decide : (0 : ℤ) ≤ 2 ^ 31)
    case start_le => exact le_rfl
    case sent_lt =>
      intro q hq
      cases hq
    case pipe => rfl
  case timerTo => rfl

end Accounts

end TcpLikeSender

namespace pipeMachine

variable {cfg : PipeSettings} {p : TcpLikeSender × PipeLedger} {x : PipeInput}

/-- A step succeeds, and the books stay right. -/
theorem accounts_step (h : p.1.Accounts p.2) (he : (pipeMachine junk cfg).Enabled p x) :
    ∃ p', (pipeMachine junk cfg).step p x = .ok p' ∧ p'.1.Accounts p'.2 := by
  cases x with
  | send data => exact ⟨_, rfl, h.send he data⟩
  | recvAck ackNum option i =>
    obtain ⟨hlt, hoption, hspace⟩ := he
    have hle := h.counts.seqNum_le
    have hpos := cfg.two_le
    have hsound : ∀ v ∈ PipeInput.imported junk cfg ackNum option, 0 < v.size →
        (TcpLikeSender.Received v ∧ v.seqHead = ackNum) ∧
          (p.1.highAckRecv ≤ ackNum → TcpLikeSender.HasSpace junk p.1.storedAckv v) := by
      intro v hv hsize
      obtain ⟨o, ho, himport⟩ := Option.bind_eq_some_iff.mp hv
      obtain ⟨hlen, htotal, hstates⟩ := hoption o ho
      constructor
      · exact TcpLikeSender.Received.of_option (by omega) cfg.size_le hlen htotal (by omega) hstates
          himport hsize
      · exact hspace v hv hsize
    obtain ⟨leaving, s', hs, h'⟩ := h.recvAck hlt hsound i
    refine ⟨(s'.changeRemoteAckRatio i.changes, { p.2 with left := leaving ++ p.2.left }), ?_,
      h'.changeRemoteAckRatio i.changes⟩
    rw [pipeMachine]
    dsimp only
    rw [hs]
    rfl
  | recvData lostAck changes => exact ⟨_, rfl, (h.recvData lostAck).changeRemoteAckRatio changes⟩
  | timeout changes => exact ⟨_, rfl, h.timeout _ changes⟩
  | negotiated ratio => exact ⟨_, rfl, h.negotiated ratio⟩
  | timeoutDack => exact ⟨_, rfl, h.timeoutDack⟩

theorem invariant (junk : ℕ → ℕ → ℕ) (cfg : PipeSettings) :
    (pipeMachine junk cfg).Invariant fun p => p.1.Accounts p.2 where
  init := by
    rintro ⟨s, led⟩ ⟨hled, cons, hcons, hs⟩
    obtain rfl : led = {} := hled
    obtain rfl := hs
    exact .init cfg hcons
  step := by
    rintro p x p' h he hs
    obtain ⟨p'', hs', h'⟩ := accounts_step h he
    obtain rfl := Except.ok.inj (hs'.symm.trans hs)
    exact h'

end pipeMachine

/-- The pipe is what the books say. -/
structure TcpLikeSender.Accounted (s : TcpLikeSender) (led : PipeLedger) : Prop where
  once : led.left.Nodup
  left_sent : ∀ q ∈ led.left, q ∈ led.sent
  pipe : s.window.pipe = (led.inPipe s.window.seqPipeStart).length
  timerTo : s.timerTo = true ↔ 0 < s.window.pipe
  reported : ∀ q ∈ led.sent, s.seqAllDone < q →
    (q ∈ led.left ↔ s.storedAckv.map q = some .recv ∨ s.storedAckv.map q = some .ecn)

/-- Settings with small windows. -/
def smallPipe : PipeSettings where
  initialCwnd := 3
  cwndTimeout := 2
  initialSsthresh := 20
  initialRto := 3
  cwnd_pos := by decide
  timeout_pos := by decide
  ssthresh_pos := by decide
  numDupAcks := 3
  ackvSize := 20
  three_le := by decide
  dup_pos := by decide
  two_le := by decide
  size_le := by decide

instance decidableAdmitted (junk : ℕ → ℕ → ℕ) :
    ∀ (l : List (ℕ × PacketState)) (v : AckVector), Decidable (AckVector.Admitted junk l v)
  | [], _ => isTrue trivial
  | (seqnum, state) :: l, v =>
    have := decidableAdmitted junk l (v.addPacket junk seqnum state).1
    inferInstanceAs (Decidable ((v.seqTail ≤ seqnum → (v.addPacket junk seqnum state).2 = true) ∧
      AckVector.Admitted junk l (v.addPacket junk seqnum state).1))

instance (junk : ℕ → ℕ → ℕ) (v ackv : AckVector) :
    Decidable (TcpLikeSender.HasSpace junk v ackv) :=
  decidable_of_iff (_ ∧ _) ⟨fun h => ⟨h.1, h.2⟩, fun h => ⟨h.1, h.2⟩⟩

instance (junk : ℕ → ℕ → ℕ) (cfg : PipeSettings) (p : TcpLikeSender × PipeLedger) :
    ∀ x, Decidable ((pipeMachine junk cfg).Enabled p x)
  | .send _ => inferInstanceAs (Decidable (p.1.window.seqNum < 2 ^ 31))
  | .recvAck ackNum option _ => inferInstanceAs (Decidable ((ackNum : ℤ) < p.1.window.seqNum ∧
      (∀ o ∈ option, o.2.length ≤ maxAckvSize ∧ total (o.2.map UInt8.toNat) ≤ ackNum ∧
        ∀ b ∈ o.2, itemState b.toNat ≠ .reserved) ∧
      ∀ v ∈ PipeInput.imported junk cfg ackNum option, 0 < v.size → p.1.highAckRecv ≤ ackNum →
        TcpLikeSender.HasSpace junk p.1.storedAckv v))
  | .timeout _ => inferInstanceAs (Decidable (p.1.timerTo = true))
  | .recvData _ _ | .negotiated _ | .timeoutDack => isTrue trivial

end Ns2XPass
