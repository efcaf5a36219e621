import Ns2XPass.Library.Channel
import Ns2XPass.Pair.Moves

/-! # Credit sequence numbers

A credit number travels in a CREDIT to the sender and back in the DATA packet
that answers it. On channels that keep the order of each packet type the numbers
on their way stay in line between the last one counted and the next one issued,
so `recv_data` counts each of them once, as answered or as dropped.
-/

namespace Ns2XPass

open XPassAgent

/-- The credit numbers of the packets of one type. -/
def seqs (t : PacketType) (ms : List InFlight) : List ℤ :=
  (ms.filter (·.pkt.ptype = t)).map (·.pkt.creditSeq)

section Seqs

variable {t : PacketType} {ms ms' : List InFlight} {i : ℕ} {m : InFlight}

@[simp] theorem seqs_nil : seqs t [] = [] := rfl

@[simp] theorem seqs_append : seqs t (ms ++ ms') = seqs t ms ++ seqs t ms' := by simp [seqs]

@[simp] theorem seqs_singleton :
    seqs t [m] = if m.pkt.ptype = t then [m.pkt.creditSeq] else [] := by
  unfold seqs
  split_ifs with h <;> simp [h]

theorem seqs_of_first (h : ms[i]? = some m)
    (hfirst : ∀ m' ∈ ms.take i, m'.pkt.ptype ≠ m.pkt.ptype) :
    seqs m.pkt.ptype ms = m.pkt.creditSeq :: seqs m.pkt.ptype (ms.eraseIdx i) := by
  have := filter_eq_cons_of_first (p := (·.pkt.ptype = m.pkt.ptype)) h (by simp)
    (by simpa using hfirst)
  rw [seqs, this, List.map_cons, seqs]

theorem seqs_eraseIdx_of_ne (h : ms[i]? = some m) (ht : m.pkt.ptype ≠ t) :
    seqs t (ms.eraseIdx i) = seqs t ms := by
  rw [seqs, filter_eraseIdx_of_not h (by simpa using ht), seqs]

theorem seqs_eraseIdx_sublist : (seqs t (ms.eraseIdx i)).Sublist (seqs t ms) :=
  filter_eraseIdx_sublist.map _

end Seqs

namespace Pair

variable {cfg : Side → Config} {s s' : Pair} {x : PairAction}

/-- The credit numbers on their way: first those in DATA packets, then those in CREDITs. -/
def onTheWay (s : Pair) : List ℤ := seqs .xpassData s.toReceiver ++ seqs .xpassCredit s.toSender

structure Numbered (s : Pair) : Prop where
  positive : 1 ≤ s.receiver.cRecvNext
  inLine : InLine (s.receiver.cRecvNext - 1) s.onTheWay s.receiver.cSeqno

theorem Numbered.cSeqno_pos (h : s.Numbered) : 1 ≤ s.receiver.cSeqno := by
  have := h.positive
  have := h.inLine.lt
  omega

/-- The receiver is as before and numbers are lost, at most. -/
theorem Numbered.of_sublist (h : s.Numbered) (hr : s'.receiver = s.receiver)
    (hl : s'.onTheWay.Sublist s.onTheWay) : s'.Numbered :=
  ⟨by rw [hr]; exact h.positive, by rw [hr]; exact h.inLine.sublist hl⟩

/-- A delivered DATA packet carries the first number in line. -/
theorem Numbered.first_data (h : s.Numbered) {i : ℕ} {m : InFlight}
    (hm : s.toReceiver[i]? = some m)
    (hfirst : ∀ m' ∈ s.toReceiver.take i, m'.pkt.ptype ≠ m.pkt.ptype)
    (hp : m.pkt.ptype = .xpassData) :
    InLine (s.receiver.cRecvNext - 1)
      (m.pkt.creditSeq :: (seqs .xpassData (s.toReceiver.eraseIdx i) ++
        seqs .xpassCredit s.toSender)) s.receiver.cSeqno := by
  have hf := seqs_of_first hm hfirst
  rw [hp] at hf
  simpa only [onTheWay, hf, List.cons_append] using h.inLine

theorem data_of_senderMove {c : Config} {now : ℚ} {a a' : XPassAgent} {i : Input}
    {out : List Effect} (hm : SenderMove c now a i a' out) {l : ℤ} {n : ℕ}
    (hi : ∀ p r, i = .recv p r → p.ptype ≠ .xpassCredit) :
    seqs .xpassData (flight l n out) = [] := by
  cases hm with
  | answerCredit hp | wasteCredit hp => exact absurd hp (hi _ _ rfl)
  | advance | reopen | retry => simp [creditRequestPacket]
  | stop | restop => simp [constructCreditStop]
  | rewind | linger | unused => simp
  | close => simp

/-- A CREDIT is answered with its number or not at all. -/
theorem credit_of_senderMove {c : Config} {now : ℚ} {a a' : XPassAgent} {p : Packet} {r : Rand}
    {out : List Effect} (hm : SenderMove c now a (.recv p r) a' out) {l : ℤ} {n : ℕ} :
    (seqs .xpassData (flight l n out)).Sublist [p.creditSeq] := by
  cases hm with
  | answerCredit => simp [dataPacket]
  | wasteCredit | rewind => simp
  | reopen => simp [creditRequestPacket]

theorem Numbered.data {i : ℕ} {m : InFlight} {y : XPassAgent} {ms : List InFlight}
    (h : s.Numbered) (hm : s.toReceiver[i]? = some m)
    (hfirst : ∀ m' ∈ s.toReceiver.take i, m'.pkt.ptype ≠ m.pkt.ptype)
    (hp : m.pkt.ptype = .xpassData) (hy : y.cRecvNext = m.pkt.creditSeq + 1)
    (hc : y.cSeqno = s.receiver.cSeqno)
    (hms : seqs .xpassCredit ms = seqs .xpassCredit s.toSender) :
    { s with receiver := y, toReceiver := s.toReceiver.eraseIdx i, toSender := ms }.Numbered := by
  have hl := h.first_data hm hfirst hp
  have := h.positive
  have := hl.lt_head
  constructor
  · dsimp only; omega
  · simpa only [onTheWay, hy, hc, hms, add_sub_cancel_right] using hl.tail

theorem Numbered.credit {y : XPassAgent} {ms ms' : List InFlight} (h : s.Numbered)
    (hr : y.cRecvNext = s.receiver.cRecvNext) (hc : y.cSeqno = max 1 (s.receiver.cSeqno + 1))
    (hms : seqs .xpassData ms = seqs .xpassData s.toReceiver)
    (hms' : seqs .xpassCredit ms' = seqs .xpassCredit s.toSender ++ [s.receiver.cSeqno]) :
    { s with receiver := y, toReceiver := ms, toSender := ms' }.Numbered := by
  constructor
  · exact hr ▸ h.positive
  · have hc : y.cSeqno = s.receiver.cSeqno + 1 := by have := h.cSeqno_pos; omega
    simp only [onTheWay, hr, hc, hms, hms', ← List.append_assoc]
    exact h.inLine.issue (lt_add_one _)

theorem Numbered.receiverRecv (h : s.Numbered) {c : Config} {i : ℕ} {r : Rand} {m : InFlight}
    {y : XPassAgent} {out : List Effect} {l : ℤ} {n : ℕ} (hm : s.toReceiver[i]? = some m)
    (hfirst : ∀ m' ∈ s.toReceiver.take i, m'.pkt.ptype ≠ m.pkt.ptype)
    (hy : ReceiverMove c s.clock s.receiver (.recv m.pkt r) y out) :
    { s with
      receiver := y, toReceiver := s.toReceiver.eraseIdx i
      toSender := s.toSender ++ flight l n out }.Numbered := by
  cases hy with
  | acceptRequest hp =>
    exact h.credit rfl rfl (seqs_eraseIdx_of_ne hm (by simp [hp])) (by simp [creditPacket])
  | ignoreRequest hp | stopCredits hp =>
    refine ⟨h.positive, ?_⟩
    simpa [onTheWay, seqs_eraseIdx_of_ne hm (show m.pkt.ptype ≠ .xpassData by simp [hp])]
      using h.inLine
  | firstGap hp => exact h.data hm hfirst hp rfl rfl (by simp [constructNack])
  | laterGap hp | nextData hp | oldData hp => exact h.data hm hfirst hp rfl rfl (by simp)

theorem Numbered.receiverExpire (h : s.Numbered) {c : Config} {t : AgentTimer} {r : Rand}
    {y : XPassAgent} {out : List Effect} {l : ℤ} {n : ℕ}
    (hy : ReceiverMove c s.clock s.receiver (.expire t r) y out) :
    { s with receiver := y, toSender := s.toSender ++ flight l n out }.Numbered := by
  cases hy with
  | credit => exact h.credit rfl rfl rfl (by simp [creditPacket])
  | renack => exact ⟨h.positive, by simpa [onTheWay, constructNack] using h.inLine⟩
  | settled => exact ⟨h.positive, by simpa [onTheWay] using h.inLine⟩
  | record => exact ⟨h.positive, by simpa [onTheWay] using h.inLine⟩

theorem Numbered.move (h : s.Numbered) (hm : Move cfg s x s') : s'.Numbered := by
  cases hm with
  | tick => exact ⟨h.positive, h.inLine⟩
  | loseToReceiver =>
    exact h.of_sublist rfl (List.Sublist.append_right seqs_eraseIdx_sublist _)
  | loseToSender => exact h.of_sublist rfl (List.Sublist.append_left seqs_eraseIdx_sublist _)
  | advance _ _ hm =>
    exact h.of_sublist rfl (by simp [onTheWay, data_of_senderMove hm])
  | senderExpire hm =>
    exact h.of_sublist rfl (by simp [onTheWay, data_of_senderMove hm])
  | @senderRecv i r m y out hget hfirst hm =>
    refine h.of_sublist rfl ?_
    by_cases hp : m.pkt.ptype = .xpassCredit
    · have hf := seqs_of_first hget hfirst
      rw [hp] at hf
      simp only [onTheWay, seqs_append, hf, List.append_assoc]
      exact List.Sublist.append_left
        (List.Sublist.append_right (credit_of_senderMove hm) _) _
    · simp only [onTheWay, seqs_append, data_of_senderMove hm (by rintro _ _ ⟨⟩; exact hp),
        List.append_nil]
      exact List.Sublist.append_left seqs_eraseIdx_sublist _
  | receiverRecv hget hfirst hm => exact h.receiverRecv hget hfirst hm
  | receiverExpire hm => exact h.receiverExpire hm

end Pair

theorem numbered_invariant (cfg : Side → Config) :
    (pairMachine cfg).Invariant fun s => s.Roles ∧ s.Numbered := by
  apply (roles_invariant cfg).under
  · rintro s ⟨_, hr, ht, ht', _⟩
    have hn : s.onTheWay = [] := by simp [Pair.onTheWay, ht, ht']
    constructor
    · rw [hr]
    · rw [hn, hr]
      exact .nil (sub_one_lt 1)
  · intro s x s' hr h he hs
    exact h.move (Pair.step_move hr he hs)

/-! ## The counters -/

/-- What a run has done: the CREDITs sent, the sum of the increments of `credit_total_`, and
the DATA packets received since `credit_feedback_control` last reset the counters. -/
structure CreditCounts where
  sent : ℕ := 0
  counted : ℤ := 0
  answered : ℕ := 0

namespace Pair

variable {cfg : Side → Config} {s s' : Pair} {x : PairAction} {g : CreditCounts}

/-- The action delivers a DATA packet. -/
def DeliversData (s : Pair) : PairAction → Prop
  | .deliver .receiver i _ => ∃ m ∈ s.toReceiver[i]?, m.pkt.ptype = .xpassData
  | _ => False

/-- The action lets `credit_feedback_control` evaluate and reset the counters; its call for
the first credit of a flow never does. -/
def RunsFeedback (s : Pair) : PairAction → Prop
  | .expire .receiver .sendCredit _ => s.receiver.FeedbackDue s.clock
  | _ => False

instance (s : Pair) : DecidablePred s.DeliversData
  | .deliver .receiver i _ =>
    inferInstanceAs (Decidable (∃ m ∈ s.toReceiver[i]?, m.pkt.ptype = .xpassData))
  | .deliver .sender _ _ | .tick _ | .advanceBytes _ | .lose _ _ | .expire _ _ _ =>
    inferInstanceAs (Decidable False)

instance (s : Pair) : DecidablePred s.RunsFeedback
  | .expire .receiver .sendCredit _ => inferInstanceAs (Decidable (s.receiver.FeedbackDue s.clock))
  | .expire .sender _ _ | .expire .receiver .creditStop _ | .expire .receiver .senderRetransmit _
  | .expire .receiver .receiverRetransmit _ | .expire .receiver .fct _
  | .deliver _ _ _ | .tick _ | .advanceBytes _ | .lose _ _ => inferInstanceAs (Decidable False)

end Pair

def CreditCounts.record (s : Pair) (x : PairAction) (s' : Pair) (g : CreditCounts) :
    CreditCounts where
  sent := g.sent + (seqs .xpassCredit (s'.toSender.drop s.toSender.length)).length
  counted :=
    if s.DeliversData x then g.counted + (s'.receiver.creditTotal - s.receiver.creditTotal)
    else g.counted
  answered :=
    if s.DeliversData x then g.answered + 1 else if s.RunsFeedback x then 0 else g.answered

/-- A pair with the record of its credits. -/
def creditMachine (cfg : Side → Config) : Machine (Pair × CreditCounts) PairAction Exit :=
  (pairMachine cfg).withHistory {} CreditCounts.record

instance (cfg : Side → Config) (s : Pair × CreditCounts) (x : PairAction) :
    Decidable ((creditMachine cfg).Enabled s x) :=
  inferInstanceAs (Decidable (s.1.Enabled x))

namespace Pair

variable {cfg : Side → Config} {s s' : Pair} {x : PairAction} {g : CreditCounts}

structure Counted (s : Pair) (g : CreditCounts) : Prop where
  issued : s.receiver.cSeqno = g.sent + 1
  total : g.counted = s.receiver.cRecvNext - 1
  answered : s.receiver.creditTotal - s.receiver.creditDropped = g.answered
  dropped : 0 ≤ s.receiver.creditDropped
  unanswered : g.answered = 0 → s.receiver.creditTotal = 0
  bound : s.receiver.creditTotal < s.receiver.cRecvNext

/-- Without wrapping, the counters take the distance from the last number counted. -/
theorem countCredits_of_inLine {a : XPassAgent} {p : Packet} {hi : ℤ} {l : List ℤ}
    (hpos : 1 ≤ a.cRecvNext) (hl : InLine (a.cRecvNext - 1) (p.creditSeq :: l) hi)
    (hhi : hi ≤ 2 ^ 31) (hd : 0 ≤ a.creditDropped) (ht : a.creditDropped ≤ a.creditTotal)
    (hb : a.creditTotal < a.cRecvNext) :
    a.countCredits p = { a with
      creditTotal := a.creditTotal + (p.creditSeq - a.cRecvNext + 1)
      creditDropped := a.creditDropped + (p.creditSeq - a.cRecvNext)
      cRecvNext := p.creditSeq + 1 } := by
  have := hl.lt_head
  have := hl.head_lt
  have hdist : wrap32 (p.creditSeq - a.cRecvNext) = p.creditSeq - a.cRecvNext :=
    wrap32_of_lt (by omega) (by omega)
  simp only [countCredits, hdist]
  rw [wrap32_of_lt (by omega) (by omega), wrap32_of_lt (by omega) (by omega)]

theorem Counted.dropped_le (h : s.Counted g) :
    s.receiver.creditDropped ≤ s.receiver.creditTotal := by
  have := h.answered
  omega

theorem Counted.dropped_lt (h : s.Counted g) (ht : s.receiver.creditTotal ≠ 0) :
    s.receiver.creditDropped < s.receiver.creditTotal := by
  have := h.answered
  have := mt h.unanswered ht
  omega

/-- A step that sends no CREDIT, delivers no DATA and does not touch the counters. -/
theorem Counted.of_eq (h : s.Counted g) (hr : s'.receiver = s.receiver)
    (hc : s'.toSender.length ≤ s.toSender.length) (hd : ¬ s.DeliversData x)
    (hf : ¬ s.RunsFeedback x) : s'.Counted (g.record s x s') := by
  have hg : g.record s x s' = g := by
    simp [CreditCounts.record, List.drop_eq_nil_of_le hc, hd, hf]
  rw [hg]
  exact ⟨hr ▸ h.issued, hr ▸ h.total, hr ▸ h.answered, hr ▸ h.dropped, hr ▸ h.unanswered,
    hr ▸ h.bound⟩

/-- A step that sends CREDITs, delivers no DATA and does not touch the counters. -/
theorem Counted.credit (h : s.Counted g) {y : XPassAgent} {ms new : List InFlight} {n : ℕ}
    (hn : (seqs .xpassCredit new).length = n) (hi : y.cSeqno = s.receiver.cSeqno + n)
    (hr : y.cRecvNext = s.receiver.cRecvNext)
    (hd : ¬ s.DeliversData x)
    (hk : ¬ s.RunsFeedback x ∧ y.creditTotal = s.receiver.creditTotal ∧
        y.creditDropped = s.receiver.creditDropped ∨
      s.RunsFeedback x ∧ y.creditTotal = 0 ∧ y.creditDropped = 0)
    (hpos : 1 ≤ s.receiver.cRecvNext) :
    { s with receiver := y, toReceiver := ms, toSender := s.toSender ++ new }.Counted
      (g.record s x { s with receiver := y, toReceiver := ms, toSender := s.toSender ++ new }) := by
  have hissued := h.issued
  rcases hk with ⟨hf, ht, hdr⟩ | ⟨hf, ht, hdr⟩
  · simp only [CreditCounts.record, List.drop_left, hn, hd, hf, if_false]
    constructor <;> dsimp only
    · rw [hi, hissued]; push_cast; ring
    · rw [hr]; exact h.total
    · rw [ht, hdr]; exact h.answered
    · rw [hdr]; exact h.dropped
    · rw [ht]; exact h.unanswered
    · rw [ht, hr]; exact h.bound
  · simp only [CreditCounts.record, List.drop_left, hn, hd, hf, if_false, if_true]
    constructor <;> dsimp only
    · rw [hi, hissued]; push_cast; ring
    · rw [hr]; exact h.total
    · rw [ht, hdr]; rfl
    · rw [hdr]
    · rw [ht]; exact fun _ => rfl
    · rw [ht, hr]; omega

/-- The delivery of a DATA packet counts the numbers up to its own. -/
theorem Counted.data (h : s.Counted g) (hnum : s.Numbered) (hsent : g.sent < 2 ^ 31) {i : ℕ}
    {r : Rand} {m : InFlight} {y : XPassAgent} {new : List InFlight}
    (hm : s.toReceiver[i]? = some m)
    (hfirst : ∀ m' ∈ s.toReceiver.take i, m'.pkt.ptype ≠ m.pkt.ptype)
    (hp : m.pkt.ptype = .xpassData)
    (ht : y.creditTotal = (s.receiver.countCredits m.pkt).creditTotal)
    (hd : y.creditDropped = (s.receiver.countCredits m.pkt).creditDropped)
    (hr : y.cRecvNext = (s.receiver.countCredits m.pkt).cRecvNext)
    (hc : y.cSeqno = s.receiver.cSeqno) (hnew : seqs .xpassCredit new = []) :
    { s with
      receiver := y, toReceiver := s.toReceiver.eraseIdx i
      toSender := s.toSender ++ new }.Counted
      (g.record s (.deliver .receiver i r) { s with
        receiver := y, toReceiver := s.toReceiver.eraseIdx i
        toSender := s.toSender ++ new }) := by
  have hl := hnum.first_data hm hfirst hp
  have hlt := hl.lt_head
  have hissued := h.issued
  have htotal := h.total
  have hdrop := h.dropped
  have hle := h.dropped_le
  have hans := h.answered
  have hbound := h.bound
  rw [countCredits_of_inLine hnum.positive hl (by omega) hdrop hle hbound] at ht hd hr
  dsimp only at ht hd hr
  have hdel : s.DeliversData (.deliver .receiver i r) := ⟨m, hm, hp⟩
  simp only [CreditCounts.record, List.drop_left, hnew, List.length_nil, hdel, if_true, add_zero]
  constructor <;> dsimp only
  · omega
  · omega
  · push_cast; omega
  · omega
  · intro h0; omega
  · omega

theorem Counted.receiverRecv (h : s.Counted g) (hnum : s.Numbered) (hsent : g.sent < 2 ^ 31)
    {c : Config} {i : ℕ} {r : Rand} {m : InFlight} {y : XPassAgent} {out : List Effect} {l : ℤ}
    {n : ℕ} (hm : s.toReceiver[i]? = some m)
    (hfirst : ∀ m' ∈ s.toReceiver.take i, m'.pkt.ptype ≠ m.pkt.ptype)
    (hy : ReceiverMove c s.clock s.receiver (.recv m.pkt r) y out) :
    { s with
      receiver := y, toReceiver := s.toReceiver.eraseIdx i
      toSender := s.toSender ++ flight l n out }.Counted
      (g.record s (.deliver .receiver i r) { s with
        receiver := y, toReceiver := s.toReceiver.eraseIdx i
        toSender := s.toSender ++ flight l n out }) := by
  have hnot : m.pkt.ptype ≠ .xpassData → ¬ s.DeliversData (.deliver .receiver i r) := by
    rintro hp ⟨m', hm', hp'⟩
    rw [hm] at hm'
    exact hp (Option.some.inj hm' ▸ hp')
  cases hy with
  | acceptRequest hp =>
    have := hnum.cSeqno_pos
    exact h.credit (n := 1) (by simp [creditPacket]) (by dsimp only; omega) rfl
      (hnot (by simp [hp])) (.inl ⟨id, rfl, rfl⟩) hnum.positive
  | ignoreRequest hp | stopCredits hp =>
    exact h.credit (n := 0) (by simp) (by simp) rfl (hnot (by simp [hp]))
      (.inl ⟨id, rfl, rfl⟩) hnum.positive
  | firstGap hp =>
    exact h.data hnum hsent hm hfirst hp rfl rfl rfl rfl (by simp [constructNack])
  | laterGap hp | nextData hp | oldData hp =>
    exact h.data hnum hsent hm hfirst hp rfl rfl rfl rfl (by simp)

theorem Counted.receiverExpire (h : s.Counted g) (hnum : s.Numbered) {c : Config}
    {t : AgentTimer} {r : Rand} {y : XPassAgent} {out : List Effect} {l : ℤ} {n : ℕ}
    (hy : ReceiverMove c s.clock s.receiver (.expire t r) y out) :
    { s with receiver := y, toSender := s.toSender ++ flight l n out }.Counted
      (g.record s (.expire .receiver t r)
        { s with receiver := y, toSender := s.toSender ++ flight l n out }) := by
  cases hy with
  | credit _ hk =>
    have := hnum.cSeqno_pos
    exact h.credit (n := 1) (by simp [creditPacket]) (by dsimp only; omega) rfl id hk
      hnum.positive
  | renack =>
    exact h.credit (n := 0) (by simp [constructNack]) (by simp) rfl id (.inl ⟨id, rfl, rfl⟩)
      hnum.positive
  | settled | record =>
    exact h.credit (n := 0) (by simp) (by simp) rfl id (.inl ⟨id, rfl, rfl⟩) hnum.positive

theorem Counted.move (h : s.Counted g) (hnum : s.Numbered) (hsent : g.sent < 2 ^ 31)
    (hm : Move cfg s x s') : s'.Counted (g.record s x s') := by
  cases hm with
  | tick | loseToReceiver | advance | senderExpire => exact h.of_eq rfl le_rfl id id
  | loseToSender | senderRecv => exact h.of_eq rfl (List.length_eraseIdx_le _ _) id id
  | receiverRecv hget hfirst hm => exact h.receiverRecv hnum hsent hget hfirst hm
  | receiverExpire hm => exact h.receiverExpire hnum hm

end Pair

theorem counted_invariant (cfg : Side → Config) :
    (creditMachine cfg).Invariant fun p =>
      (p.1.Roles ∧ p.1.Numbered) ∧ (p.2.sent < 2 ^ 31 → p.1.Counted p.2) := by
  apply (numbered_invariant cfg).withHistory.under
  · rintro p ⟨⟨_, hr, _⟩, hg⟩ _
    rw [hg]
    constructor <;> rw [hr] <;> simp
  · intro p x p' hI h he hs hsent
    obtain ⟨hs, hg⟩ := (Machine.withHistory_step_iff {}).mp hs
    have hle : p.2.sent ≤ p'.2.sent := by rw [hg]; exact Nat.le_add_right _ _
    rw [hg]
    exact (h (hle.trans_lt hsent)).move hI.2 (hle.trans_lt hsent) (Pair.step_move hI.1 he hs)

/-- While fewer than `2 ^ 31` CREDITs are sent, every DATA packet that arrives echoes a number
that is not counted yet, and the counters give a loss rate below one. -/
theorem credits_counted_once (cfg : Side → Config) {s : Pair} {g : CreditCounts}
    (h : (creditMachine cfg).Reachable (s, g)) (hsent : g.sent < 2 ^ 31) :
    (∀ i r m, s.Enabled (.deliver .receiver i r) → s.toReceiver[i]? = some m →
      m.pkt.ptype = .xpassData → s.receiver.cRecvNext ≤ m.pkt.creditSeq) ∧
    (∀ x, s.Enabled x → s.step cfg x ≠ .error .creditSequenceReverted) ∧
    s.receiver.cRecvNext ≤ s.receiver.cSeqno ∧
    g.counted = s.receiver.cRecvNext - 1 ∧
    s.receiver.creditTotal - s.receiver.creditDropped = g.answered ∧
    (0 < s.receiver.creditTotal →
      0 ≤ s.receiver.creditDropped ∧ s.receiver.creditDropped < s.receiver.creditTotal) ∧
    (s.receiver.FeedbackDue s.clock → 0 ≤ s.receiver.lossRate ∧ s.receiver.lossRate < 1) := by
  obtain ⟨⟨hroles, hnum⟩, hc⟩ := (counted_invariant cfg).reachable h
  have hnum : s.Numbered := hnum
  have hc : s.Counted g := hc hsent
  have hfirst : ∀ i m, s.toReceiver[i]? = some m →
      (∀ m' ∈ s.toReceiver.take i, m'.pkt.ptype ≠ m.pkt.ptype) → m.pkt.ptype = .xpassData →
      s.receiver.cRecvNext ≤ m.pkt.creditSeq ∧ m.pkt.creditSeq < 2 ^ 31 := by
    intro i m hm hf hp
    have hl := hnum.first_data hm hf hp
    have := hl.lt_head
    have := hl.head_lt
    have := hc.issued
    omega
  refine ⟨?_, ?_, ?_, hc.total, hc.answered, fun ht => ⟨hc.dropped, hc.dropped_lt ht.ne'⟩, ?_⟩
  · rintro i r m ⟨m', hm', hf⟩ hm hp
    obtain rfl : m' = m := Option.some.inj (hm'.symm.trans hm)
    exact (hfirst i m' hm hf hp).1
  · intro x he hs
    cases Pair.step_stopped he hs with
    | advanceBytes hstop => cases hstop
    | expire hstop => cases hstop
    | @deliver d i r m hm hf hstop =>
      cases hstop with
      | creditSequence hp hneg =>
        cases d with
        | sender =>
          have := hroles.toSender m (List.mem_of_getElem? hm)
          simp [PacketType.FromReceiver, hp] at this
        | receiver =>
          obtain ⟨hle, hlt⟩ := hfirst i m hm hf hp
          have := hnum.positive
          have hneg : wrap32 (m.pkt.creditSeq - s.receiver.cRecvNext) < 0 := hneg
          rw [wrap32_of_lt (by omega) (by omega)] at hneg
          omega
  · have := hnum.inLine.lt
    omega
  · rintro ⟨_, _, ht⟩
    have hlt := hc.dropped_lt ht
    have hpos : (0 : ℚ) < s.receiver.creditTotal := by exact_mod_cast hc.dropped.trans_lt hlt
    exact ⟨div_nonneg (by exact_mod_cast hc.dropped) hpos.le,
      (div_lt_one hpos).mpr (by exact_mod_cast hlt)⟩

theorem credits_counted_once_after_data :
    ∃ s g, (creditMachine fun _ => {}).Reachable (s, g) ∧ g.sent = 1 ∧ 0 < s.receiver.creditTotal ∧
      s.receiver.creditDropped < s.receiver.creditTotal := by
  obtain ⟨⟨s, g⟩, hr, hp⟩ := (Machine.Reachable.init (M := creditMachine fun _ => {})
    (s := (default, {})) ⟨pairMachine_init _, rfl⟩).exists_of_exec
    [.advanceBytes 2920, .deliver .receiver 0 default, .deliver .sender 0 default,
      .deliver .receiver 0 default]
    (fun s => s.2.sent = 1 ∧ 0 < s.1.receiver.creditTotal) (by decide +kernel)
  obtain ⟨hsent, ht⟩ := of_decide_eq_true hp
  have hc := credits_counted_once _ hr (by dsimp only at hsent; rw [hsent]; decide)
  exact ⟨s, g, hr, hsent, ht, (hc.2.2.2.2.2.1 ht).2⟩

end Ns2XPass
