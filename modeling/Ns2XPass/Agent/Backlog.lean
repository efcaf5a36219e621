import Mathlib.Algebra.Order.Field.Basic
import Mathlib.Data.Rat.Cast.Order
import Ns2XPass.Agent.Machine
import Ns2XPass.Agent.Moves

/-! # The backlog a CREDIT_REQUEST advertises

A request carries the backlog of the sender in packets, and the receiver derives
its first credit rate from it. `recv_nack` builds its request before it rewinds
`t_seqno_`, so this one advertises the backlog from before the rewind.
-/

namespace Ns2XPass

/-- The highest value `t_seqno_` has had. -/
def highestSent (_ : AgentState) (_ : AgentAction) (s' : AgentState) (m : ℤ) : ℤ :=
  max m s'.agent.tSeqno

/-- A NACK asks for data that was sent, and a flow has data. -/
def SenderRun (s : AgentState × ℤ) : AgentAction → Prop
  | .input (.advanceBytes nb) => 0 < nb
  | .input (.recv p _) => p.ptype = .xpassNack → p.ackno < s.2
  | .tick _ | .input (.expire _ _) => True

instance (s : AgentState × ℤ) : DecidablePred (SenderRun s)
  | .input (.advanceBytes nb) => inferInstanceAs (Decidable (0 < nb))
  | .input (.recv p _) => inferInstanceAs (Decidable (p.ptype = .xpassNack → p.ackno < s.2))
  | .tick _ | .input (.expire _ _) => inferInstanceAs (Decidable True)

def senderMachine (cfg : Config) : Machine (AgentState × ℤ) AgentAction Exit :=
  ((agentMachine cfg).withHistory 1 highestSent).restrict SenderRun

instance (cfg : Config) (s : AgentState × ℤ) (x : AgentAction) :
    Decidable ((senderMachine cfg).Enabled s x) :=
  inferInstanceAs (Decidable (s.1.Enabled x ∧ SenderRun s x))

namespace XPassAgent

variable {cfg : Config} {now : ℚ} {a a' : XPassAgent} {i : Input} {out : List Effect} {m : ℤ}

/-! ## The number of packets left -/

theorem one_le_pktRemaining_iff (h : 0 ≤ a.datalenRemaining) :
    1 ≤ a.pktRemaining cfg ↔ 0 < cfg.maxSegment ∧ 0 < a.datalenRemaining := by
  have hq : (0 : ℚ) ≤ a.datalenRemaining := Int.cast_nonneg h
  rw [pktRemaining, Int.one_le_ceil_iff]
  constructor
  · intro hpos
    have hseg : (0 : ℚ) < cfg.maxSegment := by
      by_contra hn
      exact absurd (div_nonpos_of_nonneg_of_nonpos hq (not_lt.mp hn)) (not_le.mpr hpos)
    exact ⟨by exact_mod_cast hseg, by exact_mod_cast (div_pos_iff_of_pos_right hseg).mp hpos⟩
  · rintro ⟨hseg, hrem⟩
    exact div_pos (Int.cast_pos.mpr hrem) (Int.cast_pos.mpr hseg)

theorem pktRemaining_congr {b : XPassAgent} (hc : b.curseq = a.curseq) (ht : b.tSeqno = a.tSeqno) :
    b.pktRemaining cfg = a.pktRemaining cfg := by
  rw [pktRemaining, pktRemaining, datalenRemaining, datalenRemaining, hc, ht]

/-! ## The receiver of a request -/

theorem rate_pos_of_request {p : Packet} (hp : 1 ≤ p.sendbuffer)
    (hr : 40 ≤ cfg.alpha * cfg.maxCreditRate) : 0 < (a.startCredits cfg now p).curCreditRate := by
  have hp' : (1 : ℚ) ≤ p.sendbuffer := by exact_mod_cast hp
  have hle : ((1 : ℤ) : ℚ) ≤
      (if 40 ≤ p.sendbuffer then cfg.alpha else cfg.alpha * p.sendbuffer / 40) *
        cfg.maxCreditRate := by
    split_ifs
    · calc ((1 : ℤ) : ℚ) ≤ 40 := by norm_num
        _ ≤ cfg.alpha * cfg.maxCreditRate := hr
    · calc ((1 : ℤ) : ℚ) ≤ p.sendbuffer := by exact_mod_cast hp
        _ = 40 * p.sendbuffer / 40 := by ring
        _ ≤ cfg.alpha * cfg.maxCreditRate * p.sendbuffer / 40 := by gcongr
        _ = cfg.alpha * p.sendbuffer / 40 * cfg.maxCreditRate := by ring
  exact le_toInt (le_trans (by norm_num) hle) hle

theorem rate_zero_of_request {p : Packet} (hp : p.sendbuffer = 0) :
    (a.startCredits cfg now p).curCreditRate = 0 := by
  simp [startCredits, hp, toInt]

/-- Whoever accepts the request sends credits at a positive rate, a finite delay apart. -/
def StartsCredits (p : Packet) : Prop :=
  ∀ (cfg : Config) (now : ℚ) (r : Rand) (b b' : XPassAgent) (out : List Effect),
    40 ≤ cfg.alpha * cfg.maxCreditRate →
    b.creditSendState = .closed ∨ b.creditSendState = .closeWait →
    b.recvCreditRequest cfg now r p = .ok (b', out) →
    0 < b'.curCreditRate ∧ b'.creditDelay cfg ≠ ⊤ ∧ b'.sendCreditTimer.time ≠ ⊤

theorem creditDelay_ne_top (h : 0 < a.curCreditRate) : a.creditDelay cfg ≠ ⊤ := by
  rw [creditDelay, if_neg h.ne']
  exact WithTop.coe_ne_top

theorem jitteredDelay_ne_top {r : Rand} (h : 0 < a.curCreditRate) :
    a.jitteredDelay cfg r ≠ ⊤ := by
  unfold jitteredDelay
  split_ifs
  · simpa using creditDelay_ne_top h
  · exact creditDelay_ne_top h

theorem startsCredits_of_one_le {p : Packet} (hp : 1 ≤ p.sendbuffer) : StartsCredits p := by
  intro cfg now r b b' out hr hs h
  have key : ∀ b : XPassAgent, b.acceptCreditRequest cfg now r p = .ok (b', out) →
      0 < b'.curCreditRate ∧ b'.creditDelay cfg ≠ ⊤ ∧ b'.sendCreditTimer.time ≠ ⊤ := by
    intro b h
    obtain ⟨_, _, rfl⟩ := acceptCreditRequest_eq_ok h
    have hpos : 0 < (b.startCredits cfg now p).curCreditRate := rate_pos_of_request hp hr
    exact ⟨hpos, creditDelay_ne_top hpos,
      WithTop.add_ne_top.mpr ⟨WithTop.coe_ne_top, jitteredDelay_ne_top hpos⟩⟩
  unfold recvCreditRequest at h
  rcases hs with hs | hs <;> rw [hs] at h <;> exact key _ h

/-! ## The requests of a sender -/

/-- The inputs on which a CREDIT_REQUEST is sent. -/
def RequestsCredit (a : XPassAgent) : Input → Prop
  | .advanceBytes _ => True
  | .recv p _ => p.ptype = .xpassNack ∧ (a.creditRecvState = .creditStopSent ∨
      a.creditRecvState = .closeWait ∨ a.creditRecvState = .closed)
  | .expire t _ => t = .senderRetransmit ∧ (a.creditRecvState = .creditRequestSent ∨
      a.creditRecvState = .creditStopSent ∧ 0 < a.datalenRemaining)

/-- The agent from which the request is built. -/
def atRequest (a : XPassAgent) : Input → XPassAgent
  | .advanceBytes nb => { a with curseq := a.curseq + nb }
  | .recv _ _ | .expire _ _ => a

/-- Where `t_seqno_` stands when the handler that sent the request returns. -/
def tSeqnoAfterRequest (a : XPassAgent) : Input → ℤ
  | .recv p _ => p.ackno
  | .advanceBytes _ | .expire _ _ => a.tSeqno

theorem Move.request (hm : Move cfg now a i a' out) (hi : a.RequestsCredit i) :
    out = [.send ((a.atRequest i).creditRequestPacket cfg now)] ∧
      a'.curseq = (a.atRequest i).curseq ∧ a'.tSeqno = a.tSeqnoAfterRequest i := by
  cases hm with
  | sender hm =>
    cases hm with
    | advance | reopen | retry => exact ⟨rfl, rfl, rfl⟩
    | answerCredit hp | wasteCredit hp => simp [hp, RequestsCredit] at hi
    | rewind _ hs => rcases hs with hs | hs <;> simp [hs, RequestsCredit] at hi
    | stop => simp [RequestsCredit] at hi
    | linger _ hs hrem =>
      obtain ⟨_, hi | ⟨_, hi⟩⟩ := hi
      · simp [hs] at hi
      · omega
    | close _ hs | restop _ hs | unused _ hs => simp [hs, RequestsCredit] at hi
  | receiver hm =>
    cases hm with
    | acceptRequest hp | ignoreRequest hp | firstGap hp | laterGap hp | nextData hp | oldData hp
      | stopCredits hp => simp [hp, RequestsCredit] at hi
    | credit | renack | settled | record => simp [RequestsCredit] at hi
  | unknown hp hi' => subst hi'; simp [hp, RequestsCredit] at hi

theorem Move.not_request (hm : Move cfg now a i a' out) (hi : ¬ a.RequestsCredit i) {p : Packet}
    (hp : .send p ∈ out) : p.ptype ≠ .xpassCreditRequest := by
  cases hm with
  | sender hm =>
    cases hm with
    | advance => exact absurd trivial hi
    | reopen hn hs => exact absurd ⟨hn, hs⟩ hi
    | retry _ hs => exact absurd ⟨rfl, hs⟩ hi
    | answerCredit | stop | restop =>
      obtain rfl := Effect.send.inj (List.mem_singleton.mp hp)
      simp [dataPacket, constructCreditStop]
    | wasteCredit | rewind | linger | unused => simp at hp
    | close => simp at hp
  | receiver hm =>
    cases hm with
    | acceptRequest | firstGap | credit | renack =>
      obtain rfl := Effect.send.inj (List.mem_singleton.mp hp)
      simp [creditPacket, constructNack]
    | ignoreRequest | laterGap | nextData | oldData | stopCredits | settled => simp at hp
    | record => simp at hp
  | unknown _ _ _ hout => simp [hout] at hp

/-! ## Sequence numbers of a sender -/

/-- Everything sent belongs to the stream, and a pending request has something to send. -/
structure Outstanding (a : XPassAgent) (m : ℤ) : Prop where
  sent : a.tSeqno ≤ m
  stream : m ≤ a.curseq
  request : a.creditRecvState = .creditRequestSent → a.tSeqno < a.curseq

theorem tSeqno_add_datalen_le : a.tSeqno + a.datalen cfg ≤ a.curseq := by
  have : a.datalen cfg ≤ a.datalenRemaining := min_le_right _ _
  rw [datalenRemaining] at this
  omega

theorem Outstanding.of_le {a' : XPassAgent} (h : a.Outstanding m) (hc : a.curseq ≤ a'.curseq)
    (ht : a'.tSeqno ≤ a'.curseq)
    (hr : a'.creditRecvState = .creditRequestSent → a'.tSeqno < a'.curseq) :
    a'.Outstanding (max m a'.tSeqno) :=
  ⟨le_max_right _ _, max_le (h.stream.trans hc) ht, hr⟩

theorem afterCredit_state_ne : a.afterCredit.creditRecvState ≠ .creditRequestSent := by
  cases hs : a.creditRecvState <;> simp [afterCredit, RecvState.afterCredit, hs]

theorem Outstanding.senderMove (h : a.Outstanding m) (hm : SenderMove cfg now a i a' out)
    (hnb : ∀ nb, i = .advanceBytes nb → 0 < nb)
    (hack : ∀ p r, i = .recv p r → p.ptype = .xpassNack → p.ackno < m) :
    a'.Outstanding (max m a'.tSeqno) := by
  have hle := h.sent.trans h.stream
  cases hm with
  | @advance nb =>
    have := hnb nb rfl
    exact h.of_le (by dsimp only; omega) (by dsimp only; omega) fun _ => by dsimp only; omega
  | answerCredit _ _ _ _ hc =>
    obtain ⟨_, _, _, _, _, _, rfl⟩ := hc
    exact h.of_le le_rfl tSeqno_add_datalen_le fun hs => absurd hs afterCredit_state_ne
  | wasteCredit _ _ hc =>
    obtain ⟨_, _, _, _, _, _, rfl⟩ := hc
    exact h.of_le le_rfl hle fun hs => absurd hs afterCredit_state_ne
  | reopen hp | rewind hp =>
    have hlt := (hack _ _ rfl hp).trans_le h.stream
    exact h.of_le le_rfl hlt.le fun _ => hlt
  | retry _ hs =>
    refine h.of_le le_rfl hle fun _ => ?_
    rcases hs with hs | ⟨_, hs⟩
    · exact h.request hs
    · exact sub_pos.mp hs
  | stop | linger | close | restop => exact h.of_le le_rfl hle (by simp)
  | unused _ hs => exact h.of_le le_rfl hle (by simp [hs])

theorem Outstanding.move (h : a.Outstanding m) (hm : Move cfg now a i a' out)
    (hnb : ∀ nb, i = .advanceBytes nb → 0 < nb)
    (hack : ∀ p r, i = .recv p r → p.ptype = .xpassNack → p.ackno < m) :
    a'.Outstanding (max m a'.tSeqno) := by
  cases hm with
  | sender hm => exact h.senderMove hm hnb hack
  | receiver hm =>
    have hf := hm.frame
    apply h.of_le hf.curseq.ge
    · rw [hf.tSeqno, hf.curseq]; exact h.sent.trans h.stream
    · rw [hf.tSeqno, hf.curseq, hf.creditRecvState]; exact h.request
  | unknown _ _ ha =>
    subst ha
    rw [max_eq_left h.sent]
    exact h

/-- After the input, there is something to send. -/
theorem Outstanding.tSeqnoAfterRequest_lt (h : a.Outstanding m) (hi : a.RequestsCredit i)
    (hnb : ∀ nb, i = .advanceBytes nb → 0 < nb)
    (hack : ∀ p r, i = .recv p r → p.ptype = .xpassNack → p.ackno < m) :
    a.tSeqnoAfterRequest i < (a.atRequest i).curseq := by
  cases i with
  | advanceBytes nb =>
    have := hnb nb rfl
    have := h.sent.trans h.stream
    simp only [tSeqnoAfterRequest, atRequest]
    omega
  | recv p r => exact (hack p r rfl hi.1).trans_le h.stream
  | expire t r =>
    rcases hi.2 with hs | ⟨_, hs⟩
    · exact h.request hs
    · exact sub_pos.mp hs

/-! ## What a request advertises -/

/-- The request advertises what the agent `a'` that sent it is going to send. -/
structure Advertises (cfg : Config) (a' : XPassAgent) (p : Packet) : Prop where
  backlog : p.sendbuffer = a'.pktRemaining cfg
  pos : 1 ≤ p.sendbuffer
  starts : StartsCredits p

/-- If a request is sent, segments have a positive length and a rewind does not change the
number of packets left. -/
def KeepsBacklog (cfg : Config) (a : XPassAgent) (i : Input) : Prop :=
  a.RequestsCredit i → 0 < cfg.maxSegment ∧
    { a.atRequest i with tSeqno := a.tSeqnoAfterRequest i }.pktRemaining cfg =
      (a.atRequest i).pktRemaining cfg

end XPassAgent

open XPassAgent

theorem outstanding_invariant (cfg : Config) :
    (senderMachine cfg).Invariant fun s => s.1.agent.Outstanding s.2 where
  init s hi := by
    obtain ⟨hi, hm⟩ := hi
    rw [hi, hm]
    exact ⟨le_rfl, le_rfl, by simp⟩
  step s x s' h he hs := by
    obtain ⟨hs, hm⟩ := (Machine.withHistory_step_iff 1).mp hs
    rw [hm, highestSent]
    cases x with
    | tick t =>
      have ha : s'.1.agent = s.1.agent := by rw [← Except.ok.inj hs]
      rw [ha, max_eq_left h.sent]
      exact h
    | input i =>
      obtain ⟨_, hr, _⟩ := AgentState.step_input_iff.mp hs
      refine h.move (react_move hr) (fun nb hn => ?_) fun p r hn => ?_ <;> subst hn
      exacts [he.2, he.2]

end Ns2XPass
