import Mathlib.Algebra.Order.Floor.Ring
import Mathlib.Data.Rat.Floor
import Ns2XPass.Common.Numeric
import Ns2XPass.Library.Machine

/-! # The congestion window of TCP-like DCCP

Slow start hands the acknowledgements that it does not use to congestion
avoidance, and the ratio of acknowledgements is held between bounds that the
window sets. A reset takes the ratio as it is: the bounds hold in every run if
and only if the initial window is at least three.

The window and what is counted in it are taken as unbounded; the ratio has 16 bits.
-/

namespace Ns2XPass

/-- The value of a 16-bit unsigned variable. -/
def u16 (x : ℤ) : ℤ := x % 2 ^ 16

theorem u16_nonneg (x : ℤ) : 0 ≤ u16 x := Int.emod_nonneg _ (by norm_num)

theorem u16_lt (x : ℤ) : u16 x < 2 ^ 16 := Int.emod_lt_of_pos _ (by norm_num)

theorem u16_of_lt {x : ℤ} (h : 0 ≤ x) (hx : x < 2 ^ 16) : u16 x = x := Int.emod_eq_of_lt h hx

/-- The variables of an agent that its user sets. -/
structure TcpLikeSettings where
  initialCwnd : ℤ
  cwndTimeout : ℤ
  initialSsthresh : ℤ
  initialRto : ℚ
  cwnd_pos : 1 ≤ initialCwnd
  timeout_pos : 1 ≤ cwndTimeout
  ssthresh_pos : 1 ≤ initialSsthresh

structure TcpLike where
  cwnd : ℤ
  cwndFrac : ℤ
  ssthresh : ℤ
  pipe : ℤ
  rto : ℚ
  recvAckRatio : ℤ
  ackRatioRemote : ℤ
  numAckInWin : ℤ
  numWinAcked : ℤ
  skipAckLoss : Bool
  seqNum : ℤ
  seqNumRecv : ℤ
  ackNum : ℤ
  seqWinStart : ℤ
  seqPipeStart : ℤ
  ackWinStart : ℤ
  sendAck : Bool
  unacked : ℤ

namespace TcpLike

/-- `DCCP_FEAT_DEF_ACK_RATIO` -/
def defAckRatio : ℤ := 2

def reset (cfg : TcpLikeSettings) : TcpLike where
  cwnd := cfg.initialCwnd
  cwndFrac := 0
  ssthresh := cfg.initialSsthresh
  pipe := 0
  rto := cfg.initialRto
  recvAckRatio := u16 defAckRatio
  ackRatioRemote := defAckRatio
  numAckInWin := 0
  numWinAcked := 0
  skipAckLoss := false
  seqNum := 0
  seqNumRecv := 0
  ackNum := 0
  seqWinStart := 0
  seqPipeStart := 0
  ackWinStart := 0
  sendAck := false
  unacked := 0

/-- Half of the window, rounded up. -/
def halfCwnd (p : TcpLike) : ℤ :=
  if 0 < p.cwnd.tmod 2 then p.cwnd.tdiv 2 + 1 else p.cwnd.tdiv 2

/-- The agent with a ratio that meets its constraints, and whether one was violated. -/
def checkAckRatio (p : TcpLike) : TcpLike × Bool :=
  let ratio := if p.halfCwnd < p.recvAckRatio then u16 p.halfCwnd else p.recvAckRatio
  if 4 ≤ p.cwnd ∧ ratio < 2 then ({ p with recvAckRatio := 2 }, true)
  else if ratio = 0 then ({ p with recvAckRatio := 1 }, true)
  else ({ p with recvAckRatio := ratio }, decide (p.halfCwnd < p.recvAckRatio))

/-- The other side is told of a new ratio, if the feature may be changed now. -/
def changeRemoteAckRatio (p : TcpLike) (changes : Bool) : TcpLike :=
  if p.recvAckRatio ≠ p.ackRatioRemote ∧ changes then
    { p with ackRatioRemote := p.recvAckRatio }
  else p

/-- `num_win_acked_ > ack_ratio_dec`, where a division by zero yields infinity. -/
def decreases (cwnd ratio wins : ℤ) : Bool :=
  let product := wrap32 (ratio * (ratio - 1))
  product ≠ 0 && ((cwnd : ℚ) / product < wins)

def updateAckRatio (p : TcpLike) (numAck : ℤ) : TcpLike :=
  if p.recvAckRatio = 1 then { p with numAckInWin := 0, numWinAcked := 0 }
  else if 0 < numAck ∧ p.cwnd ≤ p.numAckInWin + numAck then
    let p := { p with
      numWinAcked := p.numWinAcked + 1
      numAckInWin := p.numAckInWin + numAck - p.cwnd }
    if decreases p.cwnd p.recvAckRatio p.numWinAcked then
      { ({ p with recvAckRatio := u16 (p.recvAckRatio - 1) }.checkAckRatio).1 with
        numWinAcked := 0 }
    else p
  else { p with numAckInWin := p.numAckInWin + numAck }

def lostOrMarkedAck (p : TcpLike) : TcpLike :=
  ({ p with
    ackWinStart := p.seqNum
    numWinAcked := 0
    numAckInWin := 0
    skipAckLoss := true
    recvAckRatio := u16 (p.recvAckRatio * 2) }.checkAckRatio).1

/-- An acknowledgement of an acknowledgement is sent to a sender that is quiescent. -/
def ackOfAck (p : TcpLike) (quiescent : Bool) : TcpLike :=
  if quiescent then { p with sendAck := true, ackNum := p.seqNumRecv } else p

/-- The first half of `updateCwnd`, with the acknowledgements it leaves. -/
def slowStart (p : TcpLike) (numIncCwnd : ℤ) (quiescent : Bool) : TcpLike × ℤ :=
  if p.cwnd < p.ssthresh then
    let inc := if p.ackRatioRemote < numIncCwnd then p.ackRatioRemote else numIncCwnd
    if p.cwnd + inc < p.ssthresh then ({ p with cwnd := p.cwnd + inc }, 0)
    else
      ({ p with cwnd := p.ssthresh, cwndFrac := 0 }.ackOfAck quiescent,
        numIncCwnd - inc + (p.cwnd + inc - p.ssthresh))
  else (p, numIncCwnd)

/-- The loop of congestion avoidance, or `none` if it goes on after `fuel` rounds. -/
def raise : ℕ → ℤ → ℤ → Option (ℤ × ℤ)
  | 0, cwnd, frac => if cwnd ≤ frac then none else some (cwnd, frac)
  | fuel + 1, cwnd, frac =>
    if cwnd ≤ frac then raise fuel (cwnd + 1) (frac - cwnd) else some (cwnd, frac)

/-- The second half of `updateCwnd`. A round of its loop takes the window off the
fraction, so the fraction bounds the rounds unless the window is not positive. -/
def congestionAvoidance (p : TcpLike) (oldCwnd numIncCwnd : ℤ) (quiescent : Bool) :
    Option TcpLike :=
  if 0 < numIncCwnd ∧ p.ssthresh ≤ p.cwnd then
    (raise (p.cwndFrac + numIncCwnd).toNat p.cwnd (p.cwndFrac + numIncCwnd)).map fun r =>
      let p := { p with cwnd := r.1, cwndFrac := r.2 }
      if p.cwnd ≠ oldCwnd then p.ackOfAck quiescent else p
  else some p

def updateCwnd (p : TcpLike) (numIncCwnd : ℤ) (quiescent : Bool) : Option TcpLike :=
  let s := p.slowStart numIncCwnd quiescent
  (s.1.congestionAvoidance p.cwnd s.2 quiescent).map fun s =>
    if p.cwnd < s.cwnd then s.checkAckRatio.1 else s

def lostOrMarkedData (p : TcpLike) : TcpLike := { p with
  cwnd := if 2 ≤ p.cwnd then p.cwnd.tdiv 2 else p.cwnd
  cwndFrac := 0
  ssthresh := if 2 ≤ p.cwnd then p.cwnd.tdiv 2 else p.cwnd
  seqWinStart := p.seqNum }

/-- What `send_packetRecv` does about a lost or marked data packet. -/
def dataLost (p : TcpLike) (quiescent : Bool) : TcpLike :=
  let r := { p.lostOrMarkedData with numAckInWin := 0 }.checkAckRatio
  let p := if r.2 then { r.1 with numWinAcked := 0, ackWinStart := r.1.seqNum } else r.1
  p.ackOfAck quiescent

/-- The timeout timer expires; what is sent then is left to `traffic`. -/
def timeoutTo (p : TcpLike) (cfg : TcpLikeSettings) (changes : Bool) : TcpLike :=
  let p := { p with
    ssthresh := if p.cwnd.tdiv 2 = 0 then 1 else p.cwnd.tdiv 2
    cwnd := cfg.cwndTimeout
    pipe := 0
    seqPipeStart := p.seqNum
    seqWinStart := p.seqNum
    cwndFrac := 0
    numAckInWin := 0
    numWinAcked := 0
    ackWinStart := p.seqNum
    recvAckRatio := 1 }
  let p := p.checkAckRatio.1.changeRemoteAckRatio changes
  { p with rto := p.rto * 2 }

/-- The timer of delayed acknowledgements expires. -/
def timeoutDack (p : TcpLike) : TcpLike :=
  { p with sendAck := true, ackNum := p.seqNumRecv, unacked := 0 }

/-- What packets that are sent and received change beside the window. -/
structure Traffic where
  pipe : ℤ
  rto : ℚ
  skipAckLoss : Bool
  seqNum : ℤ
  seqNumRecv : ℤ
  ackNum : ℤ
  sendAck : Bool
  unacked : ℤ

def traffic (p : TcpLike) (t : Traffic) : TcpLike := { p with
  pipe := t.pipe
  rto := t.rto
  skipAckLoss := t.skipAckLoss
  seqNum := t.seqNum
  seqNumRecv := t.seqNumRecv
  ackNum := t.ackNum
  sendAck := t.sendAck
  unacked := t.unacked }

/-! ### What each operation keeps -/

/-- The ratio is positive, at most half of the window and at least two for larger windows. -/
structure RatioFits (p : TcpLike) : Prop where
  ratio_pos : 1 ≤ p.recvAckRatio
  ratio_le : p.recvAckRatio ≤ (p.cwnd + 1) / 2
  two_le : 4 ≤ p.cwnd → 2 ≤ p.recvAckRatio

structure Windowed (p : TcpLike) : Prop extends RatioFits p where
  cwnd_pos : 1 ≤ p.cwnd
  ssthresh_pos : 1 ≤ p.ssthresh
  frac_nonneg : 0 ≤ p.cwndFrac
  frac_lt : p.cwndFrac < p.cwnd

/-- The ratios are values of 16-bit variables. -/
structure Ranged (p : TcpLike) : Prop where
  ratio_nonneg : 0 ≤ p.recvAckRatio
  ratio_lt : p.recvAckRatio < 2 ^ 16
  remote_nonneg : 0 ≤ p.ackRatioRemote

variable {p p' : TcpLike} {cfg : TcpLikeSettings} {num old : ℤ} {quiescent changes : Bool}

theorem halfCwnd_eq (h : 1 ≤ p.cwnd) : p.halfCwnd = (p.cwnd + 1) / 2 := by
  unfold halfCwnd
  rw [Int.tmod_eq_emod_of_nonneg (by omega), Int.tdiv_eq_ediv_of_nonneg (by omega)]
  split <;> omega

theorem checkAckRatio_frame (p : TcpLike) :
    p.checkAckRatio.1 = { p with recvAckRatio := p.checkAckRatio.1.recvAckRatio } := by
  unfold checkAckRatio
  dsimp only
  split_ifs <;> rfl

theorem checkAckRatio_fits (hc : 1 ≤ p.cwnd) (h : p.Ranged) :
    p.checkAckRatio.1.RatioFits ∧ p.checkAckRatio.1.Ranged := by
  have hpos := h.ratio_nonneg
  have hlt := h.ratio_lt
  have hratio : ∃ r, (if p.halfCwnd < p.recvAckRatio then u16 p.halfCwnd else p.recvAckRatio) = r ∧
      0 ≤ r ∧ r ≤ (p.cwnd + 1) / 2 ∧ r < 2 ^ 16 := by
    refine ⟨_, rfl, ?_⟩
    rw [halfCwnd_eq hc]
    split
    · rw [u16_of_lt (by omega) (by omega)]
      omega
    · omega
  obtain ⟨r, hr, h0, hle, hr16⟩ := hratio
  unfold checkAckRatio
  rw [hr]
  dsimp only
  split
  · exact ⟨⟨by simp, by dsimp only; omega, fun _ => le_rfl⟩, by simp, by norm_num, h.remote_nonneg⟩
  · split
    · exact ⟨⟨le_rfl, by dsimp only; omega, by dsimp only; omega⟩, by simp, by norm_num,
        h.remote_nonneg⟩
    · exact ⟨⟨by dsimp only; omega, hle, by dsimp only; omega⟩, h0, hr16, h.remote_nonneg⟩

/-- The check restores the constraints of the ratio, whatever changed them. -/
theorem checkAckRatio_windowed (h : p.Ranged) (hc : 1 ≤ p.cwnd) (hs : 1 ≤ p.ssthresh)
    (hf : 0 ≤ p.cwndFrac) (hlt : p.cwndFrac < p.cwnd) :
    p.checkAckRatio.1.Windowed ∧ p.checkAckRatio.1.Ranged := by
  obtain ⟨hfits, hr⟩ := checkAckRatio_fits hc h
  have he := checkAckRatio_frame p
  refine ⟨⟨hfits, ?_, ?_, ?_, ?_⟩, hr⟩
  all_goals rw [he]; assumption

theorem ackOfAck_cases (p : TcpLike) (quiescent : Bool) :
    p.ackOfAck quiescent = p ∨
      p.ackOfAck quiescent = { p with sendAck := true, ackNum := p.seqNumRecv } := by
  cases quiescent
  · exact .inl rfl
  · exact .inr rfl

theorem Windowed.ackOfAck (h : p.Windowed) : (p.ackOfAck quiescent).Windowed := by
  rcases ackOfAck_cases p quiescent with he | he
  · rw [he]; exact h
  · rw [he]; exact ⟨⟨h.1.1, h.1.2, h.1.3⟩, h.2, h.3, h.4, h.5⟩

theorem Ranged.ackOfAck (h : p.Ranged) : (p.ackOfAck quiescent).Ranged := by
  rcases ackOfAck_cases p quiescent with he | he
  · rw [he]; exact h
  · rw [he]; exact ⟨h.1, h.2, h.3⟩

theorem changeRemoteAckRatio_cases (p : TcpLike) (changes : Bool) :
    p.changeRemoteAckRatio changes = p ∨
      p.changeRemoteAckRatio changes = { p with ackRatioRemote := p.recvAckRatio } := by
  unfold changeRemoteAckRatio
  split
  · exact .inr rfl
  · exact .inl rfl

theorem Windowed.changeRemoteAckRatio (changes : Bool) (h : p.Windowed) :
    (p.changeRemoteAckRatio changes).Windowed := by
  rcases changeRemoteAckRatio_cases p changes with he | he
  · rw [he]; exact h
  · rw [he]; exact ⟨⟨h.1.1, h.1.2, h.1.3⟩, h.2, h.3, h.4, h.5⟩

theorem Ranged.changeRemoteAckRatio (changes : Bool) (h : p.Ranged) :
    (p.changeRemoteAckRatio changes).Ranged := by
  rcases changeRemoteAckRatio_cases p changes with he | he
  · rw [he]; exact h
  · rw [he]; exact ⟨h.1, h.2, h.1⟩

/-! ### The two halves of `updateCwnd` -/

/-- The loop ends, and leaves a fraction below the window. -/
theorem raise_ends (fuel : ℕ) {cwnd frac : ℤ} (hc : 1 ≤ cwnd) (hf : 0 ≤ frac)
    (hfuel : frac ≤ fuel) :
    ∃ r, raise fuel cwnd frac = some r ∧ cwnd ≤ r.1 ∧ 0 ≤ r.2 ∧ r.2 < r.1 := by
  induction fuel generalizing cwnd frac with
  | zero =>
    have hlt : ¬ cwnd ≤ frac := by omega
    exact ⟨(cwnd, frac), by simp [raise, hlt], le_rfl, hf, by omega⟩
  | succ fuel ih =>
    by_cases hle : cwnd ≤ frac
    · obtain ⟨r, hr, hcr, hfr⟩ :=
        ih (show 1 ≤ cwnd + 1 by omega) (show 0 ≤ frac - cwnd by omega) (by omega)
      exact ⟨r, by simp [raise, hle, hr], by omega, hfr⟩
    · exact ⟨(cwnd, frac), by simp [raise, hle], le_rfl, hf, by omega⟩

/-- What slow start does: it raises the window by at most the ratio of the other side,
and not past the threshold. -/
structure Slow (p p' : TcpLike) (left : ℤ) : Prop where
  cwnd_le : p.cwnd ≤ p'.cwnd
  rise : p'.cwnd ≤ p.cwnd + p.ackRatioRemote
  below : p.cwnd < p.ssthresh → p'.cwnd ≤ p.ssthresh
  frac_nonneg : 0 ≤ p'.cwndFrac
  frac_lt : p'.cwndFrac < p'.cwnd
  ssthresh : p'.ssthresh = p.ssthresh
  ratio : p'.recvAckRatio = p.recvAckRatio
  remote : p'.ackRatioRemote = p.ackRatioRemote
  left_nonneg : 0 ≤ left

theorem slowStart_slow (quiescent : Bool) (h : p.Windowed) (hr : p.Ranged) (hn : 0 ≤ num) :
    Slow p (p.slowStart num quiescent).1 (p.slowStart num quiescent).2 := by
  have hf := h.frac_nonneg
  have hlt := h.frac_lt
  have hrem := hr.remote_nonneg
  unfold slowStart
  split
  · next hslow =>
    have hinc : ∃ inc, (if p.ackRatioRemote < num then p.ackRatioRemote else num) = inc ∧
        0 ≤ inc ∧ inc ≤ p.ackRatioRemote ∧ inc ≤ num := by
      refine ⟨_, rfl, ?_⟩
      split <;> omega
    obtain ⟨inc, hi, h0, hle, hnum⟩ := hinc
    rw [hi]
    dsimp only
    split
    · exact ⟨by dsimp only; omega, by dsimp only; omega, fun _ => by dsimp only; omega, hf,
        by dsimp only; omega, rfl, rfl, rfl, le_rfl⟩
    · have hs : Slow p { p with cwnd := p.ssthresh, cwndFrac := 0 }
          (num - inc + (p.cwnd + inc - p.ssthresh)) :=
        ⟨hslow.le, by dsimp only; omega, fun _ => le_rfl, le_rfl, h.ssthresh_pos, rfl, rfl, rfl,
          by omega⟩
      rcases ackOfAck_cases { p with cwnd := p.ssthresh, cwndFrac := 0 } quiescent with he | he
      · rw [he]; exact hs
      · rw [he]; exact ⟨hs.1, hs.2, hs.3, hs.4, hs.5, rfl, rfl, rfl, hs.9⟩
  · next hfast =>
    exact ⟨le_rfl, by dsimp only; omega, fun hs => absurd hs hfast, hf, hlt, rfl, rfl, rfl, hn⟩

/-- What congestion avoidance does. -/
structure Avoids (p p' : TcpLike) : Prop where
  cwnd_le : p.cwnd ≤ p'.cwnd
  frac_nonneg : 0 ≤ p'.cwndFrac
  frac_lt : p'.cwndFrac < p'.cwnd
  ssthresh : p'.ssthresh = p.ssthresh
  ratio : p'.recvAckRatio = p.recvAckRatio
  remote : p'.ackRatioRemote = p.ackRatioRemote

theorem congestionAvoidance_avoids (old num : ℤ) (quiescent : Bool) (hc : 1 ≤ p.cwnd)
    (hf : 0 ≤ p.cwndFrac) (hlt : p.cwndFrac < p.cwnd) :
    ∃ p', p.congestionAvoidance old num quiescent = some p' ∧ Avoids p p' := by
  unfold congestionAvoidance
  split
  · next hn =>
    obtain ⟨r, hr, hle, h0, hr'⟩ := raise_ends (p.cwndFrac + num).toNat hc
      (show 0 ≤ p.cwndFrac + num by omega) (by omega)
    have hs : Avoids p { p with cwnd := r.1, cwndFrac := r.2 } := ⟨hle, h0, hr', rfl, rfl, rfl⟩
    rw [hr]
    refine ⟨_, rfl, ?_⟩
    dsimp only
    split
    · rcases ackOfAck_cases { p with cwnd := r.1, cwndFrac := r.2 } quiescent with he | he
      · rw [he]; exact hs
      · rw [he]; exact ⟨hle, h0, hr', rfl, rfl, rfl⟩
    · exact hs
  · exact ⟨p, rfl, le_rfl, hf, hlt, rfl, rfl, rfl⟩

/-- The loop ends, the window does not shrink, and the ratio is checked where it grew. -/
theorem updateCwnd_grows (quiescent : Bool) (h : p.Windowed) (hr : p.Ranged) (hn : 0 ≤ num) :
    ∃ p', p.updateCwnd num quiescent = some p' ∧ p.cwnd ≤ p'.cwnd ∧ p'.Windowed ∧ p'.Ranged := by
  have hs := slowStart_slow quiescent h hr hn
  obtain ⟨s, he, ha⟩ := congestionAvoidance_avoids p.cwnd (p.slowStart num quiescent).2
    quiescent (h.cwnd_pos.trans hs.cwnd_le) hs.frac_nonneg hs.frac_lt
  have hcwnd := hs.cwnd_le.trans ha.cwnd_le
  have hthresh : 1 ≤ s.ssthresh := by
    rw [ha.ssthresh, hs.ssthresh]; exact h.ssthresh_pos
  have hratio := ha.ratio.trans hs.ratio
  have hranged : s.Ranged :=
    ⟨hratio ▸ hr.ratio_nonneg, hratio ▸ hr.ratio_lt,
      (ha.remote.trans hs.remote) ▸ hr.remote_nonneg⟩
  unfold updateCwnd
  dsimp only
  rw [he]
  refine ⟨_, rfl, ?_⟩
  dsimp only
  split
  · refine ⟨?_, checkAckRatio_windowed hranged (h.cwnd_pos.trans hcwnd) hthresh ha.frac_nonneg
      ha.frac_lt⟩
    rw [checkAckRatio_frame]
    exact hcwnd
  · next hgrew =>
    have hsame : s.cwnd = p.cwnd := by omega
    exact ⟨hcwnd, ⟨⟨hratio ▸ h.ratio_pos, hratio ▸ hsame ▸ h.ratio_le,
      fun h4 => hratio ▸ h.two_le (hsame ▸ h4)⟩, h.cwnd_pos.trans hcwnd, hthresh, ha.frac_nonneg,
      ha.frac_lt⟩, hranged⟩

/-! ### The other operations -/

theorem dataLost_windowed (h : p.Windowed) (hr : p.Ranged) :
    (p.dataLost quiescent).Windowed ∧ (p.dataLost quiescent).Ranged := by
  have hpos := h.cwnd_pos
  have hcwnd : 1 ≤ p.lostOrMarkedData.cwnd := by
    change 1 ≤ if 2 ≤ p.cwnd then p.cwnd.tdiv 2 else p.cwnd
    rw [Int.tdiv_eq_ediv_of_nonneg (by omega)]
    split <;> omega
  have hc := checkAckRatio_windowed (p := { p.lostOrMarkedData with numAckInWin := 0 })
    ⟨hr.1, hr.2, hr.3⟩ hcwnd hcwnd le_rfl hcwnd
  unfold dataLost
  dsimp only
  split
  · have hw := hc.1
    exact ⟨Windowed.ackOfAck ⟨⟨hw.1.1, hw.1.2, hw.1.3⟩, hw.2, hw.3, hw.4, hw.5⟩,
      Ranged.ackOfAck ⟨hc.2.1, hc.2.2, hc.2.3⟩⟩
  · exact ⟨hc.1.ackOfAck, hc.2.ackOfAck⟩

theorem lostOrMarkedAck_windowed (h : p.Windowed) (hr : p.Ranged) :
    p.lostOrMarkedAck.Windowed ∧ p.lostOrMarkedAck.Ranged :=
  checkAckRatio_windowed ⟨u16_nonneg _, u16_lt _, hr.remote_nonneg⟩ h.cwnd_pos h.ssthresh_pos
    h.frac_nonneg h.frac_lt

theorem updateAckRatio_windowed (h : p.Windowed) (hr : p.Ranged) :
    (p.updateAckRatio num).Windowed ∧ (p.updateAckRatio num).Ranged := by
  have hsame : ∀ a b, ({ p with numAckInWin := a, numWinAcked := b } : TcpLike).Windowed ∧
      ({ p with numAckInWin := a, numWinAcked := b } : TcpLike).Ranged := fun a b =>
    ⟨⟨⟨h.1.1, h.1.2, h.1.3⟩, h.2, h.3, h.4, h.5⟩, ⟨hr.1, hr.2, hr.3⟩⟩
  unfold updateAckRatio
  split
  · exact hsame 0 0
  split
  · dsimp only
    split
    · obtain ⟨hw, hu⟩ := checkAckRatio_windowed (p := { p with
          numWinAcked := p.numWinAcked + 1
          numAckInWin := p.numAckInWin + num - p.cwnd
          recvAckRatio := u16 (p.recvAckRatio - 1) })
        ⟨u16_nonneg _, u16_lt _, hr.remote_nonneg⟩ h.cwnd_pos h.ssthresh_pos h.frac_nonneg
        h.frac_lt
      exact ⟨⟨⟨hw.1.1, hw.1.2, hw.1.3⟩, hw.2, hw.3, hw.4, hw.5⟩, ⟨hu.1, hu.2, hu.3⟩⟩
    · exact hsame _ _
  · exact hsame _ p.numWinAcked

theorem timeoutTo_windowed (h : p.Windowed) (hr : p.Ranged) :
    (p.timeoutTo cfg changes).Windowed ∧ (p.timeoutTo cfg changes).Ranged := by
  have hpos := h.cwnd_pos
  have hthresh : 1 ≤ if p.cwnd.tdiv 2 = 0 then 1 else p.cwnd.tdiv 2 := by
    rw [Int.tdiv_eq_ediv_of_nonneg (by omega)]
    split <;> omega
  have hc := checkAckRatio_windowed (p := { p with
      ssthresh := if p.cwnd.tdiv 2 = 0 then 1 else p.cwnd.tdiv 2
      cwnd := cfg.cwndTimeout
      pipe := 0
      seqPipeStart := p.seqNum
      seqWinStart := p.seqNum
      cwndFrac := 0
      numAckInWin := 0
      numWinAcked := 0
      ackWinStart := p.seqNum
      recvAckRatio := 1 })
    ⟨by norm_num, by norm_num, hr.remote_nonneg⟩ cfg.timeout_pos hthresh le_rfl cfg.timeout_pos
  have hw := hc.1.changeRemoteAckRatio changes
  have hu := hc.2.changeRemoteAckRatio changes
  exact ⟨⟨⟨hw.1.1, hw.1.2, hw.1.3⟩, hw.2, hw.3, hw.4, hw.5⟩, ⟨hu.1, hu.2, hu.3⟩⟩

end TcpLike

/-! ### Runs -/

inductive WindowCall
  | reset
  | updateCwnd (numIncCwnd : ℤ) (quiescent : Bool)
  | dataLost (quiescent : Bool)
  | lostOrMarkedAck
  | updateAckRatio (numAck : ℤ)
  | changeRemoteAckRatio (changes : Bool)
  | negotiated (ratio : ℤ)
  | timeoutTo (changes : Bool)
  | timeoutDack
  | traffic (t : TcpLike.Traffic)

namespace WindowCall

/-- The numbers of packets that are counted are not negative. -/
def Sensible : WindowCall → Prop
  | updateCwnd num _ | updateAckRatio num => 0 ≤ num
  | reset | dataLost _ | lostOrMarkedAck | changeRemoteAckRatio _ | negotiated _ | timeoutTo _
  | timeoutDack | traffic _ => True

instance : DecidablePred Sensible
  | updateCwnd num _ | updateAckRatio num => inferInstanceAs (Decidable (0 ≤ num))
  | reset | dataLost _ | lostOrMarkedAck | changeRemoteAckRatio _ | negotiated _ | timeoutTo _
  | timeoutDack | traffic _ => isTrue trivial

/-- A call, or `none` if it does not return. -/
def apply (cfg : TcpLikeSettings) (p : TcpLike) : WindowCall → Option TcpLike
  | reset => some (.reset cfg)
  | updateCwnd num quiescent => p.updateCwnd num quiescent
  | dataLost quiescent => some (p.dataLost quiescent)
  | lostOrMarkedAck => some p.lostOrMarkedAck
  | updateAckRatio num => some (p.updateAckRatio num)
  | changeRemoteAckRatio changes => some (p.changeRemoteAckRatio changes)
  | negotiated ratio => some { p with ackRatioRemote := u16 ratio }
  | timeoutTo changes => some (p.timeoutTo cfg changes)
  | timeoutDack => some p.timeoutDack
  | traffic t => some (p.traffic t)

end WindowCall

open TcpLike

variable {cfg : TcpLikeSettings} {p p' : TcpLike}

/-- The calls that change the window, in any order, beside the other packets of an agent. -/
def windowCalls (cfg : TcpLikeSettings) : Machine TcpLike WindowCall Unit where
  Init p := p = .reset cfg
  Enabled _ c := c.Sensible
  step p c := (c.apply cfg p).elim (.error ()) .ok

instance (p : TcpLike) (c : WindowCall) : Decidable ((windowCalls cfg).Enabled p c) :=
  inferInstanceAs (Decidable c.Sensible)

theorem ranged_reset : (TcpLike.reset cfg).Ranged :=
  ⟨u16_nonneg _, u16_lt _, show (0 : ℤ) ≤ 2 by norm_num⟩

/-- The ratio of a reset is two: it fits a window of three packets and more. -/
theorem windowed_reset_iff : (TcpLike.reset cfg).Windowed ↔ 3 ≤ cfg.initialCwnd := by
  have hpos := cfg.cwnd_pos
  constructor
  · intro h
    have hle : (2 : ℤ) ≤ (cfg.initialCwnd + 1) / 2 := h.ratio_le
    omega
  · intro h
    refine ⟨⟨?_, ?_, fun _ => ?_⟩, cfg.cwnd_pos, cfg.ssthresh_pos, le_rfl, hpos⟩
    · change (1 : ℤ) ≤ 2; norm_num
    · change (2 : ℤ) ≤ (cfg.initialCwnd + 1) / 2; omega
    · change (2 : ℤ) ≤ 2; rfl

theorem WindowCall.apply_windowed (hc : 3 ≤ cfg.initialCwnd) {c : WindowCall} (hs : c.Sensible)
    (h : p.Windowed ∧ p.Ranged) : ∃ p', c.apply cfg p = some p' ∧ p'.Windowed ∧ p'.Ranged := by
  obtain ⟨h, hr⟩ := h
  cases c with
  | reset => exact ⟨_, rfl, windowed_reset_iff.mpr hc, ranged_reset⟩
  | updateCwnd num quiescent =>
    obtain ⟨p', he, _, hw⟩ := updateCwnd_grows quiescent h hr hs
    exact ⟨p', he, hw⟩
  | dataLost quiescent => exact ⟨_, rfl, dataLost_windowed h hr⟩
  | lostOrMarkedAck => exact ⟨_, rfl, lostOrMarkedAck_windowed h hr⟩
  | updateAckRatio num => exact ⟨_, rfl, updateAckRatio_windowed h hr⟩
  | changeRemoteAckRatio changes =>
    exact ⟨_, rfl, h.changeRemoteAckRatio changes, hr.changeRemoteAckRatio changes⟩
  | negotiated ratio =>
    exact ⟨_, rfl, ⟨⟨h.1.1, h.1.2, h.1.3⟩, h.2, h.3, h.4, h.5⟩, hr.1, hr.2, u16_nonneg _⟩
  | timeoutTo changes => exact ⟨_, rfl, timeoutTo_windowed h hr⟩
  | timeoutDack | traffic t =>
    exact ⟨_, rfl, ⟨⟨h.1.1, h.1.2, h.1.3⟩, h.2, h.3, h.4, h.5⟩, hr.1, hr.2, hr.3⟩

theorem windowCalls_invariant (hc : 3 ≤ cfg.initialCwnd) :
    (windowCalls cfg).Invariant fun p => p.Windowed ∧ p.Ranged where
  init := by
    rintro _ rfl
    exact ⟨windowed_reset_iff.mpr hc, ranged_reset⟩
  step := by
    intro p c p' h hs hstep
    obtain ⟨p₁, he, hw⟩ := WindowCall.apply_windowed hc hs h
    simp only [windowCalls, he, Option.elim, Except.ok.injEq] at hstep
    exact hstep ▸ hw

/-- The settings of a user who asks for an initial window of one packet. -/
def onePacket : TcpLikeSettings where
  initialCwnd := 1
  cwndTimeout := 1
  initialSsthresh := 65535
  initialRto := 3
  cwnd_pos := by decide
  timeout_pos := by decide
  ssthresh_pos := by decide

end Ns2XPass
