import Mathlib.Algebra.Order.Archimedean.Basic
import Mathlib.Tactic.IntervalCases
import Ns2XPass.Dccp.ConnectionMoves

/-! # The timers of a DCCP agent in its runs

A state that waits for an answer has its retransmission timer running, except
where the delays have added up to the greatest total without a failure. An agent
that gets no answer gives up when the total is reached.
-/

namespace Ns2XPass

namespace DccpControl

open Relation RetransmitTimer

variable {cfg : DccpConfig} {c c' : DccpControl}

/-- The timers of a connection stand as its state says. -/
structure Timed (cfg : DccpConfig) (c : DccpControl) : Prop where
  pending : c.timerRtx.pending = true → c.state.waits = true
  respond : c.state = .respond → c.timerRtx.pending = true
  backsOff : c.state.backsOff = true → c.timerRtx.Armed cfg
  snd : c.timerSnd = true → c.state = .open
  server : c.server = true →
    c.state = .listen ∨ c.state = .respond ∨ c.state = .open ∨ c.state = .closeReq
  abort : c.abort ≠ some .timerRunning

theorem Enters.backsOff {state : DccpState} (h : c.Enters state) : state.backsOff = true := by
  cases h <;> rfl

/-- The role of an agent fits the state that it enters. -/
theorem Timed.server_of_enters (ht : c.Timed cfg) {state : DccpState} (h : c.Enters state)
    (hv : c.server = true) : state = .closeReq := by
  have hs := ht.server hv
  cases h with
  | request hc => simp [hc] at hs
  | closeReq _ => rfl
  | closing hc =>
    rcases hc with ⟨-, hf⟩ | hc
    · simp [hf] at hv
    · simp [hc] at hs

theorem Timed.move (hpos : 0 < cfg.initialRtxTo) (hmax : cfg.initialRtxTo ≤ cfg.maxRtxTo)
    (ht : c.Timed cfg) (hm : Move cfg c c') : c'.Timed cfg := by
  have hrefresh {t : RetransmitTimer} (hb : c.state.backsOff = true) (ha : t.Armed cfg) :
      Timed cfg { c with timerRtx := t } := by
    refine { ht with pending := fun _ => ?_, respond := fun hr => ?_, backsOff := fun _ => ha }
    · exact DccpState.waits_of_backsOff hb
    · rw [show c.state = .respond from hr] at hb
      cases hb
  cases hm with
  | quiet hsnd habort =>
    refine { ht with snd := fun h => ?_, abort := ?_ }
    · rcases hsnd h with h | h
      · exact ht.snd h
      · exact h
    · rcases habort with rfl | rfl
      · exact ht.abort
      · simp
  | again hb => exact hrefresh hb ((ht.backsOff hb).backOff hpos hmax)
  | retry hb hf => exact hrefresh hb (((ht.backsOff hb).runs.forceCancel).armed_backOff hpos hf)
  | @enter state he =>
    have hb := he.backsOff
    refine ⟨fun _ => DccpState.waits_of_backsOff hb, fun h => ?_,
      fun _ => (armed_first hpos hmax).2, by simp,
      fun hv => .inr (.inr (.inr (ht.server_of_enters he hv))), ht.abort⟩
    rw [show state = .respond from h] at hb
    cases hb
  | establish hs =>
    refine ⟨by simp [forceCancel], by simp, by simp [DccpState.backsOff], fun _ => rfl, ?_,
      ht.abort⟩
    exact fun _ => .inr (.inr (.inl rfl))
  | reset =>
    unfold DccpControl.reset
    refine ⟨by simp [forceCancel], fun h => ?_, fun h => ?_, by simp, by simp, ht.abort⟩
    · dsimp only at h
      split at h <;> cases h
    · dsimp only at h
      split at h <;> cases h
  | leave _ =>
    exact ⟨by simp [forceCancel], by simp, by simp [DccpState.backsOff], by simp, by simp, ht.abort⟩
  | rtxFault hp hw =>
    rw [ht.pending hp] at hw
    cases hw
  | sndFault hp ho => exact absurd (ht.snd hp) ho

theorem Timed.moves (hpos : 0 < cfg.initialRtxTo) (hmax : cfg.initialRtxTo ≤ cfg.maxRtxTo)
    (ht : c.Timed cfg) (hm : ReflTransGen (Move cfg) c c') : c'.Timed cfg := by
  induction hm with
  | refl => exact ht
  | tail _ hm ih => exact ih.move hpos hmax hm

theorem Timed.listen (ht : c.Timed cfg) (hs : c.state = .closed) : c.listen.Timed cfg := by
  refine ⟨fun h => ?_, by simp [DccpControl.listen],
    by simp [DccpControl.listen, DccpState.backsOff], fun h => ?_, fun _ => .inl rfl, ht.abort⟩
  · have hw := ht.pending h
    rw [hs] at hw
    cases hw
  · have ho := ht.snd h
    rw [hs] at ho
    cases ho

theorem Timed.accept (ht : c.Timed cfg) (hs : c.state = .listen) : c.accept.Timed cfg := by
  refine ⟨fun _ => rfl, fun _ => rfl, by simp [DccpControl.accept, DccpState.backsOff], fun h => ?_,
    fun _ => .inr (.inl rfl), ht.abort⟩
  have ho := ht.snd h
  rw [hs] at ho
  cases ho

end DccpControl

namespace DccpAgent

open RetransmitTimer

variable {cfg : DccpConfig} {s : DccpAgent}

theorem timed_invariant (hpos : 0 < cfg.initialRtxTo) (hmax : cfg.initialRtxTo ≤ cfg.maxRtxTo) :
    (dccpMachine cfg).Invariant fun s => s.control.Timed cfg where
  init s hi := by
    obtain rfl := hi
    exact ⟨by simp [control, new], by simp [control, new],
      by simp [control, new, DccpState.backsOff], by simp [control, new], by simp [control, new],
      by simp [control, new]⟩
  step s x s' ht he hs := by
    rcases step_cases he hs with (hm | ⟨hl, hc⟩) | ⟨-, hcl, hc⟩
    · exact ht.moves hpos hmax hm
    · rw [hc]
      exact ht.accept hl
    · rw [hc]
      exact ht.listen hcl

instance {cfg : DccpConfig} (s : DccpAgent) : ∀ x, Decidable ((dccpMachine cfg).Enabled s x)
  | .listen => inferInstanceAs (Decidable (_ ∧ True))
  | .sendmsg _ _ => inferInstanceAs (Decidable (_ ∧ True))
  | .advanceby _ => inferInstanceAs (Decidable (_ ∧ True))
  | .close => inferInstanceAs (Decidable (_ ∧ True))
  | .recv _ _ => inferInstanceAs (Decidable (_ ∧ s.frames = []))
  | .timeoutRtx => inferInstanceAs (Decidable (_ ∧ s.frames = [] ∧ s.timerRtx.pending = true))
  | .timeoutSnd => inferInstanceAs (Decidable (_ ∧ s.frames = [] ∧ s.timerSnd = true))
  | .callbackReturns => inferInstanceAs (Decidable (_ ∧ s.frames ≠ []))

/-- The values of `ns-default.tcl`. -/
def defaults : DccpConfig where
  initialRtxTo := 3
  maxRtxTo := 75
  sndDelay := 1 / 10000
  sbSize := 1000
  packetSize := 500
  ackRatio := 2

/-- The first message of an application opens a connection. -/
def opened (cfg : DccpConfig) : DccpAgent := (DccpAgent.new cfg).sendmsg cfg 1 false

theorem opened_eq (cfg : DccpConfig) : ∃ sb, opened cfg =
    ({ DccpAgent.new cfg with sb := sb }.changeState cfg .request).output cfg false := by
  refine ⟨[1], ?_⟩
  simp [opened, sendmsg, new, connected, capacity, sendData]

theorem opened_reachable (cfg : DccpConfig) : (dccpMachine cfg).Reachable (opened cfg) :=
  .step (x := .sendmsg 1 false) (.init rfl) ⟨rfl, trivial⟩ rfl

/-- The retransmission timer expires a number of times, and nothing else happens. -/
def expiries (cfg : DccpConfig) (i : ℕ) (s : DccpAgent) : DccpAgent := (timeoutRtx cfg)^[i] s

theorem expiries_succ (i : ℕ) : expiries cfg (i + 1) s = (expiries cfg i s).timeoutRtx cfg :=
  Function.iterate_succ_apply' (timeoutRtx cfg) i s

theorem expiries_succ' (i : ℕ) : expiries cfg (i + 1) s = expiries cfg i (s.timeoutRtx cfg) :=
  Function.iterate_succ_apply (timeoutRtx cfg) i s

/-- The packet of the state is sent again. -/
theorem timeoutRtx_retry (cfg : DccpConfig) (hb : s.state.backsOff = true)
    (hf : s.timerRtx.backoffFailed = false) :
    s.timeoutRtx cfg = { s with
      packetSent := s.packetSent || s.state = .request || s.state = .respond
      timerRtx := s.timerRtx.forceCancel.backOff
      seqNum := s.seqNum + 1
      sent := s.sent ++ [s.state.packet] } := by
  have hne : s.state ≠ .open := by
    rintro ho
    rw [ho] at hb
    cases hb
  have hout : s.timeoutRtx cfg =
      { s with timerRtx := s.timerRtx.forceCancel }.output cfg false := by
    obtain ⟨state, _⟩ := s
    cases state <;> simp_all [timeoutRtx, retry, forceCancel, DccpState.backsOff]
  rw [hout, output_of_ne_open]
  · simp only [hb, if_true]
  · exact hne

/-- No answer has come, and the agent gives up. -/
theorem timeoutRtx_last (h : s.state = .respond ∨
    s.state.backsOff = true ∧ s.timerRtx.backoffFailed = true) :
    (s.timeoutRtx cfg).state = (if s.server then .listen else .closed) ∧
      (s.timeoutRtx cfg).sent = s.sent ++ if s.state = .closing then [] else [.reset] := by
  obtain ⟨state, server, _⟩ := s
  cases state <;> cases server <;>
    simp_all [timeoutRtx, retry, forceCancel, DccpState.backsOff, sendReset, reset, changeState,
      cancelTimers]

/-- The agent has sent the packet of its state again, and waits. -/
structure Unanswered (cfg : DccpConfig) (s s' : DccpAgent) (i : ℕ) : Prop where
  state : s'.state = s.state
  server : s'.server = s.server
  sent : s'.sent = s.sent ++ List.replicate i s.state.packet
  enabled : (dccpMachine cfg).Enabled s' .timeoutRtx

/-- The course of events when no answer comes: some retransmissions, and the agent gives up. -/
structure GivesUp (cfg : DccpConfig) (s : DccpAgent) (n : ℕ) : Prop where
  few : cfg.initialRtxTo * (2 ^ n - 1) ≤ cfg.maxRtxTo
  retries : ∀ i ≤ n, Unanswered cfg s (expiries cfg i s) i
  total : s.state.backsOff = true → (expiries cfg n s).timerRtx.totDelay = cfg.maxRtxTo
  state : (expiries cfg (n + 1) s).state = if s.server then .listen else .closed
  sent : (expiries cfg (n + 1) s).sent = s.sent ++ List.replicate n s.state.packet ++
    if s.state = .closing then [] else [.reset]

theorem GivesUp.zero (hpos : 0 < cfg.initialRtxTo) (hmax : cfg.initialRtxTo ≤ cfg.maxRtxTo)
    (he : (dccpMachine cfg).Enabled s .timeoutRtx) (h : s.state = .respond ∨
      s.state.backsOff = true ∧ s.timerRtx.Runs cfg ∧ s.timerRtx.backoffFailed = true) :
    GivesUp cfg s 0 where
  few := by
    rw [pow_zero, sub_self, mul_zero]
    exact hpos.le.trans hmax
  retries i hi := by
    obtain rfl := Nat.le_zero.mp hi
    exact ⟨rfl, rfl, (List.append_nil _).symm, he⟩
  total hb := by
    rcases h with h | ⟨-, hr, hf⟩
    · rw [h] at hb
      cases hb
    · exact hr.total_of_failed hf
  state := (timeoutRtx_last (h.imp_right fun h => ⟨h.1, h.2.2⟩)).1
  sent := by
    rw [List.replicate_zero, List.append_nil]
    exact (timeoutRtx_last (h.imp_right fun h => ⟨h.1, h.2.2⟩)).2

/-- One retransmission more. -/
theorem GivesUp.succ {n : ℕ} (he : (dccpMachine cfg).Enabled s .timeoutRtx)
    (hb : s.state.backsOff = true) (hf : s.timerRtx.backoffFailed = false)
    (hfew : cfg.initialRtxTo * (2 ^ (n + 1) - 1) ≤ cfg.maxRtxTo)
    (h : GivesUp cfg (s.timeoutRtx cfg) n) : GivesUp cfg s (n + 1) := by
  have hstate : (s.timeoutRtx cfg).state = s.state := by rw [timeoutRtx_retry cfg hb hf]
  have hserver : (s.timeoutRtx cfg).server = s.server := by rw [timeoutRtx_retry cfg hb hf]
  have hsent : (s.timeoutRtx cfg).sent = s.sent ++ [s.state.packet] := by
    rw [timeoutRtx_retry cfg hb hf]
  have happ : ∀ i, (s.timeoutRtx cfg).sent ++ List.replicate i s.state.packet =
      s.sent ++ List.replicate (i + 1) s.state.packet := by
    intro i
    rw [hsent, List.append_assoc, List.replicate_succ]
    rfl
  refine ⟨hfew, fun i hi => ?_, fun _ => ?_, ?_, ?_⟩
  · cases i with
    | zero => exact ⟨rfl, rfl, (List.append_nil _).symm, he⟩
    | succ i =>
      obtain ⟨h1, h2, h3, h4⟩ := h.retries i (Nat.le_of_succ_le_succ hi)
      rw [hstate] at h1 h3
      rw [expiries_succ']
      exact ⟨h1, h2.trans hserver, h3.trans (happ i), h4⟩
  · rw [expiries_succ']
    exact h.total (hstate ▸ hb)
  · rw [expiries_succ', h.state, hserver]
  · rw [expiries_succ', h.sent, hstate, happ]

/-- After a retransmission the timer expires again, if time is left for it. -/
theorem enabled_retry (hpos : 0 < cfg.initialRtxTo) (hcap : ¬ Capped cfg)
    (he : (dccpMachine cfg).Enabled s .timeoutRtx) (hb : s.state.backsOff = true)
    (hr : s.timerRtx.Runs cfg) (hf : s.timerRtx.backoffFailed = false) :
    (dccpMachine cfg).Enabled (s.timeoutRtx cfg) .timeoutRtx := by
  have ha := hr.forceCancel.armed_backOff hpos hf
  rw [timeoutRtx_retry cfg hb hf]
  refine ⟨he.1, he.2.1, ?_⟩
  rcases ha.pending with hp | ⟨-, hc⟩
  · exact hp
  · exact absurd hc hcap

/-- The delay has been doubled `k` times, and can be doubled at most `m` times more. -/
theorem gives_up_of_doubled (hpos : 0 < cfg.initialRtxTo) (hmax : cfg.initialRtxTo ≤ cfg.maxRtxTo)
    (hcap : ¬ Capped cfg) (m : ℕ) {k : ℕ} (he : (dccpMachine cfg).Enabled s .timeoutRtx)
    (hb : s.state.backsOff = true) (hd : s.timerRtx.Doubled cfg k)
    (hle : s.timerRtx.totDelay ≤ cfg.maxRtxTo)
    (hm : cfg.maxRtxTo < cfg.initialRtxTo * (2 ^ (k + m + 1) - 1)) :
    ∃ n, GivesUp cfg s n ∧ cfg.initialRtxTo * (2 ^ (k + n) - 1) ≤ cfg.maxRtxTo := by
  induction m generalizing s k with
  | zero => exact absurd (hd.total ▸ hle) (not_le.mpr hm)
  | succ m ih =>
    have he' := enabled_retry hpos hcap he hb (.doubled hd hle) hd.failed
    have hd' : s.timerRtx.forceCancel.Doubled cfg k := ⟨hd.max, hd.failed, hd.delay, hd.total⟩
    have heq := timeoutRtx_retry cfg hb hd.failed
    have hb' : (s.timeoutRtx cfg).state.backsOff = true := by rw [heq]; exact hb
    have htimer : (s.timeoutRtx cfg).timerRtx = s.timerRtx.forceCancel.backOff := by rw [heq]
    by_cases hdbl : s.timerRtx.totDelay + s.timerRtx.delay * 2 ≤ cfg.maxRtxTo
    · obtain ⟨hd₁, htot, -⟩ := hd'.backOff hpos hdbl
      rw [← htimer] at hd₁ htot
      obtain ⟨n, hg, hn⟩ := ih he' hb' hd₁ (htot ▸ hdbl) (by convert hm using 4; omega)
      rw [show k + 1 + n = k + (n + 1) by omega] at hn
      refine ⟨n + 1, .succ he hb hd.failed (le_trans ?_ hn) hg, hn⟩
      have hpow : (2 : ℚ) ^ (n + 1) ≤ 2 ^ (k + (n + 1)) :=
        pow_le_pow_right₀ one_le_two (Nat.le_add_left _ _)
      exact mul_le_mul_of_nonneg_left (sub_le_sub_right hpow 1) hpos.le
    · obtain ⟨hr, hf, -⟩ := hd'.backOff_last hpos hle (not_le.mp hdbl)
      rw [← htimer] at hr hf
      refine ⟨1, .succ he hb hd.failed ?_ (.zero hpos hmax he' (.inr ⟨hb', hr, hf⟩)), ?_⟩
      · norm_num
        exact hmax
      · exact hd.total ▸ hle

theorem defaults_not_capped : ¬ Capped defaults := by
  rintro ⟨k, hk⟩
  have hq : (2 : ℚ) ^ (k + 1) = 26 := by
    change (75 : ℚ) = 3 * _ at hk
    linarith
  have hn : 2 ^ (k + 1) = 26 := by exact_mod_cast hq
  rcases lt_or_ge k 4 with hk | hk
  · interval_cases k <;> simp at hn
  · have := Nat.pow_le_pow_right two_pos (show 5 ≤ k + 1 by omega)
    omega

/-- A connection is being opened, and the first delay has been doubled a number of times. -/
structure Requesting (cfg : DccpConfig) (k : ℕ) (s : DccpAgent) : Prop where
  reachable : (dccpMachine cfg).Reachable s
  state : s.state = .request
  enabled : (dccpMachine cfg).Enabled s .timeoutRtx
  doubled : s.timerRtx.Doubled cfg k

theorem requesting_opened (hpos : 0 < cfg.initialRtxTo) (hmax : cfg.initialRtxTo ≤ cfg.maxRtxTo) :
    Requesting cfg 0 (opened cfg) := by
  have hreach := opened_reachable cfg
  obtain ⟨sb, heq⟩ := opened_eq cfg
  have hout := output_of_ne_open cfg false
    (s := { DccpAgent.new cfg with sb := sb }.changeState cfg .request)
    (by simp [changeState, cancelTimers])
  rw [← heq] at hout
  have htimer : (opened cfg).timerRtx = (init cfg.initialRtxTo cfg.maxRtxTo).backOff := by
    rw [hout]
    rfl
  refine ⟨hreach, by rw [hout]; rfl, ⟨by rw [hout]; rfl, by rw [hout]; rfl, ?_⟩, ?_⟩
  · rw [htimer, backOff_first (t := init cfg.initialRtxTo cfg.maxRtxTo) rfl hpos]
  · exact htimer ▸ (armed_first hpos hmax).1

theorem Requesting.timeoutRtx {k : ℕ} (hpos : 0 < cfg.initialRtxTo) (h : Requesting cfg k s)
    (hle : cfg.initialRtxTo * (2 ^ (k + 2) - 1) ≤ cfg.maxRtxTo) :
    Requesting cfg (k + 1) (s.timeoutRtx cfg) := by
  have hb : s.state.backsOff = true := by rw [h.state]; rfl
  have hd : s.timerRtx.forceCancel.Doubled cfg k :=
    ⟨h.doubled.max, h.doubled.failed, h.doubled.delay, h.doubled.total⟩
  have hdbl : s.timerRtx.forceCancel.totDelay + s.timerRtx.forceCancel.delay * 2 ≤
      cfg.maxRtxTo := by
    rw [hd.total, hd.delay]
    refine le_trans (le_of_eq ?_) hle
    ring
  obtain ⟨hd', -, hp⟩ := hd.backOff hpos hdbl
  have heq := timeoutRtx_retry cfg hb h.doubled.failed
  refine ⟨h.reachable.step h.enabled rfl, ?_, ?_, ?_⟩
  · rw [heq]
    exact h.state
  · rw [heq]
    exact ⟨h.enabled.1, h.enabled.2.1, hp⟩
  · rw [heq]
    exact hd'

theorem requesting_expiries (hpos : 0 < cfg.initialRtxTo) (hmax : cfg.initialRtxTo ≤ cfg.maxRtxTo)
    {k : ℕ} (hk : cfg.maxRtxTo = cfg.initialRtxTo * (2 ^ (k + 1) - 1)) (i : ℕ) (hi : i ≤ k) :
    Requesting cfg i (expiries cfg i (opened cfg)) := by
  induction i with
  | zero => exact requesting_opened hpos hmax
  | succ i ih =>
    rw [expiries_succ]
    refine (ih (by omega)).timeoutRtx hpos ?_
    have hpow : (2 : ℚ) ^ (i + 2) ≤ 2 ^ (k + 1) := pow_le_pow_right₀ one_le_two (by omega)
    rw [hk]
    exact mul_le_mul_of_nonneg_left (sub_le_sub_right hpow 1) hpos.le

/-- When the delays have added up to the greatest total, no delay is left. -/
theorem Requesting.stops {k : ℕ} (hpos : 0 < cfg.initialRtxTo) (h : Requesting cfg k s)
    (hk : cfg.maxRtxTo = cfg.initialRtxTo * (2 ^ (k + 1) - 1)) :
    (s.timeoutRtx cfg).state = .request ∧ (s.timeoutRtx cfg).timerRtx.pending = false := by
  have hb : s.state.backsOff = true := by rw [h.state]; rfl
  have hd : s.timerRtx.forceCancel.Doubled cfg k :=
    ⟨h.doubled.max, h.doubled.failed, h.doubled.delay, h.doubled.total⟩
  have htot : s.timerRtx.forceCancel.totDelay = cfg.maxRtxTo := hd.total.trans hk.symm
  have hlt := lt_add_of_pos_right cfg.maxRtxTo (mul_pos (hd.delay_pos hpos) two_pos)
  obtain ⟨-, -, hp⟩ := hd.backOff_last hpos htot.le (by rwa [htot])
  rw [timeoutRtx_retry cfg hb h.doubled.failed]
  refine ⟨h.state, ?_⟩
  dsimp only
  rw [hp, htot]
  simp [forceCancel]

end DccpAgent

end Ns2XPass
