import Mathlib.Algebra.Order.Field.Rat
import Mathlib.Tactic.Linarith
import Mathlib.Tactic.Ring
import Ns2XPass.Dccp.Connection

/-! # The retransmission timer of a DCCP agent

The timer runs in the states that wait for an answer. Its delays double until the
last one reaches the greatest total delay. A total that meets this one by doubling
leaves no time for a last delay.
-/

namespace Ns2XPass

namespace DccpState

/-- An answer is awaited. -/
def waits : DccpState → Bool
  | .respond | .request | .closeReq | .closing => true
  | .closed | .listen | .open => false

/-- The packet of the state is sent again, after longer and longer times. -/
def backsOff : DccpState → Bool
  | .request | .closeReq | .closing => true
  | .closed | .listen | .respond | .open => false

def packet : DccpState → DccpPacketType
  | .closeReq => .closeReq
  | .closing => .close
  | .respond => .response
  | .closed | .listen | .request | .open => .request

theorem waits_of_backsOff {state : DccpState} (h : state.backsOff = true) :
    state.waits = true := by
  cases state <;> first | rfl | exact nomatch h

end DccpState

namespace RetransmitTimer

variable {cfg : DccpConfig} {t : RetransmitTimer}

/-- The first delay has been doubled a number of times. -/
structure Doubled (cfg : DccpConfig) (k : ℕ) (t : RetransmitTimer) : Prop where
  max : t.maxTotDelay = cfg.maxRtxTo
  failed : t.backoffFailed = false
  delay : t.delay = cfg.initialRtxTo * 2 ^ k
  total : t.totDelay = cfg.initialRtxTo * (2 ^ (k + 1) - 1)

/-- The delays double, until the last one reaches the greatest total. -/
inductive Runs (cfg : DccpConfig) (t : RetransmitTimer) : Prop
  | doubled {k : ℕ} : t.Doubled cfg k → t.totDelay ≤ cfg.maxRtxTo → Runs cfg t
  | failed : t.maxTotDelay = cfg.maxRtxTo → t.backoffFailed = true → 0 ≤ t.delay →
      t.totDelay = cfg.maxRtxTo → Runs cfg t

/-- The greatest total delay is a sum of doubled delays. -/
def Capped (cfg : DccpConfig) : Prop :=
  ∃ k : ℕ, cfg.maxRtxTo = cfg.initialRtxTo * (2 ^ (k + 1) - 1)

/-- The timer is pending, unless no time is left for it. -/
structure Armed (cfg : DccpConfig) (t : RetransmitTimer) : Prop where
  runs : t.Runs cfg
  pending : t.pending = true ∨ t.backoffFailed = true ∧ Capped cfg

theorem Runs.total_le (h : t.Runs cfg) : t.totDelay ≤ cfg.maxRtxTo := by
  cases h with
  | doubled _ hle => exact hle
  | failed _ _ _ ht => exact ht.le

theorem Runs.total_of_failed (h : t.Runs cfg) (hf : t.backoffFailed = true) :
    t.totDelay = cfg.maxRtxTo := by
  cases h with
  | doubled hd _ => simp [hd.failed] at hf
  | failed _ _ _ ht => exact ht

/-- A timer that is not pending has used up its time. -/
theorem Armed.total_of_not_pending (h : t.Armed cfg) (hp : t.pending = false) :
    t.totDelay = cfg.maxRtxTo := by
  rcases h.pending with hp' | ⟨hf, -⟩
  · simp [hp] at hp'
  · exact h.runs.total_of_failed hf

theorem Runs.forceCancel (h : t.Runs cfg) : t.forceCancel.Runs cfg := by
  cases h with
  | doubled hd hle => exact .doubled ⟨hd.max, hd.failed, hd.delay, hd.total⟩ hle
  | failed hm hf h0 ht => exact .failed hm hf h0 ht

/-! ### Back-off -/

theorem backOff_first (h : t.totDelay = 0) (hd : 0 < t.delay) :
    t.backOff = { t with totDelay := t.delay, pending := true } := by
  unfold backOff
  simp [h, hd]

theorem backOff_double (h : t.totDelay ≠ 0) (hle : t.totDelay + t.delay * 2 ≤ t.maxTotDelay)
    (hd : 0 < t.delay) :
    t.backOff = { t with
      delay := t.delay * 2
      totDelay := t.totDelay + t.delay * 2
      pending := true } := by
  unfold backOff
  simp [h, hle, hd]

theorem backOff_last (h : t.totDelay ≠ 0) (hlt : t.maxTotDelay < t.totDelay + t.delay * 2) :
    t.backOff = { t with
      delay := t.maxTotDelay - t.totDelay
      totDelay := t.maxTotDelay
      backoffFailed := true
      pending := t.pending || decide (t.totDelay < t.maxTotDelay) } := by
  unfold backOff
  by_cases hp : t.totDelay < t.maxTotDelay
  · simp [h, hlt.not_ge, hp]
  · simp [h, hlt.not_ge, hp]

theorem backOff_still (h : t.totDelay ≠ 0) (hle : t.totDelay ≤ t.maxTotDelay)
    (hd : t.delay = 0) : t.backOff = t := by
  obtain ⟨_, _, delay, _, _⟩ := t
  obtain rfl : delay = 0 := hd
  unfold backOff
  simp_all

section BackOff

variable {k : ℕ} (hpos : 0 < cfg.initialRtxTo)

include hpos

theorem Doubled.delay_pos (h : t.Doubled cfg k) : 0 < t.delay := by
  rw [h.delay]
  positivity

theorem Doubled.total_pos (h : t.Doubled cfg k) : 0 < t.totDelay := by
  have h2 : (1 : ℚ) < 2 ^ (k + 1) := one_lt_pow₀ one_lt_two k.succ_ne_zero
  rw [h.total]
  exact mul_pos hpos (sub_pos.mpr h2)

theorem Doubled.backOff (h : t.Doubled cfg k) (hle : t.totDelay + t.delay * 2 ≤ cfg.maxRtxTo) :
    t.backOff.Doubled cfg (k + 1) ∧ t.backOff.totDelay = t.totDelay + t.delay * 2 ∧
      t.backOff.pending = true := by
  rw [backOff_double (h.total_pos hpos).ne' (h.max ▸ hle) (h.delay_pos hpos)]
  refine ⟨⟨h.max, h.failed, ?_, ?_⟩, rfl, rfl⟩
  · change t.delay * 2 = _
    rw [h.delay]; ring
  · change t.totDelay + t.delay * 2 = _
    rw [h.delay, h.total]; ring

/-- The last delay is what is left of the total. -/
theorem Doubled.backOff_last (h : t.Doubled cfg k) (hle : t.totDelay ≤ cfg.maxRtxTo)
    (hlt : cfg.maxRtxTo < t.totDelay + t.delay * 2) :
    t.backOff.Runs cfg ∧ t.backOff.backoffFailed = true ∧
      t.backOff.pending = (t.pending || decide (t.totDelay < cfg.maxRtxTo)) := by
  rw [RetransmitTimer.backOff_last (h.total_pos hpos).ne' (h.max ▸ hlt)]
  refine ⟨.failed h.max rfl ?_ h.max, rfl, by rw [h.max]⟩
  change 0 ≤ t.maxTotDelay - t.totDelay
  rw [h.max]
  exact sub_nonneg.mpr hle

/-- The first delay of a state. -/
theorem armed_first (hmax : cfg.initialRtxTo ≤ cfg.maxRtxTo) :
    (init cfg.initialRtxTo cfg.maxRtxTo).backOff.Doubled cfg 0 ∧
      (init cfg.initialRtxTo cfg.maxRtxTo).backOff.Armed cfg := by
  rw [backOff_first (t := init cfg.initialRtxTo cfg.maxRtxTo) rfl hpos]
  have hd : Doubled cfg 0 { init cfg.initialRtxTo cfg.maxRtxTo with
      totDelay := cfg.initialRtxTo, pending := true } := by
    refine ⟨rfl, rfl, ?_, ?_⟩
    · simp [init]
    · norm_num
  exact ⟨hd, .doubled hd hmax, .inl rfl⟩

theorem Runs.armed_backOff (h : t.Runs cfg) (hf : t.backoffFailed = false) :
    t.backOff.Armed cfg := by
  cases h with
  | @doubled k hd hle =>
    by_cases hdbl : t.totDelay + t.delay * 2 ≤ cfg.maxRtxTo
    · obtain ⟨hd', htot, hp⟩ := hd.backOff hpos hdbl
      exact ⟨.doubled hd' (htot ▸ hdbl), .inl hp⟩
    · obtain ⟨hr, hb, hp⟩ := hd.backOff_last hpos hle (not_le.mp hdbl)
      refine ⟨hr, ?_⟩
      rcases hle.lt_or_eq with hlt | heq
      · exact .inl (by simp [hp, hlt])
      · exact .inr ⟨hb, k, heq.symm.trans hd.total⟩
  | failed _ hf' _ _ => simp [hf] at hf'

theorem Armed.backOff (hmax : cfg.initialRtxTo ≤ cfg.maxRtxTo) (h : t.Armed cfg) :
    t.backOff.Armed cfg := by
  cases h.runs with
  | doubled hd hle => exact h.runs.armed_backOff hpos hd.failed
  | failed hm hf h0 ht =>
    have hne : t.totDelay ≠ 0 := ht ▸ (hpos.trans_le hmax).ne'
    rcases h0.eq_or_lt with h0 | h0
    · rw [backOff_still hne (by rw [hm, ht]) h0.symm]
      exact h
    · rw [RetransmitTimer.backOff_last hne (by rw [hm, ht]; linarith)]
      refine ⟨.failed hm rfl ?_ hm, ?_⟩
      · change 0 ≤ t.maxTotDelay - t.totDelay
        rw [hm, ht, sub_self]
      · simpa [hm, ht, hf] using h.pending

end BackOff

end RetransmitTimer

end Ns2XPass
