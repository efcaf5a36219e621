import Ns2XPass.Agent.Handlers

/-! # The bounds of the credit rate

The feedback control keeps `w_` and the credit rate within their bounds and moves
the rate with the measured loss, except where the rate of one credit in a round
trip is above what the earlier statements allow: it is the last bound that is
applied.
-/

namespace Ns2XPass

namespace XPassAgent

variable {cfg : Config} {now : ℚ} {a b : XPassAgent}

/-- The rate of one credit in each round trip, `min_rate`. -/
def minRate (cfg : Config) (a : XPassAgent) : ℤ := toInt (cfg.avgCreditSize / a.rtt)

/-- The parameters and the measurement of an agent that sends credits. -/
structure Measured (cfg : Config) (a : XPassAgent) : Prop where
  minW_pos : 0 < cfg.minW
  minW_le : cfg.minW ≤ a.w
  w_le : a.w ≤ 1 / 2
  rate_nonneg : 0 ≤ a.curCreditRate
  rate_le : a.curCreditRate ≤ cfg.maxCreditRate
  max_pos : 0 < cfg.maxCreditRate
  scaling_nonneg : 0 ≤ cfg.targetLossScaling
  scaling_le : cfg.targetLossScaling ≤ 1
  minSize_pos : 0 < cfg.minCreditSize
  maxSize_pos : 0 < cfg.maxCreditSize
  rtt_pos : 0 < a.rtt
  dropped_nonneg : 0 ≤ a.creditDropped
  dropped_lt : a.creditDropped < a.creditTotal

/-- The rate moves with the measured loss, and `w_` and the rate stay within their bounds. -/
structure Regulated (cfg : Config) (a b : XPassAgent) : Prop where
  minW_le : cfg.minW ≤ b.w
  w_le : b.w ≤ 1 / 2
  rate_nonneg : 0 ≤ b.curCreditRate
  rate_le : b.curCreditRate ≤ cfg.maxCreditRate
  not_raised : a.targetLoss cfg < a.lossRate → b.curCreditRate ≤ a.curCreditRate
  not_lowered : a.lossRate ≤ a.targetLoss cfg → a.curCreditRate ≤ b.curCreditRate

/-- The round trip is long enough for the last bound, or the rate is not updated. -/
def LongRoundTrip (cfg : Config) (now : ℚ) (a : XPassAgent) : Prop :=
  now - a.lastCreditRateUpdate < a.rtt ∨
    minRate cfg a ≤ if a.targetLoss cfg < a.lossRate then a.curCreditRate else cfg.maxCreditRate

instance : Decidable (LongRoundTrip cfg now a) := inferInstanceAs (Decidable (_ ∨ _))

theorem Measured.avgCreditSize_pos (h : Measured cfg a) : 0 < cfg.avgCreditSize := by
  have hmin := h.minSize_pos
  have hmax := h.maxSize_pos
  have hsum : (0 : ℚ) < (cfg.minCreditSize + cfg.maxCreditSize : ℤ) := by
    exact_mod_cast add_pos hmin hmax
  unfold Config.avgCreditSize
  linarith

theorem Measured.minRate_nonneg (h : Measured cfg a) : 0 ≤ minRate cfg a := by
  have hpos := div_nonneg h.avgCreditSize_pos.le h.rtt_pos.le
  exact le_toInt hpos (by exact_mod_cast hpos)

theorem Measured.targetLoss_nonneg (h : Measured cfg a) : 0 ≤ a.targetLoss cfg := by
  have hmax : (0 : ℚ) < cfg.maxCreditRate := by exact_mod_cast h.max_pos
  have hrate : (a.curCreditRate : ℚ) / cfg.maxCreditRate ≤ 1 := by
    rw [div_le_one hmax]
    exact_mod_cast h.rate_le
  exact mul_nonneg (sub_nonneg.mpr hrate) h.scaling_nonneg

theorem Measured.lossRate_lt_one (h : Measured cfg a) : a.lossRate < 1 := by
  have htotal : (0 : ℚ) < a.creditTotal := by
    exact_mod_cast h.dropped_nonneg.trans_lt h.dropped_lt
  unfold lossRate
  rw [div_lt_one htotal]
  exact_mod_cast h.dropped_lt

/-- A decrease starts from what arrived, and never ends above the old rate. -/
theorem Measured.decreaseRate (h : Measured cfg a) (hnow : a.rtt ≤ now - a.lastCreditRateUpdate) :
    (0 ≤ (a.decreaseRate cfg now).curCreditRate ∧
      (a.decreaseRate cfg now).curCreditRate ≤ a.curCreditRate) ∧
    cfg.minW ≤ (a.decreaseRate cfg now).w ∧ (a.decreaseRate cfg now).w ≤ 1 / 2 := by
  have helapsed : 0 < now - a.lastCreditRateUpdate := h.rtt_pos.trans_le hnow
  have harrived : (0 : ℚ) ≤ (a.creditTotal - a.creditDropped : ℤ) := by
    exact_mod_cast (sub_pos.mpr h.dropped_lt).le
  have hrate : 0 ≤ cfg.avgCreditSize * (a.creditTotal - a.creditDropped : ℤ)
      / (now - a.lastCreditRateUpdate) * (1 + a.targetLoss cfg) := by
    have htarget := h.targetLoss_nonneg
    have hsize := h.avgCreditSize_pos
    positivity
  refine ⟨?_, le_max_right _ _, max_le ?_ (h.minW_le.trans h.w_le)⟩
  · unfold XPassAgent.decreaseRate
    rw [if_neg (not_le.mpr h.lossRate_lt_one)]
    dsimp only
    split_ifs with hold
    · exact ⟨h.rate_nonneg, le_rfl⟩
    · exact ⟨le_toInt hrate (by exact_mod_cast hrate), not_lt.mp hold⟩
  · have hmin := h.minW_pos
    have hle := h.minW_le
    have hw := h.w_le
    linarith

/-- An increase is a mean of the old rate and the greatest one. -/
theorem Measured.increaseRate (h : Measured cfg a) :
    (a.curCreditRate ≤ (a.increaseRate cfg).curCreditRate ∧
      (a.increaseRate cfg).curCreditRate ≤ cfg.maxCreditRate) ∧
    cfg.minW ≤ (a.increaseRate cfg).w ∧ (a.increaseRate cfg).w ≤ 1 / 2 := by
  have hw : cfg.minW ≤ (a.increaseRate cfg).w ∧ (a.increaseRate cfg).w ≤ 1 / 2 := by
    unfold XPassAgent.increaseRate
    dsimp only
    split_ifs
    · have hle := h.minW_le
      exact ⟨le_min (by linarith) (h.minW_le.trans h.w_le), min_le_right _ _⟩
    · exact ⟨h.minW_le, h.w_le⟩
  refine ⟨?_, hw⟩
  have hw0 : 0 ≤ (a.increaseRate cfg).w := h.minW_pos.le.trans hw.1
  by_cases hlt : a.curCreditRate < cfg.maxCreditRate
  · have heq : (a.increaseRate cfg).curCreditRate =
        toInt ((a.increaseRate cfg).w * cfg.maxCreditRate +
          (1 - (a.increaseRate cfg).w) * a.curCreditRate) := if_pos hlt
    have hq : (a.curCreditRate : ℚ) < cfg.maxCreditRate := by exact_mod_cast hlt
    have hge : (a.curCreditRate : ℚ) ≤ (a.increaseRate cfg).w * cfg.maxCreditRate +
        (1 - (a.increaseRate cfg).w) * a.curCreditRate := by nlinarith
    have hle : (a.increaseRate cfg).w * cfg.maxCreditRate +
        (1 - (a.increaseRate cfg).w) * a.curCreditRate ≤ cfg.maxCreditRate := by nlinarith
    have hnonneg : (0 : ℚ) ≤ a.curCreditRate := by exact_mod_cast h.rate_nonneg
    rw [heq]
    refine ⟨le_toInt (hnonneg.trans hge) hge, ?_⟩
    rw [toInt_of_nonneg (hnonneg.trans hge)]
    exact_mod_cast (Int.floor_le _).trans hle
  · have heq : (a.increaseRate cfg).curCreditRate = a.curCreditRate := if_neg hlt
    rw [heq]
    exact ⟨le_rfl, h.rate_le⟩

/-- The last bounds of an update of the rate. -/
theorem creditFeedbackControl_of_measured (h : Measured cfg a)
    (hnow : a.rtt ≤ now - a.lastCreditRateUpdate) (b : XPassAgent)
    (hb : b = if a.targetLoss cfg < a.lossRate then a.decreaseRate cfg now
      else a.increaseRate cfg) (hle : b.curCreditRate ≤ cfg.maxCreditRate) :
    (a.creditFeedbackControl cfg now).curCreditRate = max b.curCreditRate (minRate cfg a) ∧
      (a.creditFeedbackControl cfg now).w = b.w := by
  have htotal : a.creditTotal ≠ 0 := (h.dropped_nonneg.trans_lt h.dropped_lt).ne'
  unfold creditFeedbackControl
  rw [if_neg (not_le.mpr h.rtt_pos), if_neg (not_lt.mpr hnow), if_neg htotal, ← hb]
  dsimp only
  rw [if_neg (not_lt.mpr hle)]
  refine ⟨?_, rfl⟩
  split_ifs with hmin
  · exact (max_eq_right hmin.le).symm
  · exact (max_eq_left (not_lt.mp hmin)).symm

/-- The feedback control keeps its bounds and moves the rate with the measured loss exactly if it
does not update the rate, or if one credit in a round trip stays below the rate that is there
while credits are lost, and below the greatest rate otherwise. -/
theorem creditFeedbackControl_regulated_iff (h : Measured cfg a) :
    Regulated cfg a (a.creditFeedbackControl cfg now) ↔ LongRoundTrip cfg now a := by
  by_cases hnow : now - a.lastCreditRateUpdate < a.rtt
  · have hsame : a.creditFeedbackControl cfg now = a := by
      unfold creditFeedbackControl
      rw [if_neg (not_le.mpr h.rtt_pos), if_pos hnow]
    rw [hsame]
    exact iff_of_true ⟨h.minW_le, h.w_le, h.rate_nonneg, h.rate_le, fun _ => le_rfl,
      fun _ => le_rfl⟩ (.inl hnow)
  have hnow' := not_lt.mp hnow
  unfold LongRoundTrip
  rw [or_iff_right hnow]
  by_cases hloss : a.targetLoss cfg < a.lossRate
  · obtain ⟨⟨h0, hold⟩, hw⟩ := h.decreaseRate hnow'
    obtain ⟨hrate, hw'⟩ := creditFeedbackControl_of_measured h hnow' _ (if_pos hloss).symm
      (hold.trans h.rate_le)
    rw [if_pos hloss]
    constructor
    · intro hr
      exact (le_max_right _ _).trans (hrate ▸ hr.not_raised hloss)
    · intro hmin
      have hle := hrate.trans_le (max_le hold hmin)
      exact ⟨hw' ▸ hw.1, hw' ▸ hw.2, hrate ▸ h0.trans (le_max_left _ _), hle.trans h.rate_le,
        fun _ => hle, fun hl => absurd hloss (not_lt.mpr hl)⟩
  · obtain ⟨⟨hold, hmax⟩, hw⟩ := h.increaseRate
    obtain ⟨hrate, hw'⟩ := creditFeedbackControl_of_measured h hnow' _ (if_neg hloss).symm hmax
    have hge := hold.trans (hrate ▸ le_max_left _ _)
    rw [if_neg hloss]
    constructor
    · intro hr
      exact (le_max_right _ _).trans (hrate ▸ hr.rate_le)
    · intro hmin
      exact ⟨hw' ▸ hw.1, hw' ▸ hw.2, h.rate_nonneg.trans hge, hrate.trans_le (max_le hmax hmin),
        fun hl => absurd hl hloss, fun _ => hge⟩

/-- An agent that has lost half of its credits in a round trip of one microsecond. -/
def nearby : XPassAgent :=
  { rtt := 1 / 1000000, creditTotal := 2, creditDropped := 1, curCreditRate := 1000000, w := 1 / 2,
    fst := 0, fct := 0 }

theorem creditFeedbackControl_regulated_iff_remote :
    Measured {} { nearby with rtt := 1 / 10000 } ∧
      Regulated {} { nearby with rtt := 1 / 10000 }
        ({ nearby with rtt := 1 / 10000 }.creditFeedbackControl {} 1) := by
  have hm : Measured {} { nearby with rtt := 1 / 10000 } := by
    constructor <;> decide +kernel
  exact ⟨hm, (creditFeedbackControl_regulated_iff hm).mpr (by decide +kernel)⟩

/-- The rate is raised while credits are lost, and above the greatest rate. -/
theorem creditFeedbackControl_unregulated :
    Measured {} nearby ∧ nearby.targetLoss {} < nearby.lossRate ∧
      nearby.curCreditRate < (nearby.creditFeedbackControl {} 1).curCreditRate ∧
      ({} : Config).maxCreditRate < (nearby.creditFeedbackControl {} 1).curCreditRate := by
  refine ⟨?_, by decide +kernel, by decide +kernel, by decide +kernel⟩
  constructor <;> decide +kernel

end XPassAgent

end Ns2XPass
