import Ns2XPass.Common.Numeric
import Ns2XPass.Library.Machine

/-! # The round-trip times of a TCP sender

The smoothed round-trip time and its variance are kept in fixed point, and a
change of them passes through a `short`. As long as the change fits there, both
follow their recurrences over unbounded integers, and every timeout is positive.
-/

namespace Ns2XPass

structure RttSettings where
  tick : ℚ
  minrto : ℚ
  maxrto : ℚ
  rtxcurInit : ℚ
  bootTime : ℚ
  srttInit : ℤ
  rttvarInit : ℤ
  rttvarExp : ℕ
  rfc2988 : Bool
  tsOption : Bool
  tick_pos : 0 < tick
  minrto_nonneg : 0 ≤ minrto
  minrto_le : minrto ≤ maxrto

structure RttState where
  rtt : ℤ
  srtt : ℤ
  rttvar : ℤ
  rtxcur : ℚ
  backoff : ℤ
  useRtt : Bool

/-- `T_SRTT_BITS` -/
def srttBits : ℕ := 3

/-- `T_RTTVAR_BITS` -/
def rttvarBits : ℕ := 2

/-- `x << n` and `x >> n` of an `int` -/
def shiftLeft (x : ℤ) (n : ℕ) : ℤ := wrap32 (x * 2 ^ n)

def shiftRight (x : ℤ) (n : ℕ) : ℤ := x / 2 ^ n

namespace RttState

variable (cfg : RttSettings) (s : RttState)

/-- `rtt_init`, which leaves `use_rtt_` as it is. -/
def rttInit : RttState where
  rtt := 0
  srtt := shiftLeft (toInt (cfg.srttInit / cfg.tick)) srttBits
  rttvar := shiftLeft (toInt (cfg.rttvarInit / cfg.tick)) rttvarBits
  rtxcur := cfg.rtxcurInit
  backoff := 1
  useRtt := s.useRtt

/-- The timeout before it is compared with the tick. -/
def clampedTimeout : ℚ :=
  let timeout :=
    if cfg.rfc2988 then
      if s.rtxcur < cfg.minrto ∧ s.useRtt = false then cfg.minrto * s.backoff
      else s.rtxcur * s.backoff
    else if s.rtxcur * s.backoff < cfg.minrto then cfg.minrto
    else s.rtxcur * s.backoff
  if cfg.maxrto < timeout then cfg.maxrto else timeout

/-- The error is the exit with a negative timeout. -/
def rttTimeout : Except Unit (ℚ × RttState) :=
  let timeout := s.clampedTimeout cfg
  let s' := { s with useRtt := false }
  if timeout < 2 * cfg.tick then
    if timeout < 0 then .error ()
    else if s.useRtt = true ∧ timeout < cfg.tick then .ok (cfg.tick, s')
    else .ok (2 * cfg.tick, s')
  else .ok (timeout, s')

/-- A sample in ticks. -/
def rttSample (tao now : ℚ) : ℤ :=
  let rtt :=
    if cfg.tsOption then toInt (tao / cfg.tick + 1 / 2)
    else toInt ((tao + fmod (now - tao + cfg.bootTime) cfg.tick) / cfg.tick)
  if rtt < 1 then 1 else rtt

/-- `delta` of `rtt_update` when it is added to `t_srtt_`. -/
def srttDelta (m : ℤ) : ℤ := wrap16 (m - shiftRight s.srtt srttBits)

/-- `delta` of `rtt_update` when it is added to `t_rttvar_`. -/
def rttvarDelta (m : ℤ) : ℤ :=
  let delta := s.srttDelta m
  wrap16 ((if delta < 0 then wrap16 (-delta) else delta) - shiftRight s.rttvar rttvarBits)

def rttUpdate (tao now : ℚ) : RttState :=
  let m := rttSample cfg tao now
  let s := { s with rtt := m }
  let s :=
    if s.srtt ≠ 0 then
      let srtt := wrap32 (s.srtt + s.srttDelta m)
      let rttvar := wrap32 (s.rttvar + s.rttvarDelta m)
      { s with
        srtt := if srtt ≤ 0 then 1 else srtt
        rttvar := if rttvar ≤ 0 then 1 else rttvar }
    else { s with srtt := shiftLeft m srttBits, rttvar := shiftLeft m (rttvarBits - 1) }
  let scaled := shiftLeft s.rttvar (cfg.rttvarExp + (srttBits - rttvarBits))
  { s with rtxcur := shiftRight (wrap32 (scaled + s.srtt)) srttBits * cfg.tick }

/-- What a back-off does with the estimates after it has doubled or kept the multiplier. -/
def clobber : RttState :=
  if 8 < s.backoff then
    { s with rttvar := wrap32 (s.rttvar + shiftRight s.srtt srttBits), srtt := 0 }
  else s

def double : RttState := { s with backoff := shiftLeft s.backoff 1 }

def rttBackoff : Except Unit RttState :=
  if s.backoff < 64 then .ok s.double.clobber
  else if cfg.rfc2988 then
    (s.rttTimeout cfg).map fun r =>
      if r.1 < cfg.maxrto then r.2.double.clobber else r.2.clobber
  else .ok s.clobber

end RttState

/-! ### The recurrences -/

/-- The estimates, over unbounded integers. -/
structure RttEstimate where
  srtt : ℤ
  rttvar : ℤ

namespace RttEstimate

/-- How far a sample is from the estimate. -/
def error (e : RttEstimate) (m : ℤ) : ℤ := m - e.srtt / 8

def next (e : RttEstimate) (m : ℤ) : RttEstimate :=
  if e.srtt = 0 then ⟨8 * m, 2 * m⟩
  else ⟨max 1 (e.srtt + e.error m), max 1 (e.rttvar + |e.error m| - e.rttvar / 4)⟩

/-- The changes of the estimates are values of a `short`, unless these start anew, and the
timeout that they yield is one of an `int`. -/
structure Fits (e : RttEstimate) (rttvarExp : ℕ) (m : ℤ) : Prop where
  error : e.srtt ≠ 0 → -2 ^ 15 ≤ e.error m ∧ e.error m < 2 ^ 15
  change : e.srtt ≠ 0 → -2 ^ 15 ≤ |e.error m| - e.rttvar / 4 ∧ |e.error m| - e.rttvar / 4 < 2 ^ 15
  timeout : (e.next m).rttvar * 2 ^ (rttvarExp + 1) + (e.next m).srtt < 2 ^ 31

end RttEstimate

namespace RttState

variable {cfg : RttSettings} {s s' : RttState} {tao now : ℚ} {m : ℤ}

def estimate (s : RttState) : RttEstimate := ⟨s.srtt, s.rttvar⟩

/-- The samples of round-trip times up to 2 ^ 26 ticks. -/
def Sampled (cfg : RttSettings) (tao : ℚ) : Prop := 0 ≤ tao ∧ tao ≤ 2 ^ 26 * cfg.tick

instance : Decidable (Sampled cfg tao) := inferInstanceAs (Decidable (_ ∧ _))

theorem rttSample_pos (cfg : RttSettings) (tao now : ℚ) : 1 ≤ rttSample cfg tao now := by
  unfold rttSample
  dsimp only
  split <;> omega

theorem rttSample_le (now : ℚ) (h : Sampled cfg tao) : rttSample cfg tao now ≤ 2 ^ 26 + 1 := by
  have htick := cfg.tick_pos
  have hdiv : tao / cfg.tick ≤ 2 ^ 26 := (div_le_iff₀ htick).mpr h.2
  have hle : (if cfg.tsOption then toInt (tao / cfg.tick + 1 / 2)
      else toInt ((tao + fmod (now - tao + cfg.bootTime) cfg.tick) / cfg.tick)) ≤ 2 ^ 26 + 1 := by
    split
    · refine toInt_le ?_
      push_cast
      linarith
    · have hf := (abs_lt.mp (fmod_lt (x := now - tao + cfg.bootTime) htick)).2
      have hoff : fmod (now - tao + cfg.bootTime) cfg.tick / cfg.tick ≤ 1 :=
        (div_le_one htick).mpr hf.le
      refine toInt_le ?_
      rw [add_div]
      push_cast
      linarith
  unfold rttSample
  generalize (if cfg.tsOption then _ else _) = r at hle ⊢
  dsimp only
  split <;> omega

/-- The estimates are values of an `int`. -/
structure Ranged (s : RttState) : Prop where
  srtt_ge : -2 ^ 31 ≤ s.srtt
  srtt_lt : s.srtt < 2 ^ 31
  rttvar_ge : -2 ^ 31 ≤ s.rttvar
  rttvar_lt : s.rttvar < 2 ^ 31

theorem srttDelta_eq (h : -2 ^ 15 ≤ s.estimate.error m ∧ s.estimate.error m < 2 ^ 15) :
    s.srttDelta m = s.estimate.error m :=
  wrap16_of_lt h.1 h.2

/-- The sign of the smallest `short` cannot be changed, but the difference is right again. -/
theorem rttvarDelta_eq (h : -2 ^ 15 ≤ s.estimate.error m ∧ s.estimate.error m < 2 ^ 15)
    (hc : -2 ^ 15 ≤ |s.estimate.error m| - s.rttvar / 4 ∧
      |s.estimate.error m| - s.rttvar / 4 < 2 ^ 15) :
    s.rttvarDelta m = |s.estimate.error m| - s.rttvar / 4 := by
  unfold rttvarDelta
  rw [srttDelta_eq h]
  generalize s.estimate.error m = d at *
  have habs : |d| = if d < 0 then -d else d := by
    split
    · exact abs_of_neg ‹_›
    · exact abs_of_nonneg (by omega)
  rw [habs] at hc ⊢
  unfold wrap16 shiftRight rttvarBits
  rw [Int.bmod_def, Int.bmod_def]
  split <;> omega

theorem rttUpdate_estimate (hr : s.Ranged) (ht : Sampled cfg tao)
    (hf : s.estimate.Fits cfg.rttvarExp (rttSample cfg tao now)) :
    (s.rttUpdate cfg tao now).estimate = s.estimate.next (rttSample cfg tao now) := by
  have hm := rttSample_pos cfg tao now
  have hle := rttSample_le now ht
  obtain ⟨h1, h2, h3, h4⟩ := hr
  unfold rttUpdate
  generalize rttSample cfg tao now = m at *
  dsimp only
  unfold RttEstimate.next estimate
  dsimp only
  by_cases h0 : s.srtt = 0
  · simp only [h0, ne_eq, not_true_eq_false, if_false, if_true, RttEstimate.mk.injEq]
    unfold shiftLeft srttBits rttvarBits
    rw [wrap32_of_lt (by omega) (by omega), wrap32_of_lt (by omega) (by omega)]
    omega
  · have he := hf.error h0
    have hc := hf.change h0
    have hd : s.estimate.error m = m - s.srtt / 8 := rfl
    have hrtt : ({ s with rtt := m } : RttState).srttDelta m = s.estimate.error m :=
      srttDelta_eq he
    have hvar : ({ s with rtt := m } : RttState).rttvarDelta m =
        |s.estimate.error m| - s.rttvar / 4 := rttvarDelta_eq he hc
    have hc' : -2 ^ 15 ≤ |s.estimate.error m| - s.rttvar / 4 ∧
      |s.estimate.error m| - s.rttvar / 4 < 2 ^ 15 := hc
    simp only [h0, ne_eq, not_false_eq_true, if_true, if_false, hrtt, hvar, RttEstimate.mk.injEq]
    have habs := abs_nonneg (s.estimate.error m)
    have hupper : |s.estimate.error m| ≤ 2 ^ 15 := abs_le.mpr ⟨he.1, he.2.le⟩
    rw [show (⟨s.srtt, s.rttvar⟩ : RttEstimate) = s.estimate from rfl]
    rw [wrap32_of_lt (by omega) (by omega), wrap32_of_lt (by omega) (by omega)]
    constructor
    · split <;> omega
    · split <;> omega

theorem next_pos {e : RttEstimate} (h : 1 ≤ m) : 0 < (e.next m).srtt ∧ 0 < (e.next m).rttvar := by
  unfold RttEstimate.next
  split
  · constructor <;> dsimp only <;> omega
  · constructor <;> exact zero_lt_one.trans_le (le_max_left _ _)

/-- The part of an update that no later part changes. -/
theorem rttUpdate_rest (s : RttState) :
    (s.rttUpdate cfg tao now).backoff = s.backoff ∧
      (s.rttUpdate cfg tao now).rtxcur = (wrap32 (wrap32 ((s.rttUpdate cfg tao now).rttvar *
        2 ^ (cfg.rttvarExp + 1)) + (s.rttUpdate cfg tao now).srtt) / 8 : ℤ) * cfg.tick := by
  unfold rttUpdate
  dsimp only
  split <;> exact ⟨rfl, rfl⟩

theorem rttUpdate_fits (hr : s.Ranged) (ht : Sampled cfg tao)
    (hf : s.estimate.Fits cfg.rttvarExp (rttSample cfg tao now)) :
    0 < (s.rttUpdate cfg tao now).srtt ∧ 0 < (s.rttUpdate cfg tao now).rttvar ∧
      (s.rttUpdate cfg tao now).rttvar * 2 ^ (cfg.rttvarExp + 1) +
        (s.rttUpdate cfg tao now).srtt < 2 ^ 31 := by
  have he := rttUpdate_estimate hr ht hf
  have hpos := next_pos (e := s.estimate) (rttSample_pos cfg tao now)
  have hfit := hf.timeout
  rw [← he] at hpos hfit
  exact ⟨hpos.1, hpos.2, hfit⟩

theorem rttUpdate_rtxcur (hr : s.Ranged) (ht : Sampled cfg tao)
    (hf : s.estimate.Fits cfg.rttvarExp (rttSample cfg tao now)) :
    0 ≤ (s.rttUpdate cfg tao now).rtxcur := by
  obtain ⟨hs, hv, hfit⟩ := rttUpdate_fits hr ht hf
  have hscaled : 0 ≤ (s.rttUpdate cfg tao now).rttvar * 2 ^ (cfg.rttvarExp + 1) := by positivity
  rw [(rttUpdate_rest s).2]
  refine mul_nonneg ?_ cfg.tick_pos.le
  have hin := wrap32_of_lt (show -2 ^ 31 ≤ (s.rttUpdate cfg tao now).rttvar *
    2 ^ (cfg.rttvarExp + 1) by omega) (by omega)
  rw [hin, wrap32_of_lt (by omega) (by omega)]
  exact_mod_cast (show 0 ≤ ((s.rttUpdate cfg tao now).rttvar * 2 ^ (cfg.rttvarExp + 1) +
    (s.rttUpdate cfg tao now).srtt) / 8 by omega)

/-! ### Timeouts -/

theorem clampedTimeout_mem (cfg : RttSettings) (hx : 0 ≤ s.rtxcur) (hb : 0 < s.backoff) :
    0 ≤ s.clampedTimeout cfg ∧ s.clampedTimeout cfg ≤ cfg.maxrto := by
  have hmin := cfg.minrto_nonneg
  have hmax := hmin.trans cfg.minrto_le
  have hb' : (0 : ℚ) ≤ s.backoff := by exact_mod_cast hb.le
  have hcur := mul_nonneg hx hb'
  have hlow := mul_nonneg hmin hb'
  have hle : 0 ≤ (if cfg.rfc2988 then
      if s.rtxcur < cfg.minrto ∧ s.useRtt = false then cfg.minrto * s.backoff
      else s.rtxcur * s.backoff
    else if s.rtxcur * s.backoff < cfg.minrto then cfg.minrto
    else s.rtxcur * s.backoff) := by
    split_ifs <;> assumption
  unfold clampedTimeout
  generalize (if cfg.rfc2988 then _ else _) = t at hle ⊢
  dsimp only
  split
  · exact ⟨hmax, le_rfl⟩
  · next hgt => exact ⟨hle, not_lt.mp hgt⟩

/-- A timeout is not the exit with a negative one, and lies between one tick and the larger of
the bound and two ticks. -/
theorem rttTimeout_ok (cfg : RttSettings) (hx : 0 ≤ s.rtxcur) (hb : 0 < s.backoff) :
    ∃ t, s.rttTimeout cfg = .ok (t, { s with useRtt := false }) ∧ 0 < t ∧
      t ≤ max cfg.maxrto (2 * cfg.tick) := by
  have htick := cfg.tick_pos
  obtain ⟨h0, hle⟩ := clampedTimeout_mem cfg hx hb
  unfold rttTimeout
  dsimp only
  split
  · rw [if_neg h0.not_gt]
    split
    · exact ⟨_, rfl, htick, le_max_of_le_right (by linarith)⟩
    · exact ⟨_, rfl, by linarith, le_max_right _ _⟩
  · next hge => exact ⟨_, rfl, by linarith, le_max_of_le_left hle⟩

/-! ### Back-off -/

/-- The multiplier is not doubled past the largest power of two of an `int`. -/
def BackoffFits (cfg : RttSettings) (s : RttState) : Prop :=
  s.backoff < 2 ^ 30 ∨ cfg.rfc2988 = false ∨ ∀ r, s.rttTimeout cfg = .ok r → cfg.maxrto ≤ r.1

/-- What holds between the calls. -/
structure Sound (s : RttState) : Prop extends Ranged s where
  rtxcur_nonneg : 0 ≤ s.rtxcur
  backoff : ∃ k : ℕ, k ≤ 30 ∧ s.backoff = 2 ^ k

theorem Sound.backoff_pos (h : s.Sound) : 0 < s.backoff := by
  obtain ⟨k, _, hk⟩ := h.backoff
  rw [hk]; positivity

theorem Sound.useRtt (h : s.Sound) (b : Bool) : ({ s with useRtt := b } : RttState).Sound :=
  ⟨⟨h.1.1, h.1.2, h.1.3, h.1.4⟩, h.2, h.3⟩

theorem Sound.double (h : s.Sound) (hb : s.backoff < 2 ^ 30) : s.double.Sound := by
  obtain ⟨k, hk, he⟩ := h.backoff
  have hlt : k < 30 := (Nat.pow_lt_pow_iff_right (by norm_num : 1 < 2)).mp (by
    exact_mod_cast he ▸ hb)
  have hpow : (2 : ℤ) ^ (k + 1) ≤ 2 ^ 30 := pow_le_pow_right₀ (by norm_num) (by omega)
  have hpos : (0 : ℤ) < 2 ^ (k + 1) := by positivity
  refine ⟨⟨h.1.1, h.1.2, h.1.3, h.1.4⟩, h.2, k + 1, by omega, ?_⟩
  change shiftLeft s.backoff 1 = _
  unfold shiftLeft
  rw [he, pow_one, ← pow_succ, wrap32_of_lt (by omega) (by omega)]

theorem Sound.clobber (h : s.Sound) : s.clobber.Sound := by
  unfold RttState.clobber
  split
  · exact ⟨⟨by norm_num, by norm_num, le_wrap32 _, wrap32_lt _⟩, h.2, h.3⟩
  · exact h

theorem Sound.rttBackoff (h : s.Sound) (hf : s.BackoffFits cfg) :
    ∃ s', s.rttBackoff cfg = .ok s' ∧ s'.Sound := by
  unfold RttState.rttBackoff
  split
  · next hlt => exact ⟨_, rfl, (h.double (hlt.trans (by norm_num))).clobber⟩
  split
  · next hrfc =>
    obtain ⟨t, he, _⟩ := rttTimeout_ok cfg h.rtxcur_nonneg h.backoff_pos
    have hu := h.useRtt false
    rw [he]
    refine ⟨_, rfl, ?_⟩
    dsimp only
    split
    · next hlt =>
      rcases hf with hb | hno | hmax
      · exact (hu.double hb).clobber
      · simp [hno] at hrfc
      · exact absurd (hmax _ he) hlt.not_ge
    · exact hu.clobber
  · exact ⟨_, rfl, h.clobber⟩

theorem Sound.rttUpdate (h : s.Sound) (ht : Sampled cfg tao)
    (hf : s.estimate.Fits cfg.rttvarExp (rttSample cfg tao now)) :
    (s.rttUpdate cfg tao now).Sound := by
  obtain ⟨hs, hv, hfit⟩ := rttUpdate_fits h.1 ht hf
  have hle : (s.rttUpdate cfg tao now).rttvar ≤
      (s.rttUpdate cfg tao now).rttvar * 2 ^ (cfg.rttvarExp + 1) :=
    le_mul_of_one_le_right hv.le (one_le_pow₀ (by norm_num))
  refine ⟨⟨by omega, by omega, by omega, by omega⟩, rttUpdate_rtxcur h.1 ht hf, ?_⟩
  rw [(rttUpdate_rest s).1]
  exact h.backoff

theorem Sound.rttInit (hx : 0 ≤ cfg.rtxcurInit) : (s.rttInit cfg).Sound :=
  ⟨⟨le_wrap32 _, wrap32_lt _, le_wrap32 _, wrap32_lt _⟩, hx, 0, by norm_num, rfl⟩

end RttState

/-! ### Runs -/

inductive RttCall
  | init
  | update (tao now : ℚ)
  | timeout
  | backoff
  | useRtt

namespace RttCall

open RttState

variable {cfg : RttSettings} {s s' : RttState} {c : RttCall}

def Sampled (cfg : RttSettings) : RttCall → Prop
  | update tao _ => RttState.Sampled cfg tao
  | init | timeout | backoff | useRtt => True

instance : DecidablePred (RttCall.Sampled cfg)
  | update tao _ => inferInstanceAs (Decidable (RttState.Sampled cfg tao))
  | init | timeout | backoff | useRtt => isTrue trivial

/-- No change of the estimates leaves the range of its variable, nor does the multiplier. -/
def Fits (cfg : RttSettings) (s : RttState) : RttCall → Prop
  | update tao now => s.estimate.Fits cfg.rttvarExp (rttSample cfg tao now)
  | backoff => s.BackoffFits cfg
  | init | timeout | useRtt => True

def apply (cfg : RttSettings) (s : RttState) : RttCall → Except Unit RttState
  | init => .ok (s.rttInit cfg)
  | update tao now => .ok (s.rttUpdate cfg tao now)
  | timeout => (s.rttTimeout cfg).map Prod.snd
  | backoff => s.rttBackoff cfg
  | useRtt => .ok { s with useRtt := true }

theorem apply_sound (h : s.Sound) (hx : 0 ≤ cfg.rtxcurInit) (hs : c.Sampled cfg)
    (hf : c.Fits cfg s) : ∃ s', c.apply cfg s = .ok s' ∧ s'.Sound := by
  cases c with
  | init => exact ⟨_, rfl, Sound.rttInit hx⟩
  | update tao now => exact ⟨_, rfl, h.rttUpdate hs hf⟩
  | timeout =>
    obtain ⟨t, he, _⟩ := rttTimeout_ok cfg h.rtxcur_nonneg h.backoff_pos
    exact ⟨_, by simp only [apply, he]; rfl, h.useRtt false⟩
  | backoff => exact h.rttBackoff hf
  | useRtt => exact ⟨_, rfl, h.useRtt true⟩

end RttCall

open RttState

variable {cfg : RttSettings} {s : RttState}

/-- The calls to the estimator, with samples of up to 2 ^ 26 ticks. -/
def rttCalls (cfg : RttSettings) : Machine RttState RttCall Unit where
  Init s := ∃ s₀, s = RttState.rttInit cfg s₀
  Enabled _ c := c.Sampled cfg
  step s c := c.apply cfg s

instance (s : RttState) (c : RttCall) : Decidable ((rttCalls cfg).Enabled s c) :=
  inferInstanceAs (Decidable (c.Sampled cfg))

/-- The runs in which no change leaves the range of its variable. -/
def fittingCalls (cfg : RttSettings) : Machine RttState RttCall Unit :=
  (rttCalls cfg).restrict fun s c => c.Fits cfg s

theorem fittingCalls_invariant (hx : 0 ≤ cfg.rtxcurInit) :
    (fittingCalls cfg).Invariant RttState.Sound where
  init := by
    rintro _ ⟨s₀, rfl⟩
    exact .rttInit hx
  step := by
    rintro s c s' h ⟨hs, hf⟩ hstep
    obtain ⟨s₁, he, hs₁⟩ := RttCall.apply_sound h hx hs hf
    have hstep' : c.apply cfg s = .ok s' := hstep
    rw [he] at hstep'
    exact Except.ok.inj hstep' ▸ hs₁

/-- In every run in which the changes fit their variables, the multiplier is a power of two,
a timeout is positive and at most the larger of its bound and two ticks, an update follows the
recurrences over unbounded integers and leaves positive estimates, and no call exits. -/
theorem estimates_exact (hx : 0 ≤ cfg.rtxcurInit) (h : (fittingCalls cfg).Reachable s) :
    (∃ k : ℕ, s.backoff = 2 ^ k) ∧
      (∃ t s', s.rttTimeout cfg = .ok (t, s') ∧ 0 < t ∧ t ≤ max cfg.maxrto (2 * cfg.tick)) ∧
      (∀ tao now, 0 ≤ tao → tao ≤ 2 ^ 26 * cfg.tick →
        s.estimate.Fits cfg.rttvarExp (rttSample cfg tao now) →
        (s.rttUpdate cfg tao now).estimate = s.estimate.next (rttSample cfg tao now) ∧
          0 < (s.rttUpdate cfg tao now).srtt ∧ 0 < (s.rttUpdate cfg tao now).rttvar) ∧
      ∀ c, (fittingCalls cfg).Enabled s c → ∃ s', (fittingCalls cfg).step s c = .ok s' := by
  have hs := (fittingCalls_invariant hx).reachable h
  refine ⟨?_, ?_, fun tao now h0 hle hf => ?_, fun c hc => ?_⟩
  · obtain ⟨k, _, hk⟩ := hs.backoff
    exact ⟨k, hk⟩
  · obtain ⟨t, he, ht⟩ := rttTimeout_ok cfg hs.rtxcur_nonneg hs.backoff_pos
    exact ⟨t, _, he, ht⟩
  · obtain ⟨hpos, hvar, _⟩ := rttUpdate_fits hs.1 ⟨h0, hle⟩ hf
    exact ⟨rttUpdate_estimate hs.1 ⟨h0, hle⟩ hf, hpos, hvar⟩
  · obtain ⟨s', he, _⟩ := RttCall.apply_sound hs hx hc.1 hc.2
    exact ⟨s', he⟩

/-- The default settings but for the tick, which is a microsecond. -/
def microTick : RttSettings where
  tick := 1 / 1000000
  minrto := 1 / 5
  maxrto := 60
  rtxcurInit := 3
  bootTime := 0
  srttInit := 0
  rttvarInit := 12
  rttvarExp := 2
  rfc2988 := true
  tsOption := false
  tick_pos := by norm_num
  minrto_nonneg := by norm_num
  minrto_le := by norm_num

def microStart : RttState := RttState.rttInit microTick ⟨0, 0, 0, 0, 0, false⟩

theorem estimates_exact_micro : ∃ s t s', (fittingCalls microTick).Reachable s ∧
    s.srtt = 8000 ∧ s.rttTimeout microTick = .ok (t, s') ∧ 0 < t ∧ t ≤ 60 := by
  have h₀ : (fittingCalls microTick).Reachable microStart := .init ⟨_, rfl⟩
  have hs : RttState.Sampled microTick (1 / 1000) := by decide +kernel
  have hnew : microStart.estimate.srtt = 0 := by decide +kernel
  have hf : microStart.estimate.Fits 2 (rttSample microTick (1 / 1000) 1) :=
    ⟨fun h => absurd hnew h, fun h => absurd hnew h, by decide +kernel⟩
  have h₁ : (fittingCalls microTick).Reachable (microStart.rttUpdate microTick (1 / 1000) 1) :=
    h₀.step (x := .update (1 / 1000) 1) ⟨hs, hf⟩ rfl
  obtain ⟨t, s', he, hpos, hle⟩ := (estimates_exact (by decide) h₁).2.1
  exact ⟨_, t, s', h₁, by decide +kernel, he, hpos, hle.trans (by decide +kernel)⟩

/-- The sample of 65537 ticks, after one of a single tick, is 65536 ticks off and changes
nothing. -/
theorem estimates_stuck : ∃ s, (rttCalls microTick).Reachable s ∧
    RttState.Sampled microTick (65537 / 1000000) ∧
    rttSample microTick (65537 / 1000000) 2 = 65537 ∧
    (s.rttUpdate microTick (65537 / 1000000) 2).srtt = 8 ∧
    (s.estimate.next 65537).srtt = 65544 := by
  have h₀ : (rttCalls microTick).Reachable microStart := .init ⟨_, rfl⟩
  obtain ⟨s, hr, hp⟩ := h₀.exists_of_exec [.update (1 / 1000000) 1]
    (fun s => (s.rttUpdate microTick (65537 / 1000000) 2).srtt = 8 ∧
      (s.estimate.next 65537).srtt = 65544) (by decide +kernel)
  exact ⟨s, hr, by decide +kernel, by decide +kernel, of_decide_eq_true hp⟩

end Ns2XPass
