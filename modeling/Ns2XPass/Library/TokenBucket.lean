import Mathlib.Algebra.Order.Field.Basic
import Mathlib.Algebra.Order.Floor.Ring
import Mathlib.Tactic.LinearCombination
import Mathlib.Tactic.Linarith
import Mathlib.Tactic.Ring

/-! # Token buckets in whole tokens

A bucket is filled at a rate up to a capacity, but only when it is looked at, and
only with whole tokens: its clock moves by the time in which these came. What is
spent from it in any window of time is bounded by the capacity, the tokens of the
window and one more for the fraction that was due at its beginning.
-/

namespace Ns2XPass

structure Bucket (K : Type*) where
  tokens : ℤ
  clock : K

namespace Bucket

/-! ## Spending over time -/

section Total

variable {K : Type*} [LinearOrder K] {s t now : K} {log : List (K × ℤ)} {n : ℤ}

/-- What was spent from time `s` to time `t`. -/
def total (s t : K) (log : List (K × ℤ)) : ℤ :=
  ((log.filter fun e => s ≤ e.1 ∧ e.1 ≤ t).map (·.2)).sum

theorem total_cons_of_mem (h : s ≤ now ∧ now ≤ t) :
    total s t ((now, n) :: log) = n + total s t log := by
  simp [total, h]

theorem total_cons_of_not_mem (h : ¬ (s ≤ now ∧ now ≤ t)) :
    total s t ((now, n) :: log) = total s t log := by
  simp only [total, List.filter_cons, h, decide_false, Bool.false_eq_true, if_false]

/-- The future adds nothing. -/
theorem total_eq_of_past (h : ∀ e ∈ log, e.1 ≤ now) (ht : now ≤ t) :
    total s t log = total s now log := by
  unfold total
  congr 2
  apply List.filter_congr
  intro e he
  simp [h e he, (h e he).trans ht]

theorem total_eq_zero_of_past (h : ∀ e ∈ log, e.1 ≤ now) (hs : now < s) : total s t log = 0 := by
  have hnil : (log.filter fun e => s ≤ e.1 ∧ e.1 ≤ t) = [] := by
    rw [List.filter_eq_nil_iff]
    intro e he
    simp [(h e he).trans_lt hs]
  rw [total, hnil]
  rfl

end Total

/-! ## Refilling -/

variable {K : Type*} [Field K] [LinearOrder K] [IsStrictOrderedRing K] [FloorRing K]

variable (rate : K) (cap : ℤ) (now : K) (b : Bucket K)

def refill : Bucket K :=
  if now ≤ b.clock then b
  else
    { tokens := min (b.tokens + ⌊(now - b.clock) * rate⌋) cap
      clock := b.clock + ⌊(now - b.clock) * rate⌋ / rate }

def spend (n : ℤ) : Bucket K := { b with tokens := b.tokens - n }

/-- The tokens of the bucket and those, and the part of one, that came since its clock. -/
def level : K := b.tokens + (now - b.clock) * rate

structure Valid : Prop where
  nonneg : 0 ≤ b.tokens
  le_cap : b.tokens ≤ cap
  clock_le : b.clock ≤ now

variable {rate cap now b}

theorem clock_refill_le (hr : 0 < rate) (h : b.clock ≤ now) :
    (b.refill rate cap now).clock ≤ now := by
  unfold refill
  split_ifs
  · exact h
  · have hfloor : (⌊(now - b.clock) * rate⌋ : K) / rate ≤ now - b.clock :=
      (div_le_iff₀ hr).mpr (Int.floor_le _)
    dsimp only
    linarith

theorem refill_valid (hr : 0 < rate) (h : b.Valid cap now) :
    (b.refill rate cap now).Valid cap now := by
  refine ⟨?_, ?_, clock_refill_le hr h.clock_le⟩
  · unfold refill
    split_ifs
    · exact h.nonneg
    · have hnew : 0 ≤ ⌊(now - b.clock) * rate⌋ :=
        Int.floor_nonneg.mpr (mul_nonneg (sub_nonneg.mpr h.clock_le) hr.le)
      exact le_min (add_nonneg h.nonneg hnew) (h.nonneg.trans h.le_cap)
  · unfold refill
    split_ifs
    · exact h.le_cap
    · exact min_le_right _ _

/-- Refilling moves tokens that came since the clock into the bucket, or over its brim. -/
theorem level_refill_le (hr : 0 < rate) :
    (b.refill rate cap now).level rate now ≤ b.level rate now := by
  unfold refill
  split_ifs
  · exact le_rfl
  · have hmin : ((min (b.tokens + ⌊(now - b.clock) * rate⌋) cap : ℤ) : K) ≤
        b.tokens + ⌊(now - b.clock) * rate⌋ := by
      exact_mod_cast min_le_left _ _
    have hclock : (⌊(now - b.clock) * rate⌋ : K) / rate * rate = ⌊(now - b.clock) * rate⌋ :=
      div_mul_cancel₀ _ hr.ne'
    simp only [level]
    linear_combination hmin - hclock

/-- After refilling, less than a whole token is due. -/
theorem rest_refill_lt (hr : 0 < rate) (h : b.clock ≤ now) :
    (now - (b.refill rate cap now).clock) * rate < 1 := by
  unfold refill
  split_ifs with hle
  · rw [le_antisymm h hle, sub_self, zero_mul]
    exact one_pos
  · have hclock : (⌊(now - b.clock) * rate⌋ : K) / rate * rate = ⌊(now - b.clock) * rate⌋ :=
      div_mul_cancel₀ _ hr.ne'
    have hlt := Int.lt_floor_add_one ((now - b.clock) * rate)
    dsimp only
    linear_combination hlt - hclock

/-- If `n` tokens will have come by now, they are there after refilling. -/
theorem le_tokens_refill {n : ℤ} (hr : 0 < rate) (hn : n ≤ cap) (htok : b.tokens < n)
    (hdue : (n : K) ≤ b.level rate now) : n ≤ (b.refill rate cap now).tokens := by
  have hfloor : n - b.tokens ≤ ⌊(now - b.clock) * rate⌋ := by
    rw [Int.le_floor]
    push_cast
    rw [level] at hdue
    linarith
  have hlt : ¬ now ≤ b.clock := by
    intro hle
    have hneg : (now - b.clock) * rate ≤ 0 := mul_nonpos_of_nonpos_of_nonneg (by linarith) hr.le
    have := Int.floor_nonpos hneg
    omega
  rw [refill, if_neg hlt]
  exact le_min (by omega) hn

/-! ## Conformance -/

/-- The bucket and the log of what was spent from it keep to the rate: in every window, and
with the tokens at hand in every window that ends now. -/
structure Conforms (rate : K) (cap : ℤ) (now : K) (b : Bucket K) (log : List (K × ℤ)) : Prop where
  valid : b.Valid cap now
  past : ∀ e ∈ log, e.1 ≤ now
  window : ∀ s t, s ≤ t → (total s t log : K) ≤ cap + rate * (t - s) + 1
  level : ∀ s ≤ now, total s now log = 0 ∨
    b.level rate now + total s now log ≤ cap + rate * (now - s) + 1

variable {log : List (K × ℤ)}

theorem Conforms.start (hr : 0 < rate) (h : b.Valid cap now) : Conforms rate cap now b [] where
  valid := h
  past := by simp
  window s t hst := by
    have hcap : (0 : K) ≤ cap := Int.cast_nonneg (h.nonneg.trans h.le_cap)
    have := mul_nonneg hr.le (sub_nonneg.mpr hst)
    simp only [total, List.filter_nil, List.map_nil, List.sum_nil, Int.cast_zero]
    linarith
  level _ _ := .inl rfl

omit [FloorRing K] in
theorem Conforms.wait (h : Conforms rate cap now b log) {t : K} (ht : now ≤ t) :
    Conforms rate cap t b log where
  valid := ⟨h.valid.nonneg, h.valid.le_cap, h.valid.clock_le.trans ht⟩
  past e he := (h.past e he).trans ht
  window := h.window
  level s hs := by
    rw [total_eq_of_past h.past ht]
    by_cases hs' : s ≤ now
    · apply (h.level s hs').imp_right
      intro hl
      simp only [Bucket.level] at hl ⊢
      linear_combination hl
    · exact .inl (total_eq_zero_of_past h.past (not_le.mp hs'))

theorem Conforms.refill (hr : 0 < rate) (h : Conforms rate cap now b log) :
    Conforms rate cap now (b.refill rate cap now) log where
  valid := refill_valid hr h.valid
  past := h.past
  window := h.window
  level s hs := by
    apply (h.level s hs).imp_right
    intro hl
    have : (b.refill rate cap now).level rate now ≤ b.level rate now := level_refill_le hr
    linarith

/-- Tokens are spent right after the bucket was refilled. -/
theorem Conforms.spend (hr : 0 < rate) (h : Conforms rate cap now b log)
    (hrest : (now - b.clock) * rate < 1) {n : ℤ} (hpos : 0 ≤ n) (hn : n ≤ b.tokens) :
    Conforms rate cap now (b.spend n) ((now, n) :: log) := by
  have hnK : (n : K) ≤ b.tokens := Int.cast_le.mpr hn
  have hcap : (b.tokens : K) ≤ cap := Int.cast_le.mpr h.valid.le_cap
  have hdue : 0 ≤ (now - b.clock) * rate :=
    mul_nonneg (sub_nonneg.mpr h.valid.clock_le) hr.le
  have hlevel : ∀ s ≤ now, b.level rate now + total s now log ≤ cap + rate * (now - s) + 1 := by
    intro s hs
    rcases h.level s hs with h0 | hl
    · have := mul_nonneg hr.le (sub_nonneg.mpr hs)
      simp only [Bucket.level, h0, Int.cast_zero]
      linarith
    · exact hl
  constructor
  · refine ⟨?_, ?_, h.valid.clock_le⟩
    · simp only [Bucket.spend]; omega
    · have := h.valid.le_cap
      simp only [Bucket.spend]; omega
  · simpa using h.past
  · intro s t hst
    by_cases hmem : s ≤ now ∧ now ≤ t
    · have hl := hlevel s hmem.1
      have := mul_le_mul_of_nonneg_left (sub_le_sub_right hmem.2 s) hr.le
      rw [total_cons_of_mem hmem, total_eq_of_past h.past hmem.2]
      simp only [Bucket.level] at hl
      push_cast
      linarith
    · rw [total_cons_of_not_mem hmem]
      exact h.window s t hst
  · intro s hs
    right
    have hl := hlevel s hs
    rw [total_cons_of_mem ⟨hs, le_rfl⟩]
    simp only [Bucket.level, Bucket.spend] at hl ⊢
    push_cast
    linarith

end Bucket

end Ns2XPass
