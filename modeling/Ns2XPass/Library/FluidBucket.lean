import Ns2XPass.Library.TokenBucket

/-! # Token buckets that are filled with parts of tokens

The bucket is filled whenever it is looked at, by what has come since then. In
every window of time it gives away at most its capacity and what comes in the
window, and it holds all that it has not given away since it was full.
-/

namespace Ns2XPass

namespace Fluid

open Bucket (total total_cons_of_mem total_cons_of_not_mem total_eq_of_past total_eq_zero_of_past)

variable {K : Type*} [Field K] [LinearOrder K] [IsStrictOrderedRing K]
variable {rate cap now t level level' : K} {log log' : List (K × ℤ)} {n : ℤ}

/-- A level after some time, in a bucket of a capacity. -/
def fill (rate cap dt level : K) : K :=
  if level + rate * dt ≤ cap then level + rate * dt else cap

omit [IsStrictOrderedRing K] in
theorem fill_le_cap (dt : K) : fill rate cap dt level ≤ cap := by
  unfold fill
  split
  · assumption
  · exact le_rfl

omit [IsStrictOrderedRing K] in
theorem fill_le (dt : K) : fill rate cap dt level ≤ level + rate * dt := by
  unfold fill
  split
  · exact le_rfl
  · exact (not_le.mp ‹_›).le

theorem le_fill {dt : K} (hr : 0 ≤ rate) (hdt : 0 ≤ dt) (hle : level ≤ cap) :
    level ≤ fill rate cap dt level := by
  unfold fill
  split
  · exact le_add_of_nonneg_right (mul_nonneg hr hdt)
  · exact hle

/-- What is taken from a bucket keeps to the rate: in every window, and with the level in every
window that ends now. -/
structure Conforms (rate cap now level : K) (log : List (K × ℤ)) : Prop where
  nonneg : 0 ≤ level
  le_cap : level ≤ cap
  past : ∀ e ∈ log, e.1 ≤ now
  window : ∀ s t, s ≤ t → (total s t log : K) ≤ cap + rate * (t - s)
  spent : ∀ s ≤ now, level + total s now log ≤ cap + rate * (now - s)

namespace Conforms

theorem start (hr : 0 ≤ rate) (h0 : 0 ≤ level) (hle : level ≤ cap) :
    Conforms rate cap now level [] where
  nonneg := h0
  le_cap := hle
  past := by simp
  window s t hst := by
    have := mul_nonneg hr (sub_nonneg.mpr hst)
    simp only [total, List.filter_nil, List.map_nil, List.sum_nil, Int.cast_zero]
    linarith
  spent s hs := by
    have := mul_nonneg hr (sub_nonneg.mpr hs)
    simp only [total, List.filter_nil, List.map_nil, List.sum_nil, Int.cast_zero]
    linarith

/-- Time passes, and the level rises by at most what comes meanwhile. -/
theorem wait (hr : 0 ≤ rate) (h : Conforms rate cap now level log) (ht : now ≤ t)
    (h0 : 0 ≤ level') (hle : level' ≤ cap) (hrise : level' ≤ level + rate * (t - now)) :
    Conforms rate cap t level' log where
  nonneg := h0
  le_cap := hle
  past e he := (h.past e he).trans ht
  window := h.window
  spent s hs := by
    rw [total_eq_of_past h.past ht]
    by_cases hs' : s ≤ now
    · have := h.spent s hs'
      linarith
    · have := mul_nonneg hr (sub_nonneg.mpr hs)
      rw [total_eq_zero_of_past h.past (not_le.mp hs'), Int.cast_zero]
      linarith

theorem refill (hr : 0 ≤ rate) (h : Conforms rate cap now level log) (ht : now ≤ t) :
    Conforms rate cap t (fill rate cap (t - now) level) log :=
  h.wait hr ht (h.nonneg.trans (le_fill hr (sub_nonneg.mpr ht) h.le_cap)) (fill_le_cap _)
    (fill_le _)

theorem spend (hr : 0 ≤ rate) (h : Conforms rate cap now level log) (hpos : 0 ≤ n)
    (hn : (n : K) ≤ level) : Conforms rate cap now (level - n) ((now, n) :: log) where
  nonneg := sub_nonneg.mpr hn
  le_cap := by
    have : (0 : K) ≤ n := by exact_mod_cast hpos
    have := h.le_cap
    linarith
  past := by simpa using h.past
  window s t hst := by
    by_cases hmem : s ≤ now ∧ now ≤ t
    · have hl := h.spent s hmem.1
      have := mul_le_mul_of_nonneg_left (sub_le_sub_right hmem.2 s) hr
      rw [total_cons_of_mem hmem, total_eq_of_past h.past hmem.2]
      push_cast
      linarith
    · rw [total_cons_of_not_mem hmem]
      exact h.window s t hst
  spent s hs := by
    have hl := h.spent s hs
    rw [total_cons_of_mem ⟨hs, le_rfl⟩]
    push_cast
    linarith

end Conforms

/-- A bucket holds what it has not given away since it was full. -/
structure Keeps (rate cap now level : K) (log : List (K × ℤ)) : Prop where
  past : ∀ e ∈ log, e.1 ≤ now
  since : ∃ s ≤ now, level = cap + rate * (now - s) - total s now log

namespace Keeps

omit [IsStrictOrderedRing K] in
theorem start : Keeps rate cap now cap [] :=
  ⟨by simp, now, le_rfl, by simp [total]⟩

omit [IsStrictOrderedRing K] in
theorem refill (h : Keeps rate cap now level log) (hle : level ≤ cap) (ht : now ≤ t) :
    Keeps rate cap t (fill rate cap (t - now) level) log := by
  obtain ⟨hpast, s, hs, hl⟩ := h
  refine ⟨fun e he => (hpast e he).trans ht, ?_⟩
  unfold fill
  split
  · refine ⟨s, hs.trans ht, ?_⟩
    rw [total_eq_of_past hpast ht, hl]
    ring
  · next hover =>
    -- the bucket is full again, so that time has passed
    have hlt : now < t := by
      rcases ht.lt_or_eq with hlt | rfl
      · exact hlt
      · rw [sub_self, mul_zero, add_zero] at hover
        exact absurd hle hover
    exact ⟨t, le_rfl, by rw [total_eq_zero_of_past hpast hlt]; simp⟩

omit [IsStrictOrderedRing K] in
theorem spend (h : Keeps rate cap now level log) :
    Keeps rate cap now (level - n) ((now, n) :: log) := by
  obtain ⟨hpast, s, hs, hl⟩ := h
  refine ⟨by simpa using hpast, s, hs, ?_⟩
  rw [total_cons_of_mem ⟨hs, le_rfl⟩, hl]
  push_cast
  ring

/-- The level suffices for all that keeps to the rate. -/
theorem enough (h : Keeps rate cap now level log)
    (hw : ∀ s t, s ≤ t → (total s t ((now, n) :: log) : K) ≤ cap + rate * (t - s)) :
    (n : K) ≤ level := by
  obtain ⟨_, s, hs, hl⟩ := h
  have hb := hw s now hs
  rw [total_cons_of_mem ⟨hs, le_rfl⟩] at hb
  push_cast at hb
  linarith

end Keeps

end Fluid

end Ns2XPass
