import Mathlib.Data.Nat.ModEq
import Mathlib.Tactic.Ring
import Ns2XPass.Scheduler.Buckets

/-! # The search of the calendar

Seen from the clock, the cells of one width are numbered on without end, and a
bucket holds every `nbuckets_`-th cell. The bounds of `head` accept the head of
the `k`-th bucket exactly when it is in the `k`-th cell from the clock, so the
first event accepted is the least one.
-/

namespace Ns2XPass

namespace CalendarScheduler

variable {η : Type} {cfg : CalendarConfig} {c c' : CalendarScheduler η} {e : Event η} {k : ℕ}

/-- The number of widths that have gone by before a time. -/
def cell (c : CalendarScheduler η) (t : ℚ) : ℕ := ⌊t / c.width⌋₊

/-- The `k`-th bucket from that of the clock. -/
def index (c : CalendarScheduler η) (k : ℕ) : ℕ := (c.lastbucket + k) % c.nbuckets

/-- The bound of the `k`-th visit. -/
def limit (c : CalendarScheduler η) : ℕ → ℚ
  | 0 => c.diff0
  | 1 => c.diff1
  | _ + 2 => c.diff2

section Cells

theorem Valid.cell_le (h : c.Valid) {s t : ℚ} (hst : s ≤ t) : c.cell s ≤ c.cell t :=
  Nat.floor_le_floor (div_le_div_of_nonneg_right hst h.width_pos.le)

theorem Valid.index_eq (h : c.Valid) (k : ℕ) :
    c.index k = (c.cell c.calClock + k) % c.nbuckets := by
  rw [index, h.lastbucket, hash, Nat.mod_add_mod]
  rfl

theorem Valid.index_lt (h : c.Valid) (k : ℕ) : c.index k < c.nbuckets :=
  Nat.mod_lt _ (by have := h.four_le; omega)

theorem Valid.hash_of_cell (h : c.Valid) {t : ℚ} (ht : c.cell t = c.cell c.calClock + k) :
    c.hash t = c.index k := by
  rw [h.index_eq, ← ht]
  rfl

theorem index_inj {j : ℕ} (hj : j < c.nbuckets) (hk : k < c.nbuckets)
    (he : c.index j = c.index k) : j = k := by
  have hmod : Nat.ModEq c.nbuckets j k := Nat.ModEq.add_left_cancel' c.lastbucket he
  exact hmod.eq_of_lt_of_lt hj hk

theorem Valid.exists_index (h : c.Valid) {i : ℕ} (hi : i < c.nbuckets) :
    ∃ k < c.nbuckets, c.index k = i := by
  have hl : c.lastbucket < c.nbuckets := h.lastbucket ▸ h.hash_lt _
  rcases le_or_gt c.lastbucket i with hle | hlt
  · refine ⟨i - c.lastbucket, by omega, ?_⟩
    rw [index, Nat.add_sub_of_le hle, Nat.mod_eq_of_lt hi]
  · refine ⟨i + c.nbuckets - c.lastbucket, by omega, ?_⟩
    rw [index, show c.lastbucket + (i + c.nbuckets - c.lastbucket) = i + c.nbuckets by omega,
      Nat.add_mod_right, Nat.mod_eq_of_lt hi]

/-- The cells of the `k`-th bucket. -/
theorem Valid.exists_cell (h : c.Valid) (hk : k < c.nbuckets) (ht : c.calClock ≤ e.time)
    (he : c.hash e.time = c.index k) :
    ∃ m, c.cell e.time = c.cell c.calClock + k + m * c.nbuckets := by
  obtain ⟨d, hd⟩ := Nat.exists_eq_add_of_le (h.cell_le ht)
  have hmod : Nat.ModEq c.nbuckets d k := by
    refine Nat.ModEq.add_left_cancel' (c.cell c.calClock) ?_
    rw [← hd]
    exact he.trans (h.index_eq k)
  have hdk : d % c.nbuckets = k := Eq.trans hmod (Nat.mod_eq_of_lt hk)
  refine ⟨d / c.nbuckets, ?_⟩
  have hdiv := Nat.mod_add_div' d c.nbuckets
  omega

/-- The bound of the `k`-th visit covers the `k`-th cell and ends before the next one of the same
bucket. -/
theorem Valid.limit_eq (h : c.Valid) (hk : k + 2 ≤ c.nbuckets) :
    ∃ d : ℚ, c.limit k = d * c.width ∧ k + 1 ≤ d ∧ d + 1 ≤ k + c.nbuckets := by
  have hn : (4 : ℚ) ≤ c.nbuckets := by exact_mod_cast h.four_le
  match k with
  | 0 =>
    refine ⟨c.nbuckets / 2, ?_, ?_, ?_⟩
    · rw [limit, h.diff0]
      ring
    · push_cast
      linarith
    · push_cast
      linarith
  | 1 =>
    refine ⟨c.nbuckets / 2 + 1, ?_, ?_, ?_⟩
    · rw [limit, h.diff1]
      ring
    · push_cast
      linarith
    · push_cast
      linarith
  | k + 2 =>
    have hk' : (k : ℚ) + 2 + 2 ≤ c.nbuckets := by exact_mod_cast hk
    have hk0 : (0 : ℚ) ≤ k := Nat.cast_nonneg k
    refine ⟨c.nbuckets, ?_, ?_, ?_⟩
    · rw [limit, h.diff2]
      ring
    · push_cast
      linarith
    · push_cast
      linarith

theorem Valid.cell_bounds (h : c.Valid) {t : ℚ} (ht : 0 ≤ t) :
    (c.cell t : ℚ) * c.width ≤ t ∧ t < (c.cell t + 1) * c.width := by
  have hw := h.width_pos
  exact ⟨(le_div_iff₀ hw).mp (Nat.floor_le (div_nonneg ht hw.le)),
    (div_lt_iff₀ hw).mp (Nat.lt_floor_add_one _)⟩

/-- The bound of a visit accepts the events of its cell. -/
theorem Valid.within_iff (h : c.Valid) (hk : k + 2 ≤ c.nbuckets) (ht : c.calClock ≤ e.time)
    (he : c.hash e.time = c.index k) :
    e.time - c.calClock < c.limit k ↔ c.cell e.time = c.cell c.calClock + k := by
  obtain ⟨m, hm⟩ := h.exists_cell (by omega) ht he
  obtain ⟨d, hd, hkd, hdk⟩ := h.limit_eq hk
  obtain ⟨hcl, hcu⟩ := h.cell_bounds h.clock_nonneg
  obtain ⟨hel, heu⟩ := h.cell_bounds (h.clock_nonneg.trans ht)
  have hw := h.width_pos
  have hcell : (c.cell e.time : ℚ) = c.cell c.calClock + k + m * c.nbuckets := by
    exact_mod_cast hm
  rw [hd]
  constructor
  · intro hlt
    by_contra hne
    have hm1 : 1 ≤ m := Nat.one_le_iff_ne_zero.mpr (by rintro rfl; exact hne (by omega))
    have hmn : (c.nbuckets : ℚ) ≤ m * c.nbuckets := by
      exact_mod_cast Nat.le_mul_of_pos_left c.nbuckets hm1
    have hfar : (d + c.cell c.calClock + 1) * c.width ≤ c.cell e.time * c.width :=
      mul_le_mul_of_nonneg_right (by linarith) hw.le
    linarith
  · intro hk
    have hnear : ((c.cell e.time : ℚ) + 1) * c.width ≤ (d + c.cell c.calClock) * c.width :=
      mul_le_mul_of_nonneg_right (by rw [hk]; push_cast; linarith) hw.le
    linarith

end Cells

/-! ## The visits -/

/-- The first event of the `k`-th bucket from that of the clock. -/
def headAt (c : CalendarScheduler η) (k : ℕ) : Option (Event η) := (c.buckets (c.index k)).list.head?

/-- The least of the first `k` heads, with its bucket. -/
def IsMin (c : CalendarScheduler η) (k : ℕ) : Option (ℕ × Event η) → Prop
  | none => ∀ j < k, c.headAt j = none
  | some (l, m) => (∃ j < k, l = c.index j ∧ c.headAt j = some m) ∧
      ∀ j < k, ∀ x ∈ c.headAt j, m.time ≤ x.time

/-- What the first `k` visits have seen when none of them has accepted its event. -/
structure Visited (c : CalendarScheduler η) (k : ℕ) (s : Search η) : Prop where
  i : s.i = c.index k
  outside : ∀ j < k, ∀ x ∈ c.events, c.cell x.time ≠ c.cell c.calClock + j
  isMin : c.IsMin k s.min

/-- The event in its place at the head of a bucket, before all others. -/
def Found (c : CalendarScheduler η) (l : ℕ) (e : Event η) : Prop :=
  ∃ k < c.nbuckets, l = c.index k ∧ c.headAt k = some e ∧ ∀ x ∈ c.events, e.key ≤ x.key

theorem Valid.headAt_mem (h : c.Valid) (he : c.headAt k = some e) :
    e ∈ c.events ∧ c.hash e.time = c.index k := by
  have hm : e ∈ (c.buckets (c.index k)).list := List.mem_of_mem_head? (Option.mem_def.mpr he)
  exact ⟨mem_events.mpr ⟨_, h.index_lt k, hm⟩, h.hash_eq _ (h.index_lt k) e hm⟩

theorem Valid.headAt_le (h : c.Valid) {x : Event η} (hx : x ∈ c.events)
    (hi : c.hash x.time = c.index k) : ∃ e, c.headAt k = some e ∧ e.key ≤ x.key := by
  have hm := h.mem_iff.mp hx
  rw [hi] at hm
  have ho := h.inOrder _ (h.index_lt k)
  rw [headAt]
  cases hl : (c.buckets (c.index k)).list with
  | nil =>
    rw [hl] at hm
    cases hm
  | cons e l =>
    rw [hl] at hm ho
    refine ⟨e, rfl, ?_⟩
    rcases List.mem_cons.mp hm with rfl | hm
    · exact le_rfl
    · exact ((inOrder_cons.mp ho).1 x hm).le

/-- The head of a bucket is least when it is in the first cell that holds an event. -/
theorem Valid.found_of_cell (h : c.Valid) (hk : k < c.nbuckets) (he : c.headAt k = some e)
    (hc : c.cell e.time = c.cell c.calClock + k)
    (ho : ∀ j < k, ∀ x ∈ c.events, c.cell x.time ≠ c.cell c.calClock + j) :
    c.Found (c.index k) e := by
  refine ⟨k, hk, rfl, he, fun x hx => ?_⟩
  rcases lt_trichotomy (c.cell x.time) (c.cell c.calClock + k) with hlt | heq | hgt
  · have hle := h.cell_le (h.clock_le x hx)
    obtain ⟨j, hj⟩ := Nat.exists_eq_add_of_le hle
    exact absurd hj (ho j (by omega) x hx)
  · obtain ⟨e', he', hle⟩ := h.headAt_le hx (h.hash_of_cell heq)
    obtain rfl : e = e' := Option.some.inj (he.symm.trans he')
    exact hle
  · have hlt : e.time < x.time := by
      by_contra hle
      have := h.cell_le (not_lt.mp hle)
      omega
    exact (Event.key_lt_iff.mpr (.inl hlt)).le

/-- The head of a bucket is least when no other head is due before it. -/
theorem Valid.found_of_heads (h : c.Valid) (hk : k < c.nbuckets) (he : c.headAt k = some e)
    (hl : ∀ j < c.nbuckets, ∀ x ∈ c.headAt j, e.time ≤ x.time) : c.Found (c.index k) e := by
  refine ⟨k, hk, rfl, he, fun x hx => ?_⟩
  obtain ⟨j, hj, hi⟩ := h.exists_index (h.hash_lt x.time)
  obtain ⟨y, hy, hyx⟩ := h.headAt_le hx hi.symm
  rcases (hl j hj y hy).lt_or_eq with hlt | heq
  · exact (Event.key_lt_iff.mpr (.inl hlt)).le.trans hyx
  · -- heads of one time are in one bucket
    have hij : c.index j = c.index k := by
      rw [← (h.headAt_mem hy).2, ← (h.headAt_mem he).2, heq]
    obtain rfl : j = k := index_inj hj hk hij
    obtain rfl : e = y := Option.some.inj (he.symm.trans hy)
    exact hyx

theorem Valid.next_index (h : c.Valid) (k : ℕ) :
    (if c.index k + 1 = c.nbuckets then 0 else c.index k + 1) = c.index (k + 1) := by
  have hlt := h.index_lt k
  have hadd : c.index (k + 1) = (c.index k + 1) % c.nbuckets := by
    rw [index, index, ← Nat.add_assoc, Nat.mod_add_mod]
  split_ifs with hn
  · rw [hadd, hn, Nat.mod_self]
  · rw [hadd, Nat.mod_eq_of_lt (by omega)]

theorem lt_succ_cases {j : ℕ} (h : j < k + 1) : j < k ∨ j = k := by omega

theorem IsMin.keep {p : ℕ × Event η} (h : c.IsMin k (some p))
    (hk : ∀ x ∈ c.headAt k, p.2.time ≤ x.time) : c.IsMin (k + 1) (some p) := by
  obtain ⟨⟨j, hj, hl⟩, hmin⟩ := h
  refine ⟨⟨j, by omega, hl⟩, fun i hi x hx => ?_⟩
  rcases lt_succ_cases hi with hi | rfl
  · exact hmin i hi x hx
  · exact hk x hx

theorem IsMin.replace {o : Option (ℕ × Event η)} (h : c.IsMin k o) (hk : c.headAt k = some e)
    (ho : ∀ p ∈ o, e.time ≤ p.2.time) : c.IsMin (k + 1) (some (c.index k, e)) := by
  refine ⟨⟨k, by omega, rfl, hk⟩, fun j hj x hx => ?_⟩
  rcases lt_succ_cases hj with hj | rfl
  · cases o with
    | none =>
      rw [h j hj] at hx
      cases hx
    | some p => exact (ho p rfl).trans (h.2 j hj x hx)
  · rw [Option.some.inj (hk.symm.trans hx)]

theorem IsMin.succ_none {o : Option (ℕ × Event η)} (h : c.IsMin k o) (hk : c.headAt k = none) :
    c.IsMin (k + 1) o := by
  cases o with
  | none =>
    intro j hj
    rcases lt_succ_cases hj with hj | rfl
    · exact h j hj
    · exact hk
  | some p =>
    apply h.keep
    rw [hk]
    rintro x ⟨⟩

theorem IsMin.succ_some {o : Option (ℕ × Event η)} (h : c.IsMin k o) (hk : c.headAt k = some e) :
    c.IsMin (k + 1) (if o.all (e.time < ·.2.time) then some (c.index k, e) else o) := by
  cases o with
  | none => exact h.replace hk (by rintro p ⟨⟩)
  | some p =>
    split_ifs with ho
    · have hlt : e.time < p.2.time := by simpa using ho
      apply h.replace hk
      rintro q ⟨⟩
      exact hlt.le
    · apply h.keep
      intro x hx
      rw [← Option.some.inj (hk.symm.trans hx)]
      simpa using ho

/-- The least of all heads is the least event. -/
theorem IsMin.found (hv : c.Valid) (hn : k = c.nbuckets) {l : ℕ}
    (h : c.IsMin k (some (l, e))) : c.Found l e := by
  subst hn
  obtain ⟨⟨k, hk, rfl, he⟩, hl⟩ := h
  exact hv.found_of_heads hk he hl

/-- A visit accepts the least event or goes on. -/
theorem Valid.calDequeue (h : c.Valid) (hk : k + 2 ≤ c.nbuckets) {s : Search η}
    (hs : c.Visited k s) :
    (∃ l e v, c.calDequeue (c.limit k) s = .error (l, e, v) ∧ c.Found l e) ∨
      ∃ s', c.calDequeue (c.limit k) s = .ok s' ∧ c.Visited (k + 1) s' := by
  have hout : ∀ e, c.headAt k = some e → c.cell e.time ≠ c.cell c.calClock + k →
      ∀ x ∈ c.events, c.cell x.time ≠ c.cell c.calClock + k := by
    intro e he hne x hx hc
    obtain ⟨e', he', hle⟩ := h.headAt_le hx (h.hash_of_cell hc)
    obtain rfl : e = e' := Option.some.inj (he.symm.trans he')
    obtain ⟨hm, hi⟩ := h.headAt_mem he
    obtain ⟨m, hcell⟩ := h.exists_cell (by omega) (h.clock_le e hm) hi
    have := h.cell_le (Event.time_le_of_key hle)
    omega
  rw [CalendarScheduler.calDequeue, hs.i, h.next_index]
  cases hl : (c.buckets (c.index k)).list with
  | nil =>
    have hn : c.headAt k = none := by rw [headAt, hl]; rfl
    refine .inr ⟨_, rfl, rfl, fun j hj => ?_, hs.isMin.succ_none hn⟩
    rcases lt_succ_cases hj with hj | rfl
    · exact hs.outside j hj
    · intro x hx hc
      obtain ⟨e, he, -⟩ := h.headAt_le hx (h.hash_of_cell hc)
      rw [hn] at he
      cases he
  | cons e l =>
    have he : c.headAt k = some e := by rw [headAt, hl]; rfl
    obtain ⟨hm, hi⟩ := h.headAt_mem he
    have hw := h.within_iff hk (h.clock_le e hm) hi
    dsimp only
    by_cases hc : e.time - c.calClock < c.limit k
    · exact .inl ⟨c.index k, e, _, if_pos hc,
        h.found_of_cell (by omega) he (hw.mp hc) hs.outside⟩
    · refine .inr ⟨_, if_neg hc, rfl, fun j hj => ?_, hs.isMin.succ_some he⟩
      rcases lt_succ_cases hj with hj | rfl
      · exact hs.outside j hj
      · exact hout e he fun hcell => hc (hw.mpr hcell)

theorem Valid.lastbucketDec_eq (h : c.Valid) : c.lastbucketDec = c.index (c.nbuckets - 1) := by
  have hn := h.four_le
  have hl : c.lastbucket < c.nbuckets := h.lastbucket ▸ h.hash_lt _
  rw [lastbucketDec, index]
  split_ifs with h0
  · rw [show c.lastbucket + (c.nbuckets - 1) = c.lastbucket - 1 + c.nbuckets by omega,
      Nat.add_mod_right, Nat.mod_eq_of_lt (by omega)]
  · rw [show c.lastbucket + (c.nbuckets - 1) = c.nbuckets - 1 by omega,
      Nat.mod_eq_of_lt (by omega)]

/-- The loop ends with the least event, or before the last bucket. -/
theorem Valid.searchYear (h : c.Valid) (n : ℕ) {s : Search η} (hs : c.Visited k s)
    (h2 : 2 ≤ k) (hk : k < c.nbuckets) (hn : c.nbuckets ≤ k + n) :
    (∃ l e v, c.searchYear n s = .error (l, e, v) ∧ c.Found l e) ∨
      ∃ s', c.searchYear n s = .ok s' ∧ c.Visited (c.nbuckets - 1) s' := by
  induction n generalizing k s with
  | zero => omega
  | succ n ih =>
    rw [CalendarScheduler.searchYear, hs.i, h.lastbucketDec_eq]
    by_cases hlast : k = c.nbuckets - 1
    · exact .inr ⟨s, if_pos (by rw [hlast]), hlast ▸ hs⟩
    · rw [if_neg fun he => hlast (index_inj hk (by omega) he)]
      have hlim : c.diff2 = c.limit k := by
        obtain ⟨k, rfl⟩ := Nat.exists_eq_add_of_le' h2
        rfl
      rw [hlim]
      rcases h.calDequeue (by omega) hs with ⟨l, e, v, hd, hf⟩ | ⟨s', hd, hs'⟩
      · exact .inl ⟨l, e, v, by rw [hd]; rfl, hf⟩
      · rw [hd]
        exact ih hs' (by omega) (by omega) (by omega)

theorem Valid.search (h : c.Valid) :
    (∃ l e v, c.search = .error (l, e, v) ∧ c.Found l e) ∨
      ∃ s, c.search = .ok s ∧ c.Visited (c.nbuckets - 1) s := by
  have hn := h.four_le
  have hstart : c.Visited 0 { i := c.lastbucket } := by
    refine ⟨?_, fun j hj => absurd hj (Nat.not_lt_zero j), fun j hj => absurd hj (Nat.not_lt_zero j)⟩
    exact (Nat.mod_eq_of_lt (h.lastbucket ▸ h.hash_lt _)).symm
  rw [CalendarScheduler.search, show c.diff0 = c.limit 0 from rfl]
  rcases h.calDequeue (by omega) hstart with ⟨l, e, v, hd, hf⟩ | ⟨s₁, hd, hs₁⟩
  · exact .inl ⟨l, e, v, by rw [hd]; rfl, hf⟩
  · rw [hd]
    change (∃ l e v, c.calDequeue (c.limit 1) s₁ >>= c.searchYear c.nbuckets = .error (l, e, v) ∧
      c.Found l e) ∨ ∃ s, c.calDequeue (c.limit 1) s₁ >>= c.searchYear c.nbuckets = .ok s ∧
        c.Visited (c.nbuckets - 1) s
    rcases h.calDequeue (by omega) hs₁ with ⟨l, e, v, hd, hf⟩ | ⟨s₂, hd, hs₂⟩
    · exact .inl ⟨l, e, v, by rw [hd]; rfl, hf⟩
    · rw [hd]
      exact h.searchYear c.nbuckets hs₂ (by omega) (by omega) (by omega)

/-- The search finds the least event, if there is one. -/
theorem Valid.find (h : c.Valid) (hne : c.events ≠ 0) :
    ∃ l e v, c.find = .ok (l, e, v) ∧ c.Found l e := by
  rw [CalendarScheduler.find]
  rcases h.search with ⟨l, e, v, hd, hf⟩ | ⟨s, hd, hs⟩
  · exact ⟨l, e, v, by rw [hd], hf⟩
  · have hn : c.nbuckets - 1 + 1 = c.nbuckets := by have := h.four_le; omega
    have hmin := hs.isMin
    rw [hd]
    dsimp only
    rw [hs.i]
    cases hl : (c.buckets (c.index (c.nbuckets - 1))).list with
    | nil =>
      have hlast : c.headAt (c.nbuckets - 1) = none := by rw [headAt, hl]; rfl
      have hall := hmin.succ_none hlast
      cases hm : s.min with
      | none =>
        rw [hm] at hall
        obtain ⟨x, hx⟩ := Multiset.exists_mem_of_ne_zero hne
        obtain ⟨j, hj, hi⟩ := h.exists_index (h.hash_lt x.time)
        obtain ⟨y, hy, -⟩ := h.headAt_le hx hi.symm
        rw [hall j (hn ▸ hj)] at hy
        cases hy
      | some p => exact ⟨p.1, p.2, s.visited, rfl, (hm ▸ hall).found h hn⟩
    | cons e es =>
      have hlast : c.headAt (c.nbuckets - 1) = some e := by rw [headAt, hl]; rfl
      cases hm : s.min with
      | none =>
        have hall := hmin.replace hlast (by rw [hm]; rintro p ⟨⟩)
        exact ⟨_, e, s.visited, rfl, hall.found h hn⟩
      | some p =>
        rw [hm] at hmin
        dsimp only
        split_ifs with hlt
        · have hall := hmin.keep fun x hx => (Option.some.inj (hlast.symm.trans hx)) ▸ hlt.le
          exact ⟨p.1, p.2, s.visited, rfl, hall.found h hn⟩
        · have hall := hmin.replace hlast (by rintro q ⟨⟩; exact not_lt.mp hlt)
          exact ⟨_, e, s.visited, rfl, hall.found h hn⟩

/-! ## Serving events -/

/-- The clock and the current bucket move to the least event. -/
structure Served (c c' : CalendarScheduler η) (e : Event η) : Prop where
  valid : c'.Valid
  events : c'.events = c.events
  calClock : c'.calClock = e.time
  mem : e ∈ c.events
  least : ∀ x ∈ c.events, e.key ≤ x.key

theorem Valid.head (h : c.Valid) :
    c.events = 0 ∧ c.head = .ok (none, c) ∨
      ∃ e c', c.head = .ok (some e, c') ∧ Served c c' e := by
  have hq := h.qsize
  rw [CalendarScheduler.head]
  by_cases hz : c.events = 0
  · rw [hz, Multiset.card_zero] at hq
    exact .inl ⟨hz, if_pos hq⟩
  · have hpos := Multiset.card_pos.mpr hz
    rw [if_neg (by omega)]
    obtain ⟨l, e, v, hf, k, hk, rfl, hhead, hle⟩ := h.find hz
    obtain ⟨hm, hi⟩ := h.headAt_mem hhead
    have ht := h.clock_le e hm
    rw [hf]
    refine .inr ⟨e, _, rfl, ?_, rfl, rfl, hm, hle⟩
    exact ⟨h.width_pos, h.four_le, h.diff0, h.diff1, h.diff2, hi.symm, h.clock_nonneg.trans ht,
      fun x hx => Event.time_le_of_key (hle x hx), h.inOrder, h.hash_eq, h.count, h.statQsize,
      h.qsize⟩

/-- New statistics do not touch the calendar. -/
theorem Valid.rebuilt_withStats (h : c.Valid) (d : CalendarScheduler η) :
    Rebuilt c (c.withStats d) := ⟨h.withStats d, rfl, rfl⟩

theorem Valid.observeGap (h : c.Valid) (hs : ∀ x, 0 < x → 0 < cfg.sqrt x) (e : Event η) :
    ∃ c', c.observeGap cfg e = .ok c' ∧ Rebuilt c c' := by
  have hstats := h.rebuilt_withStats
  rw [CalendarScheduler.observeGap]
  split_ifs with hadj hlast
  · exact ⟨c, rfl, hstats c⟩
  · exact ⟨_, rfl, hstats { c with lastTime := e.time }⟩
  · dsimp only
    split_ifs with hgap hround hmany
    · exact ⟨_, rfl, hstats { c with gapNum := c.gapNum + 1 }⟩
    · have hd := hstats { c with
        avgGap := (e.time - c.lastTime) / (c.gapNum + 1 : ℕ)
        gapNum := 0
        lastTime := e.time
        roundNum := c.roundNum + 1 }
      obtain ⟨f, hf, hfd⟩ := hd.valid.resize hs (n := c.nbuckets) (by have := h.four_le; omega)
      have hr := hfd.valid.rebuilt_withStats { f with roundNum := 0 }
      exact ⟨_, congrArg (Except.map _) hf, hr.valid, hfd.events, hfd.calClock⟩
    · exact ⟨_, rfl, hstats { c with
        avgGap := (e.time - c.lastTime) / (c.gapNum + 1 : ℕ)
        gapNum := 0
        lastTime := e.time
        roundNum := 0
        headSearch := 0
        insertSearch := 0 }⟩
    · exact ⟨_, rfl, hstats { c with
        avgGap := (e.time - c.lastTime) / (c.gapNum + 1 : ℕ)
        gapNum := 0
        lastTime := e.time
        roundNum := c.roundNum + 1 }⟩

/-- The least event is the head of the current bucket when the clock shows its time. -/
theorem Served.bucket (h : Served c c' e) :
    ∃ rest, (c'.buckets c'.lastbucket).list = e :: rest := by
  have hlast : c'.lastbucket = c'.hash e.time := by rw [h.valid.lastbucket, h.calClock]
  have hi := h.valid.hash_lt e.time
  rw [hlast]
  refine (h.valid.inOrder _ hi).cons_of_least ?_ fun x hx => ?_
  · exact h.valid.mem_iff.mp (h.events ▸ h.mem)
  · exact h.least x (h.events ▸ mem_events.mpr ⟨_, hi, hx⟩)

theorem Served.removeHead (h : Served c c' e) (hs : ∀ x, 0 < x → 0 < cfg.sqrt x) :
    ∃ d, c'.removeHead cfg e = .ok d ∧ d.Valid ∧ c.events = e ::ₘ d.events := by
  obtain ⟨rest, hrest⟩ := h.bucket
  have hi : c'.lastbucket < c'.nbuckets := h.valid.lastbucket ▸ h.valid.hash_lt _
  have ho := hrest ▸ h.valid.inOrder _ hi
  have hp := List.Perm.of_eq hrest
  have hu : rest.head?.all (·.time ≠ e.time) = true ↔
      e.time ∉ eventTimes (rest : Multiset (Event η)) := by
    rw [Option.all_eq_true]
    refine Iff.trans ?_ (time_not_mem_iff [] rest ho).symm
    simp
  have hv := h.valid.unlink hi hp (inOrder_cons.mp ho).2 hu
  have hev := events_unlink (rest.head?.all (·.time ≠ e.time)) hi hp
  rw [h.events] at hev
  rw [CalendarScheduler.removeHead, hrest, List.tail_cons]
  split_ifs with hfew
  · have hn : 0 < c'.nbuckets / 2 := by have := h.valid.four_le; omega
    obtain ⟨d, hd, hr⟩ := hv.resize hs hn
    exact ⟨d, hd, hr.valid, hr.events ▸ hev⟩
  · exact ⟨_, rfl, hv, hev⟩

theorem Valid.deque (h : c.Valid) (hs : ∀ x, 0 < x → 0 < cfg.sqrt x) :
    ∃ o c', c.deque cfg = .ok (o, c') ∧ c'.Valid ∧ Least c.events o ∧
      c.events = (o.toList : Multiset (Event η)) + c'.events := by
  rw [CalendarScheduler.deque]
  rcases h.head with ⟨hz, hh⟩ | ⟨e, d, hh, hd⟩
  · exact ⟨none, c, by rw [hh]; rfl, h, hz, (Multiset.zero_add c.events).symm⟩
  · obtain ⟨f, hf, hfd⟩ := hd.valid.observeGap hs e
    have hsf : Served c f e :=
      ⟨hfd.valid, hfd.events.trans hd.events, hfd.calClock.trans hd.calClock, hd.mem, hd.least⟩
    obtain ⟨c', hc, hv, hev⟩ := hsf.removeHead hs
    refine ⟨some e, c', ?_, hv, ⟨hd.mem, hd.least⟩, hev.trans (Multiset.singleton_add e _).symm⟩
    rw [hh]
    change (CalendarScheduler.observeGap cfg d e >>= _) = _
    rw [hf]
    change (CalendarScheduler.removeHead cfg f e >>= _) = _
    rw [hc]
    rfl

theorem lookup_some {u : ℤ} (hl : c.lookup u = some e) :
    e ∈ c.events ∧ e.uid = u := by
  obtain ⟨i, hi, hf⟩ := List.exists_of_findSome?_eq_some hl
  exact ⟨mem_events.mpr ⟨i, List.mem_range.mp hi, List.mem_of_find?_eq_some hf⟩,
    by simpa using List.find?_some hf⟩

theorem lookup_none {u : ℤ} (hl : c.lookup u = none) : ∀ e ∈ c.events, e.uid ≠ u := by
  intro e he
  obtain ⟨i, hi, hm⟩ := mem_events.mp he
  have hf := List.findSome?_eq_none_iff.mp hl i (List.mem_range.mpr hi)
  simpa using List.find?_eq_none.mp hf e hm

/-- The calendar serves the events with times that are not negative. -/
theorem serves [DecidableEq η] (hs : ∀ x, 0 < x → 0 < cfg.sqrt x) :
    Serves (calendarScheduler η cfg) Valid events fun _ e => 0 ≤ e.time where
  insert _ _ h ht hu := h.insert hs ht hu
  cancel _ _ h he hp := h.cancel he hp
  lookup_some _ _ _ _ hl := lookup_some hl
  lookup_none _ _ _ hl := lookup_none hl
  head c h := by
    rcases h.head with ⟨hz, hh⟩ | ⟨e, c', hh, hd⟩
    · exact ⟨none, c, hh, h, rfl, hz⟩
    · exact ⟨some e, c', hh, hd.valid, hd.events, hd.mem, hd.least⟩
  deque _ h := h.deque hs

theorem IsNew.valid (h : c.IsNew cfg) : c.Valid ∧ c.events = 0 := by
  obtain ⟨hr, hc, -⟩ := h
  have hv := valid_reinit (c := c) (n := 4) (w := 1) one_pos le_rfl hc.ge
  rwa [hc, ← hr] at hv

end CalendarScheduler

/-- Every sequence of legal calls, with times that are not negative, gets the answers of the sorted
list: the calendar hands out the pending events in their turn, whatever resizes the calls trigger,
and holds exactly the events of the list. No call aborts. -/
theorem calendar_refines_list {η : Type} [DecidableEq η] {cfg : CalendarConfig}
    (hs : ∀ x, 0 < x → 0 < cfg.sqrt x) {c : CalendarScheduler η} (hc : c.IsNew cfg)
    {xs : List (SchedulerCall η)}
    (hx : LegalCalls pendingEvents.call (AdmittedCall fun e => 0 ≤ e.time) xs []) :
    ∃ os c' q p, answers (calendarScheduler η cfg).call xs c = .ok (os, c') ∧
      answers listScheduler.call xs [] = .ok (os, q) ∧
      answers pendingEvents.call xs [] = .ok (os, p) ∧
      c'.events = q ∧ InOrder Event.key q ∧ q.Perm p := by
  obtain ⟨hv, hz⟩ := hc.valid
  obtain ⟨os, c', q, p, hc', hq, hp, -, hev, hqq, hperm⟩ :=
    (CalendarScheduler.serves hs).answers hv hz hx
  exact ⟨os, c', q, p, hc', hq, hp, hev, hqq.inOrder, hperm⟩

section Witness

/-- The square root of a fraction whose numerator and denominator are squares. -/
def fractionSqrt (x : ℚ) : ℚ := Nat.sqrt x.num.toNat / Nat.sqrt x.den

theorem fractionSqrt_pos (x : ℚ) (h : 0 < x) : 0 < fractionSqrt x := by
  have hn : 0 < x.num.toNat := Int.lt_toNat.mpr (Rat.num_pos.mpr h)
  have hnum : (0 : ℚ) < Nat.sqrt x.num.toNat := by exact_mod_cast Nat.sqrt_pos.mpr hn
  have hden : (0 : ℚ) < Nat.sqrt x.den := by exact_mod_cast Nat.sqrt_pos.mpr x.den_pos
  exact div_pos hnum hden

def snoopyConfig : CalendarConfig where
  minBinWidth := 1 / 1000
  adjustNewWidthInterval := 10
  sqrt := fractionSqrt

def newCalendar : CalendarScheduler ℕ :=
  CalendarScheduler.reinit
    { timeToNewwidth := 10, headSearch := 0, insertSearch := 0, roundNum := 0, gapNum := 0,
      lastTime := -2, avgGap := -2, width := 1, diff0 := 0, diff1 := 0, diff2 := 0, statQsize := 0,
      nbuckets := 4, lastbucket := 0, topThreshold := 0, botThreshold := 0, buckets := fun _ => {},
      qsize := 0, calClock := 0 } 4 1 0

/-- Ten events, two of them of one time, that make the calendar grow, and an event in the past. -/
def growingCalls : List (SchedulerCall ℕ) :=
  [.insert ⟨0, 1, 0⟩, .insert ⟨7, 2, 1⟩, .insert ⟨14, 3, 2⟩, .insert ⟨21, 4, 3⟩,
    .insert ⟨28, 5, 4⟩, .insert ⟨35, 6, 5⟩, .insert ⟨42, 7, 6⟩, .insert ⟨49, 8, 7⟩,
    .insert ⟨56, 9, 8⟩, .insert ⟨14, 10, 9⟩, .deque, .deque, .insert ⟨1, 11, 10⟩,
    .cancel ⟨14, 3, 2⟩, .head, .deque, .deque]

theorem calendar_refines_list_growing : ∃ os c, answers (calendarScheduler ℕ snoopyConfig).call
    growingCalls newCalendar = .ok (os, c) ∧
    os.drop 10 = [some ⟨0, 1, 0⟩, some ⟨7, 2, 1⟩, none, some ⟨14, -3, 2⟩, some ⟨1, 11, 10⟩,
      some ⟨1, 11, 10⟩, some ⟨14, 10, 9⟩] := by
  have hnew : newCalendar.IsNew snoopyConfig :=
    ⟨rfl, rfl, fun _ => ⟨rfl, rfl, rfl, rfl, rfl, rfl, rfl⟩⟩
  have hx : LegalCalls pendingEvents.call (AdmittedCall fun e => 0 ≤ e.time) growingCalls [] := by
    decide
  obtain ⟨os, c, q, p, hc, -, hp, -⟩ :=
    calendar_refines_list fractionSqrt_pos hnew hx
  refine ⟨os, c, hc, ?_⟩
  have hrun : (answers pendingEvents.call growingCalls []).map (fun r => r.1.drop 10) = .ok
      [some ⟨0, 1, 0⟩, some ⟨7, 2, 1⟩, none, some ⟨14, -3, 2⟩, some ⟨1, 11, 10⟩,
        some ⟨1, 11, 10⟩, some ⟨14, 10, 9⟩] := by rfl
  rw [hp] at hrun
  exact Except.ok.inj hrun

end Witness

end Ns2XPass
