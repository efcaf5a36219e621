import Mathlib.Data.List.Range
import Mathlib.Order.Interval.Finset.Nat

/-! # A window on a ring of cells

A ring of `n` cells keeps the value of the index `i` in the cell `i % n`. It
shows a window of at most `n` indices, in which no two share a cell. The window
moves as values are written at its upper end and forgotten at its lower end.
-/

namespace Ns2XPass

variable {α : Type*} {cells cells' : ℕ → α} {n m i j k lo lo' hi hi' a : ℕ} {f g : ℕ → α} {v : α}

/-- The ring shows the values of `f` at the indices from `lo` to `hi`. -/
structure Shows (cells : ℕ → α) (n : ℕ) (f : ℕ → α) (lo hi : ℕ) : Prop where
  fits : hi ≤ lo + n
  cell : ∀ i, lo ≤ i → i < hi → cells (i % n) = f i

/-- Two indices of a window do not share a cell. -/
theorem mod_ne_of_window (hi : a ≤ i) (hin : i < a + n) (hj : a ≤ j) (hjn : j < a + n)
    (hne : i ≠ j) : i % n ≠ j % n := fun h =>
  hne (Nat.mod_injOn_Ico a n (by simp [hi, hin]) (by simp [hj, hjn]) h)

theorem shows_empty : Shows cells n f lo lo :=
  ⟨Nat.le_add_right lo n, fun _ hlo hhi => absurd hlo hhi.not_ge⟩

namespace Shows

theorem mono (h : Shows cells n f lo hi) (hlo : lo ≤ lo') (hhi : hi' ≤ hi) :
    Shows cells n f lo' hi' where
  fits := by have := h.fits; omega
  cell i hi hi' := h.cell i (hlo.trans hi) (hi'.trans_le hhi)

theorem congr (h : Shows cells n f lo hi) (hfg : ∀ i, lo ≤ i → i < hi → f i = g i) :
    Shows cells n g lo hi where
  fits := h.fits
  cell i hlo hhi := (h.cell i hlo hhi).trans (hfg i hlo hhi)

/-- A value is written at an index of the window. -/
theorem write (h : Shows cells n f lo hi) (hlo : lo ≤ i) (hhi : i < hi) (v : α) :
    Shows (Function.update cells (i % n) v) n (Function.update f i v) lo hi where
  fits := h.fits
  cell j hj hj' := by
    have hfits := h.fits
    by_cases hji : j = i
    · subst hji; rw [Function.update_self, Function.update_self]
    · rw [Function.update_of_ne hji, Function.update_of_ne
        (mod_ne_of_window (n := n) hj (by omega) hlo (by omega) hji)]
      exact h.cell j hj hj'

/-- A value is written behind the window. -/
theorem extend (h : Shows cells n f lo hi) (hlo : lo ≤ hi) (hn : hi < lo + n) :
    Shows (Function.update cells (hi % n) (f hi)) n f lo (hi + 1) where
  fits := hn
  cell j hj hj' := by
    rcases Nat.lt_succ_iff_lt_or_eq.mp hj' with hlt | rfl
    · rw [Function.update_of_ne
        (mod_ne_of_window (n := n) hj (by omega) hlo (by omega) hlt.ne)]
      exact h.cell j hj hlt
    · rw [Function.update_self]

/-- Values are written behind the window one after the other. -/
theorem fill (h : Shows cells n f lo hi) (hlo : lo ≤ hi) (hk : hi + k ≤ lo + n)
    (hg : ∀ i, hi ≤ i → i < hi + k → g i = f i) :
    Shows ((List.range' hi k).foldl (fun c i => Function.update c (i % n) (g i)) cells)
      n f lo (hi + k) := by
  induction k with
  | zero => exact h
  | succ k ih =>
    rw [List.range'_1_concat, List.foldl_concat, hg (hi + k) (by omega) (by omega)]
    exact (ih (by omega) fun i h1 h2 => hg i h1 (by omega)).extend (by omega) (by omega)

end Shows

/-- A ring that is long enough takes over a window from another one. -/
theorem shows_copy (hlo : lo ≤ hi) (hm : hi ≤ lo + m) (hg : ∀ i, lo ≤ i → i < hi → g i = f i) :
    Shows ((List.range' lo (hi - lo)).foldl (fun c i => Function.update c (i % m) (g i)) cells)
      m f lo hi := by
  have hhi : lo + (hi - lo) = hi := Nat.add_sub_cancel' hlo
  have hempty : Shows cells m f lo lo := shows_empty
  have h := hempty.fill (k := hi - lo) le_rfl (by omega) fun i h1 h2 => hg i h1 (by omega)
  rwa [hhi] at h

end Ns2XPass
