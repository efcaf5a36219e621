import Ns2XPass.Library.Ring

/-! # Consecutive cells of a ring

The values of consecutive cells of a ring are a list. Values that are written
one after the other replace a part of it, as long as they do not go round.
-/

namespace Ns2XPass

variable {α : Type*} {c : ℕ → α} {n p q i j k m : ℕ} {v : α} {l l' : List α}

/-- The values of `k` cells from a position on. -/
def window (c : ℕ → α) (n p k : ℕ) : List α :=
  (List.range k).map fun i => c ((p + i) % n)

/-- Write values one after the other, from a position on. -/
def writeFrom (n : ℕ) (c : ℕ → α) (p : ℕ) : List α → ℕ → α
  | [] => c
  | v :: l => writeFrom n (Function.update c (p % n) v) (p + 1) l

/-- Copy `k` cells one after the other, from the position `p` on to the position `q` on. -/
def copyCells (n : ℕ) (c : ℕ → α) : ℕ → ℕ → ℕ → ℕ → α
  | _, _, 0 => c
  | p, q, k + 1 =>
    copyCells n (Function.update c (q % n) (c (p % n))) (p + 1) (q + 1) k

@[simp] theorem length_window : (window c n p k).length = k := by simp [window]

@[simp] theorem window_zero : window c n p 0 = [] := rfl

theorem window_add :
    window c n p (j + k) = window c n p j ++ window c n (p + j) k := by
  simp [window, List.range_add, Nat.add_assoc]

theorem window_succ : window c n p (k + 1) = c (p % n) :: window c n (p + 1) k := by
  rw [Nat.add_comm, window_add]
  rfl

theorem window_congr (h : p % n = q % n) : window c n p k = window c n q k := by
  unfold window
  apply List.map_congr_left
  intro i _
  rw [Nat.add_mod, h, ← Nat.add_mod]

theorem writeFrom_congr (h : p % n = q % n) : writeFrom n c p l = writeFrom n c q l := by
  induction l generalizing c p q with
  | nil => rfl
  | cons v l ih =>
    unfold writeFrom
    rw [h]
    apply ih
    rw [Nat.add_mod, h, ← Nat.add_mod]

theorem copyCells_congr (h : p % n = q % n) (h' : i % n = j % n) :
    copyCells n c p i k = copyCells n c q j k := by
  induction k generalizing c p q i j with
  | zero => rfl
  | succ k ih =>
    unfold copyCells
    rw [h, h']
    apply ih
    · rw [Nat.add_mod, h, ← Nat.add_mod]
    · rw [Nat.add_mod, h', ← Nat.add_mod]

theorem writeFrom_append :
    writeFrom n c p (l ++ l') = writeFrom n (writeFrom n c p l) (p + l.length) l' := by
  induction l generalizing c p with
  | nil => rfl
  | cons v l ih =>
    rw [List.cons_append, writeFrom, ih, writeFrom, List.length_cons, Nat.add_right_comm p,
      Nat.add_assoc]

/-- Cells behind the one that is written keep their values. -/
theorem window_update (hp : p < q) (hq : q + k ≤ p + n) :
    window (Function.update c (p % n) v) n q k = window c n q k := by
  unfold window
  apply List.map_congr_left
  intro i hi
  have hi' := List.mem_range.mp hi
  apply Function.update_of_ne
  exact mod_ne_of_window (a := p) (n := n) (by omega) (by omega) le_rfl (by omega) (by omega)

theorem window_writeFrom_behind (hp : p + l.length ≤ q) (hq : q + k ≤ p + n) :
    window (writeFrom n c p l) n q k = window c n q k := by
  induction l generalizing c p with
  | nil => rfl
  | cons v l ih =>
    rw [List.length_cons] at hp
    rw [writeFrom, ih (by omega) (by omega)]
    exact window_update (by omega) hq

theorem window_writeFrom_self (h : l.length ≤ n) :
    window (writeFrom n c p l) n p l.length = l := by
  induction l generalizing c p with
  | nil => rfl
  | cons v l ih =>
    rw [List.length_cons] at h
    rw [List.length_cons, writeFrom, window_succ, ih (by omega)]
    have hone : window (writeFrom n (Function.update c (p % n) v) (p + 1) l) n (p + n) 1 =
        window (Function.update c (p % n) v) n (p + n) 1 :=
      window_writeFrom_behind (by omega) (by omega)
    simpa [window] using hone

/-- The values between those before and those behind them are written. -/
theorem window_writeFrom (h : i + l.length + m ≤ n) :
    window (writeFrom n c (p + i) l) n p (i + l.length + m) =
      window c n p i ++ l ++ window c n (p + i + l.length) m := by
  have hfront : window (writeFrom n c (p + i) l) n (p + n) i = window c n (p + n) i :=
    window_writeFrom_behind (by omega) (by omega)
  have hmod : (p + n) % n = p % n := Nat.add_mod_right p n
  rw [window_congr hmod, window_congr hmod] at hfront
  rw [window_add, window_add, hfront, window_writeFrom_self (by omega),
    window_writeFrom_behind (by omega) (by omega), Nat.add_assoc p]

/-- Cells may be copied to the front one after the other. -/
theorem copyCells_eq (hq : q < p) (hp : p + k ≤ q + n) :
    copyCells n c p q k = writeFrom n c q (window c n p k) := by
  induction k generalizing c p q with
  | zero => rfl
  | succ k ih =>
    rw [copyCells, window_succ, writeFrom, ih (by omega) (by omega),
      window_update (by omega) (by omega)]

/-- The position `k` cells before another one. -/
theorem back_mod (h : k ≤ n) : ((p + n - k) % n + k) % n = p % n := by
  rw [Nat.mod_add_mod, Nat.sub_add_cancel (by omega), Nat.add_mod_right]

end Ns2XPass
