import Mathlib.Algebra.Order.Group.Nat
import Mathlib.Data.List.Count
import Mathlib.Tactic.Ring

/-! # The ruler sequence

The lengths of the marks on a ruler that is halved `n` times: the mark in the
middle is the longest one, and on either side of it the sequence repeats. At the
place `i` it tells how often two divides `i`.
-/

namespace Ns2XPass

variable {n i k : ℕ}

def ruler : ℕ → List ℕ
  | 0 => []
  | n + 1 => ruler n ++ n :: ruler n

theorem length_ruler_succ (n : ℕ) : (ruler n).length + 1 = 2 ^ n := by
  induction n with
  | zero => rfl
  | succ n ih =>
    rw [ruler, List.length_append, List.length_cons, pow_succ, ← ih]
    ring

@[simp] theorem length_ruler : (ruler n).length = 2 ^ n - 1 :=
  Nat.eq_sub_of_add_eq (length_ruler_succ n)

theorem lt_of_mem_ruler (h : k ∈ ruler n) : k < n := by
  induction n with
  | zero => simp [ruler] at h
  | succ n ih =>
    simp only [ruler, List.mem_append, List.mem_cons] at h
    rcases h with h | rfl | h
    · exact (ih h).trans (Nat.lt_succ_self n)
    · exact Nat.lt_succ_self k
    · exact (ih h).trans (Nat.lt_succ_self n)

/-- Each mark is half as frequent as the next shorter one. -/
theorem count_ruler (h : k < n) : (ruler n).count k = 2 ^ (n - 1 - k) := by
  induction n with
  | zero => exact absurd h (Nat.not_lt_zero k)
  | succ n ih =>
    rw [ruler, List.count_append, List.count_cons, Nat.add_sub_cancel]
    rcases (Nat.lt_succ_iff.mp h).lt_or_eq with hk | rfl
    · have hne : (n == k) = false := beq_false_of_ne hk.ne'
      have hpow : n - k = n - 1 - k + 1 := by omega
      rw [ih hk, hne, hpow, pow_succ]
      simp only [Bool.false_eq_true, if_false]
      ring
    · have hnone : (ruler k).count k = 0 :=
        List.count_eq_zero.mpr fun hm => (lt_of_mem_ruler hm).false
      simp [hnone]

/-- The mark at a place, counted from one, tells how often two divides it. -/
theorem dvd_of_ruler (h : (ruler n)[i]? = some k) : 2 ^ k ∣ i + 1 ∧ ¬ 2 ^ (k + 1) ∣ i + 1 := by
  induction n generalizing i with
  | zero => simp [ruler] at h
  | succ n ih =>
    have hlen := length_ruler_succ n
    rw [ruler] at h
    rcases Nat.lt_trichotomy i (ruler n).length with hlt | rfl | hgt
    · rw [List.getElem?_append_left hlt] at h
      exact ih h
    · rw [List.getElem?_append_right le_rfl, Nat.sub_self, List.getElem?_cons_zero] at h
      obtain rfl := Option.some.inj h
      rw [hlen]
      refine ⟨dvd_rfl, fun hd => ?_⟩
      have hle := Nat.le_of_dvd (Nat.two_pow_pos n) hd
      exact hle.not_gt (Nat.pow_lt_pow_right one_lt_two (Nat.lt_succ_self n))
    · obtain ⟨j, rfl⟩ : ∃ j, i = (ruler n).length + (j + 1) :=
        ⟨i - (ruler n).length - 1, by omega⟩
      rw [List.getElem?_append_right (Nat.le_add_right ..), Nat.add_sub_cancel_left,
        List.getElem?_cons_succ] at h
      have hk : k < n := lt_of_mem_ruler (List.mem_of_getElem? h)
      have hsum : (ruler n).length + (j + 1) + 1 = 2 ^ n + (j + 1) := by omega
      obtain ⟨hd, hnd⟩ := ih h
      rw [hsum, Nat.dvd_add_right (pow_dvd_pow 2 hk.le), Nat.dvd_add_right (pow_dvd_pow 2 hk)]
      exact ⟨hd, hnd⟩

end Ns2XPass
