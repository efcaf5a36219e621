import Mathlib.Data.Nat.Bitwise
import Mathlib.Tactic.Ring

/-! # Fields of bits in a word

A word whose lowest bits are free takes a field by bitwise or, which is a sum
there. A mask of one bit picks that bit.
-/

namespace Ns2XPass

variable {a b c f k s x : ℕ}

theorem or_eq_add_of_free (ha : a % 2 ^ f = 0) (hb : b < 2 ^ f) : a ||| b = a + b := by
  obtain ⟨m, rfl⟩ := Nat.dvd_of_mod_eq_zero ha
  have h := Nat.shiftLeft_add_eq_or_of_lt hb m
  rw [Nat.shiftLeft_eq, mul_comm m] at h
  exact h.symm

/-- What is written in the free bits does not show above them. -/
theorem add_div_of_free (ha : a % 2 ^ f = 0) (hb : b < 2 ^ f) (hs : f ≤ s) :
    (a + b) / 2 ^ s = a / 2 ^ s := by
  obtain ⟨m, rfl⟩ := Nat.dvd_of_mod_eq_zero ha
  obtain ⟨t, rfl⟩ := Nat.exists_eq_add_of_le hs
  rw [pow_add, ← Nat.div_div_eq_div_mul, ← Nat.div_div_eq_div_mul,
    Nat.mul_add_div (Nat.two_pow_pos _), Nat.div_eq_of_lt hb, add_zero,
    Nat.mul_div_cancel_left _ (Nat.two_pow_pos _)]

theorem and_two_pow_shiftRight : (a &&& 2 ^ k) >>> k = a / 2 ^ k % 2 := by
  rw [Nat.and_two_pow, Nat.shiftRight_eq_div_pow, Nat.mul_div_cancel _ (Nat.two_pow_pos _),
    Nat.toNat_testBit]

/-- A bit of a number adds nothing to it. -/
theorem bit_mul_two_pow_or : x / 2 ^ k % 2 * 2 ^ k ||| x = x := by
  rw [← Nat.toNat_testBit, ← Nat.and_two_pow]
  apply Nat.eq_of_testBit_eq
  intro i
  rw [Nat.testBit_or, Nat.testBit_and]
  cases x.testBit i <;> simp

/-- A field behind free bits, read back. -/
theorem add_mul_div_mod (ha : a % 2 ^ f = 0) (hx : x < 2 ^ s) (hs : s ≤ f) :
    (a + x * 2 ^ (f - s)) / 2 ^ (f - s) % 2 ^ s = x := by
  obtain ⟨m, rfl⟩ := Nat.dvd_of_mod_eq_zero ha
  obtain ⟨t, rfl⟩ := Nat.exists_eq_add_of_le hs
  have hword : 2 ^ (s + t) * m + x * 2 ^ t = 2 ^ t * (2 ^ s * m + x) := by ring
  rw [Nat.add_sub_cancel_left, hword, Nat.mul_div_cancel_left _ (Nat.two_pow_pos _),
    Nat.mul_add_mod, Nat.mod_eq_of_lt hx]

end Ns2XPass
