import Mathlib.Data.Rat.Floor
import Mathlib.Tactic.Linarith

/-! # Conversions between the number types of the simulator

Clocks and rates are exact rationals here. A conversion of a `double` to an
`int` truncates toward zero, and arithmetic on `int` wraps modulo `2 ^ 32`.
-/

namespace Ns2XPass

/-- `(int)x` for a `double` in the range of `int`. -/
def toInt (x : ℚ) : ℤ := x.num.tdiv x.den

/-- The value an `int` holds after arithmetic that may leave its range. -/
def wrap32 (x : ℤ) : ℤ := x.bmod (2 ^ 32)

/-- The value a `short` holds after arithmetic that may leave its range. -/
def wrap16 (x : ℤ) : ℤ := x.bmod (2 ^ 16)

/-- `fmod(x, y)` -/
def fmod (x y : ℚ) : ℚ := x - y * toInt (x / y)

theorem toInt_of_nonneg {x : ℚ} (h : 0 ≤ x) : toInt x = ⌊x⌋ := by
  rw [toInt, Int.tdiv_eq_ediv_of_nonneg (Rat.num_nonneg.mpr h), Rat.floor_def']

theorem toInt_neg (x : ℚ) : toInt (-x) = -toInt x := by
  unfold toInt
  rw [Rat.neg_num, Rat.neg_den, Int.neg_tdiv]

theorem le_toInt {x : ℚ} {n : ℤ} (h : 0 ≤ x) (hn : (n : ℚ) ≤ x) : n ≤ toInt x := by
  rw [toInt_of_nonneg h]; exact Int.le_floor.mpr hn

/-- A conversion moves a number by less than one. -/
theorem abs_sub_toInt_lt (x : ℚ) : |x - toInt x| < 1 := by
  rcases le_total 0 x with h | h
  · rw [toInt_of_nonneg h, abs_lt]
    constructor <;> linarith [Int.floor_le x, Int.lt_floor_add_one x]
  · have hneg : 0 ≤ -x := neg_nonneg.mpr h
    have he : x - toInt x = -(-x - toInt (-x)) := by rw [toInt_neg]; push_cast; ring
    rw [he, abs_neg, toInt_of_nonneg hneg, abs_lt]
    constructor <;> linarith [Int.floor_le (-x), Int.lt_floor_add_one (-x)]

theorem toInt_le {x : ℚ} {n : ℤ} (h : x ≤ n) : toInt x ≤ n := by
  have hlt : (toInt x : ℚ) < n + 1 := by linarith [(abs_lt.mp (abs_sub_toInt_lt x)).1]
  exact_mod_cast Int.lt_add_one_iff.mp (by exact_mod_cast hlt)

theorem fmod_lt {x y : ℚ} (hy : 0 < y) : |fmod x y| < y := by
  have he : fmod x y = y * (x / y - toInt (x / y)) := by
    unfold fmod
    field_simp
  rw [he, abs_mul, abs_of_pos hy]
  exact mul_lt_of_lt_one_right hy (abs_sub_toInt_lt _)

theorem wrap16_of_lt {x : ℤ} (hl : -2 ^ 15 ≤ x) (hu : x < 2 ^ 15) : wrap16 x = x := by
  unfold wrap16; rw [Int.bmod_def]; omega

theorem wrap32_of_lt {x : ℤ} (hl : -2 ^ 31 ≤ x) (hu : x < 2 ^ 31) : wrap32 x = x := by
  unfold wrap32; rw [Int.bmod_def]; omega

theorem wrap32_of_ge {x : ℤ} (hl : 2 ^ 31 ≤ x) (hu : x < 2 ^ 32) : wrap32 x = x - 2 ^ 32 := by
  unfold wrap32; rw [Int.bmod_def]; omega

theorem wrap32_of_neg {x : ℤ} (hl : -2 ^ 32 ≤ x) (hu : x < -2 ^ 31) :
    wrap32 x = x + 2 ^ 32 := by
  unfold wrap32; rw [Int.bmod_def]; omega

theorem wrap32_lt (x : ℤ) : wrap32 x < 2 ^ 31 := by
  unfold wrap32; rw [Int.bmod_def]; omega

theorem le_wrap32 (x : ℤ) : -2 ^ 31 ≤ wrap32 x := by
  unfold wrap32; rw [Int.bmod_def]; omega

/-- An `int` moves along with a number as long as it stays in range. -/
theorem wrap32_add_eq_iff {x k : ℤ} (hk : 0 ≤ k) :
    wrap32 (x + k) = wrap32 x + k ↔ wrap32 x + k < 2 ^ 31 := by
  constructor
  · intro h
    rw [← h]
    exact wrap32_lt _
  · intro h
    have hlo := le_wrap32 x
    have hmod : wrap32 (x + k) = wrap32 (wrap32 x + k) := by
      unfold wrap32
      rw [Int.bmod_add_bmod]
    rw [hmod]
    exact wrap32_of_lt (by omega) h

end Ns2XPass
