import Mathlib.Algebra.BigOperators.Group.Finset.Piecewise
import Mathlib.Algebra.Order.Group.Multiset

/-! # The elements of an array of bags

The first `n` bags of an array are taken together. Changing one bag changes the
whole by what that bag has gained or lost.
-/

namespace Ns2XPass

variable {α : Type*} {n : ℕ} {f g : ℕ → Multiset α} {a : α} {i : ℕ}

/-- The elements of the first `n` bags. -/
def bagOf (n : ℕ) (f : ℕ → Multiset α) : Multiset α := ∑ i ∈ Finset.range n, f i

theorem mem_bagOf : a ∈ bagOf n f ↔ ∃ i < n, a ∈ f i := by
  simp [bagOf, Multiset.mem_sum]

theorem bagOf_zero (h : ∀ i, f i = 0) : bagOf n f = 0 := Finset.sum_eq_zero fun i _ => h i

theorem bagOf_flatMap (n : ℕ) (l : ℕ → List α) :
    bagOf n (fun i => (l i : Multiset α)) = ((List.range n).flatMap l : List α) := by
  induction n with
  | zero => rfl
  | succ n ih =>
    rw [bagOf, Finset.sum_range_succ, List.range_succ, List.flatMap_append, ← Multiset.coe_add]
    congr 1
    simp

theorem bagOf_congr (h : ∀ i < n, f i = g i) : bagOf n f = bagOf n g :=
  Finset.sum_congr rfl fun i hi => h i (Finset.mem_range.mp hi)

theorem bagOf_update (hi : i < n) (b : Multiset α) :
    bagOf n (Function.update f i b) + f i = bagOf n f + b := by
  have hm : i ∈ Finset.range n := Finset.mem_range.mpr hi
  rw [bagOf, bagOf, Finset.sum_update_of_mem hm,
    Finset.sum_eq_add_sum_sdiff_singleton_of_mem hm f]
  ac_rfl

theorem bagOf_put (hi : i < n) :
    bagOf n (Function.update f i (a ::ₘ f i)) = a ::ₘ bagOf n f := by
  have h := bagOf_update (f := f) hi (a ::ₘ f i)
  rw [Multiset.add_cons, ← Multiset.cons_add] at h
  exact add_right_cancel h

theorem bagOf_take {b : Multiset α} (hi : i < n) (h : f i = a ::ₘ b) :
    bagOf n f = a ::ₘ bagOf n (Function.update f i b) := by
  have hb := bagOf_update (f := f) hi b
  rw [h, Multiset.add_cons, ← Multiset.cons_add] at hb
  exact (add_right_cancel hb).symm

end Ns2XPass
