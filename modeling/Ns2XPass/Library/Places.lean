import Mathlib.Data.List.Nodup

/-! # Loops that visit each place once

When each iteration of a loop changes what is at its own place, and sees there
what the loop has started with, the loop has changed all places alike.
-/

namespace Ns2XPass

variable {σ ι β : Type*} [DecidableEq ι] {f : σ → ι → σ} {c : σ → ι → β} {g : ι → β → β}
  {P : ι → Prop} {Q : σ → Prop}

/-- `P` are the places that the loop may visit, and `Q` is what every iteration keeps. -/
theorem foldl_places (hQ : ∀ s i, Q s → P i → Q (f s i))
    (hself : ∀ s i, Q s → P i → c (f s i) i = g i (c s i))
    (hother : ∀ s i j, Q s → P i → P j → j ≠ i → c (f s i) j = c s j)
    {is : List ι} (hd : is.Nodup) (hP : ∀ i ∈ is, P i) {s : σ} (hs : Q s) :
    Q (is.foldl f s) ∧ ∀ j, P j →
      c (is.foldl f s) j = if j ∈ is then g j (c s j) else c s j := by
  induction is generalizing s with
  | nil => exact ⟨hs, fun j _ => by simp⟩
  | cons i is ih =>
    obtain ⟨hi, hd⟩ := List.nodup_cons.mp hd
    have hPi : P i := hP i List.mem_cons_self
    obtain ⟨hQ', hc⟩ := ih hd (fun j hj => hP j (List.mem_cons_of_mem _ hj)) (hQ s i hs hPi)
    refine ⟨hQ', fun j hj => ?_⟩
    rw [List.foldl_cons, hc j hj]
    by_cases hji : j = i
    · subst hji
      rw [if_neg hi, if_pos List.mem_cons_self]
      exact hself s j hs hPi
    · rw [hother s i j hs hPi hj hji]
      simp [hji]

end Ns2XPass
