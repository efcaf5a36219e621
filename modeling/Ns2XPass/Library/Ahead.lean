import Mathlib.Data.List.Nodup
import Mathlib.Data.List.Sublists

/-! # The order of two elements of a list

In a list without repetitions one of two elements stands ahead of the other.
Taking the first element to the end of the list changes the order of that
element with the others only.
-/

namespace Ns2XPass

variable {α : Type*} {as bs : List α} {a b c : α}

/-- One element stands ahead of another one in the list. -/
def Ahead (a b : α) (as : List α) : Prop := List.Sublist [a, b] as

namespace Ahead

theorem append (h : Ahead a b as) (bs : List α) : Ahead a b (as ++ bs) :=
  h.trans (List.sublist_append_left as bs)

theorem mono (h : Ahead a b as) (hs : as.Sublist bs) : Ahead a b bs := h.trans hs

theorem filter {p : α → Bool} (h : Ahead a b as) (ha : p a) (hb : p b) :
    Ahead a b (as.filter p) := by
  have := List.Sublist.filter p h
  rwa [List.filter_cons_of_pos ha, List.filter_cons_of_pos hb, List.filter_nil] at this

theorem mem_left (h : Ahead a b as) : a ∈ as := h.subset (by simp)

theorem mem_right (h : Ahead a b as) : b ∈ as := h.subset (by simp)

/-- The first element stands ahead of all others. -/
theorem first (h : b ∈ as) : Ahead a b (a :: as) := (List.singleton_sublist.mpr h).cons_cons a

/-- The last element stands behind all others. -/
theorem last (h : a ∈ as) : Ahead a b (as ++ [b]) :=
  (List.singleton_sublist.mpr h).append (List.Sublist.refl [b])

theorem of_cons (h : Ahead a b (c :: as)) (hc : c ≠ a) : Ahead a b as := by
  cases h with
  | cons _ h => exact h
  | cons_cons => exact absurd rfl hc

theorem of_append (h : Ahead a b (as ++ bs)) (ha : a ∉ as) : Ahead a b bs := by
  induction as with
  | nil => exact h
  | cons c as ih =>
    rw [List.mem_cons, not_or] at ha
    exact ih (h.of_cons (Ne.symm ha.1)) ha.2

theorem turn (h : Ahead a b (c :: as)) (hc : c ≠ a) : Ahead a b (as ++ [c]) :=
  (h.of_cons hc).append [c]

theorem erase (h : Ahead a b (as ++ c :: bs)) (ha : c ≠ a) (hb : c ≠ b) :
    Ahead a b (as ++ bs) := by
  induction as with
  | nil => exact h.of_cons ha
  | cons d as ih =>
    cases h with
    | cons _ h => exact (ih h).cons d
    | cons_cons _ h =>
      rw [List.cons_append]
      apply first
      have := List.singleton_sublist.mp h
      simpa [Ne.symm hb] using this

theorem ne (h : Ahead a b as) (hd : as.Nodup) : a ≠ b := by
  have := hd.sublist h
  simp at this
  exact this

theorem asymm (h : Ahead a b as) (hd : as.Nodup) : ¬ Ahead b a as := by
  induction as with
  | nil => exact absurd h.mem_left List.not_mem_nil
  | cons c as ih =>
    obtain ⟨hc, hd'⟩ := List.nodup_cons.mp hd
    intro h'
    by_cases hca : c = a
    · subst hca
      exact hc (h'.of_cons (h.ne hd)).mem_right
    · by_cases hcb : c = b
      · subst hcb
        exact hc (h.of_cons hca).mem_right
      · exact ih (h.of_cons hca) hd' (h'.of_cons hcb)

/-- Nothing stands ahead of the first element. -/
theorem not_first (hd : (b :: as).Nodup) : ¬ Ahead a b (b :: as) := by
  intro h
  have hb : a ∈ as := (List.mem_cons.mp h.mem_left).resolve_left (h.ne hd)
  exact h.asymm hd (first hb)

/-- The last element stands ahead of nothing. -/
theorem not_last (hd : (as ++ [a]).Nodup) : ¬ Ahead a b (as ++ [a]) := by
  intro h
  have hb : b ∈ as := by
    have := h.mem_right
    simpa [(h.ne hd).symm] using this
  exact h.asymm hd (last hb)

theorem total (ha : a ∈ as) (hb : b ∈ as) (hab : a ≠ b) : Ahead a b as ∨ Ahead b a as := by
  induction as with
  | nil => exact absurd ha List.not_mem_nil
  | cons c as ih =>
    rw [List.mem_cons] at ha hb
    rcases ha with rfl | ha
    · exact .inl (first (hb.resolve_left hab.symm))
    · rcases hb with rfl | hb
      · exact .inr (first ha)
      · exact (ih ha hb).imp (·.cons c) (·.cons c)

end Ahead

end Ns2XPass
