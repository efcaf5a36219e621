import Mathlib.Data.List.Basic

/-! # The values of an iterator

An iterator is a function that either yields a value and its next state or ends.
What it yields until it ends is a list, which is found position by position.
-/

namespace Ns2XPass

variable {σ α β : Type*} {next : σ → Option (α × σ)} {s : σ} {l l' : List α}

/-- The values that are yielded from a state on, up to the end. -/
inductive Yields (next : σ → Option (α × σ)) : σ → List α → Prop
  | nil {s : σ} (h : next s = none) : Yields next s []
  | cons {s s' : σ} {a : α} {l : List α} (h : next s = some (a, s')) (hl : Yields next s' l) :
    Yields next s (a :: l)

namespace Yields

theorem unique (h : Yields next s l) (h' : Yields next s l') : l = l' := by
  induction h generalizing l' with
  | nil hn =>
    cases h' with
    | nil => rfl
    | cons hc => rw [hn] at hc; exact absurd hc (by simp)
  | cons hc _ ih =>
    cases h' with
    | nil hn => rw [hn] at hc; exact absurd hc (by simp)
    | cons hc' hl' =>
      rw [hc] at hc'
      obtain ⟨rfl, rfl⟩ := Prod.mk.inj (Option.some.inj hc')
      rw [ih hl']

theorem iff_eq (h : Yields next s l) : Yields next s l' ↔ l' = l := by
  constructor
  · exact fun h' => h'.unique h
  · rintro rfl
    exact h

/-- A state that belongs to each position is moved to the next one, and the last one ends. -/
theorem of_positions (At : ℕ → σ → Prop)
    (step : ∀ k s, ∀ a ∈ l[k]?, At k s → ∃ s', next s = some (a, s') ∧ At (k + 1) s')
    (done : ∀ s, At l.length s → next s = none) (h : At 0 s) : Yields next s l := by
  have hdrop : ∀ n k s, k + n = l.length → At k s → Yields next s (l.drop k) := by
    intro n
    induction n with
    | zero =>
      rintro k s rfl ha
      rw [List.drop_length]
      exact .nil (done s ha)
    | succ n ih =>
      intro k s hk ha
      have hlt : k < l.length := by omega
      obtain ⟨s', hs, ha'⟩ := step k s l[k] (List.getElem?_eq_getElem hlt) ha
      rw [List.drop_eq_getElem_cons hlt]
      exact .cons hs (ih (k + 1) s' (by omega) ha')
  exact hdrop l.length 0 s (Nat.zero_add _) h

end Yields

end Ns2XPass
