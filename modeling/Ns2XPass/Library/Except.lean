import Mathlib.Tactic.Basic

/-! # Sequencing of fallible computations

A sequenced computation yields a value exactly when each part does, and an
error exactly when some part is the first to yield it.
-/

namespace Ns2XPass

variable {ε δ α β : Type*}

theorem bind_eq_ok {ε : Type*} {α β : Type _} {x : Except ε α} {f : α → Except ε β} {b : β} :
    x >>= f = .ok b ↔ ∃ a, x = .ok a ∧ f a = .ok b := by
  cases x <;> simp [bind, Except.bind]

theorem bind_eq_error {ε : Type*} {α β : Type _} {x : Except ε α} {f : α → Except ε β} {e : ε} :
    x >>= f = .error e ↔ x = .error e ∨ ∃ a, x = .ok a ∧ f a = .error e := by
  cases x <;> simp [bind, Except.bind]

theorem map_eq_ok {x : Except ε α} {f : α → β} {b : β} :
    x.map f = .ok b ↔ ∃ a, x = .ok a ∧ f a = b := by
  cases x <;> simp [Except.map]

@[simp] theorem pure_eq_ok {a b : α} : (pure a : Except ε α) = .ok b ↔ a = b := by
  simp [pure, Except.pure]

@[simp] theorem pure_ne_error {a : α} {e : ε} : (pure a : Except ε α) ≠ .error e := by
  simp [pure, Except.pure]

@[simp] theorem mapError_eq_ok {x : Except ε α} {f : ε → δ} {a : α} :
    x.mapError f = .ok a ↔ x = .ok a := by
  cases x with
  | error e => constructor <;> rintro ⟨⟩
  | ok b => constructor <;> rintro ⟨⟩ <;> rfl

theorem mapError_eq_error {x : Except ε α} {f : ε → δ} {d : δ} :
    x.mapError f = .error d ↔ ∃ e, x = .error e ∧ f e = d := by
  cases x with
  | error e =>
    constructor
    · rintro ⟨⟩; exact ⟨e, rfl, rfl⟩
    · rintro ⟨_, ⟨⟩, rfl⟩; rfl
  | ok b =>
    constructor
    · rintro ⟨⟩
    · rintro ⟨_, ⟨⟩, _⟩

/-- What every part of a loop preserves holds when the loop ends. -/
theorem foldlM_preserves {ε : Type*} {α β : Type _} {P : β → Prop} {f : β → α → Except ε β}
    {l : List α} {b b' : β} (hb : P b)
    (hf : ∀ b a b', a ∈ l → P b → f b a = .ok b' → P b') (h : l.foldlM f b = .ok b') : P b' := by
  induction l generalizing b with
  | nil =>
    obtain rfl := pure_eq_ok.mp h
    exact hb
  | cons a l ih =>
    rw [List.foldlM_cons] at h
    obtain ⟨c, hc, h⟩ := bind_eq_ok.mp h
    exact ih (hf _ _ _ List.mem_cons_self hb hc)
      (fun b a b' ha => hf b a b' (List.mem_cons_of_mem _ ha)) h

/-- What a loop has written last is read when it ends. -/
theorem foldlM_reads {ε : Type*} {α β : Type _} {γ : Type*} {f : β → α → Except ε β}
    {read : β → γ} {set : α → Option γ}
    (hf : ∀ b a b', f b a = .ok b' → read b' = (set a).getD (read b)) {l : List α} {b b' : β}
    (h : l.foldlM f b = .ok b') : read b' = (l.reverse.findSome? set).getD (read b) := by
  induction l generalizing b with
  | nil =>
    obtain rfl := pure_eq_ok.mp h
    rfl
  | cons a l ih =>
    rw [List.foldlM_cons] at h
    obtain ⟨c, hc, h⟩ := bind_eq_ok.mp h
    rw [ih h, hf _ _ _ hc, List.reverse_cons, List.findSome?_append]
    cases hl : l.reverse.findSome? set with
    | some v => rfl
    | none =>
      rw [List.findSome?_singleton]
      rfl

/-- A loop over the parts of all elements is a loop within a loop. -/
theorem foldlM_flatMap {m : Type _ → Type _} {α γ β : Type _} [Monad m] [LawfulMonad m]
    {f : β → γ → m β} {g : α → List γ} {l : List α} {b : β} :
    (l.flatMap g).foldlM f b = l.foldlM (fun b a => (g a).foldlM f b) b := by
  induction l generalizing b with
  | nil => rfl
  | cons a l ih =>
    rw [List.flatMap_cons, List.foldlM_append, List.foldlM_cons]
    simp only [ih]

/-- A property that evaluates to true holds of the value that a computation yields. -/
theorem exists_of_toOption_any {x : Except ε α} {q : α → Prop} [DecidablePred q]
    (h : x.toOption.any (fun a => q a) = true) : ∃ a, x = .ok a ∧ q a := by
  cases x with
  | error e => exact absurd h (by simp [Except.toOption])
  | ok a => exact ⟨a, rfl, of_decide_eq_true h⟩

end Ns2XPass
