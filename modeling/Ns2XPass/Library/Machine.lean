import Mathlib.Logic.Basic
import Mathlib.Tactic.Basic

/-! # Machines that may stop with an error

A machine has initial states, a guard that says which actions may happen in a
state, and a step that yields the next state or an error. Invariants hold of
every reachable state. Restricting the guard selects the runs whose steps all
meet a condition, and a history variable records what a run has done.
-/

namespace Ns2XPass

structure Machine (σ α ε : Type*) where
  Init : σ → Prop
  Enabled : σ → α → Prop
  step : σ → α → Except ε σ

namespace Machine

variable {σ α ε γ : Type*} {M : Machine σ α ε}

/-- The states of the runs that no error has stopped. -/
inductive Reachable (M : Machine σ α ε) : σ → Prop
  | init {s : σ} : M.Init s → Reachable M s
  | step {s s' : σ} {x : α} : Reachable M s → M.Enabled s x → M.step s x = .ok s' →
      Reachable M s'

/-- A property of the initial states that every step preserves. -/
structure Invariant (M : Machine σ α ε) (I : σ → Prop) : Prop where
  init : ∀ s, M.Init s → I s
  step : ∀ s x s', I s → M.Enabled s x → M.step s x = .ok s' → I s'

theorem Invariant.reachable {I : σ → Prop} (h : M.Invariant I) {s : σ} (hr : M.Reachable s) :
    I s := by
  induction hr with
  | init hi => exact h.init _ hi
  | step _ he hs ih => exact h.step _ _ _ ih he hs

theorem Reachable.invariant : M.Invariant M.Reachable :=
  ⟨fun _ => .init, fun _ _ _ => .step⟩

/-- An invariant may be proved under another one that is known already. -/
theorem Invariant.under {I J : σ → Prop} (hJ : M.Invariant J) (init : ∀ s, M.Init s → I s)
    (step : ∀ s x s', J s → I s → M.Enabled s x → M.step s x = .ok s' → I s') :
    M.Invariant fun s => J s ∧ I s where
  init s hi := ⟨hJ.init s hi, init s hi⟩
  step s x s' h he hs := ⟨hJ.step s x s' h.1 he hs, step s x s' h.1 h.2 he hs⟩

section Restrict

variable {G H : σ → α → Prop}

/-- The runs of a machine whose steps all meet a condition. -/
def restrict (M : Machine σ α ε) (G : σ → α → Prop) : Machine σ α ε where
  Init := M.Init
  Enabled s x := M.Enabled s x ∧ G s x
  step := M.step

theorem Invariant.restrict {I : σ → Prop} (h : M.Invariant I) : (M.restrict G).Invariant I :=
  ⟨h.init, fun s x s' hI he => h.step s x s' hI he.1⟩

theorem Reachable.restrict_mono (hGH : ∀ s x, G s x → H s x) {s : σ}
    (h : (M.restrict G).Reachable s) : (M.restrict H).Reachable s := by
  induction h with
  | init hi => exact .init hi
  | step _ he hs ih => exact .step ih ⟨he.1, hGH _ _ he.2⟩ hs

end Restrict

section History

variable {start : γ} {record : σ → α → σ → γ → γ}

/-- A machine beside a variable that records its run and does not influence it. -/
def withHistory (M : Machine σ α ε) (start : γ) (record : σ → α → σ → γ → γ) :
    Machine (σ × γ) α ε where
  Init p := M.Init p.1 ∧ p.2 = start
  Enabled p x := M.Enabled p.1 x
  step p x := (M.step p.1 x).map fun s' => (s', record p.1 x s' p.2)

theorem withHistory_step_iff (start : γ) {p p' : σ × γ} {x : α} :
    (M.withHistory start record).step p x = .ok p' ↔
      M.step p.1 x = .ok p'.1 ∧ p'.2 = record p.1 x p'.1 p.2 := by
  cases hs : M.step p.1 x with
  | error e => simp [withHistory, hs, Except.map]
  | ok s =>
    simp only [withHistory, hs, Except.map, Except.ok.injEq]
    constructor
    · rintro rfl; exact ⟨rfl, rfl⟩
    · rintro ⟨rfl, h⟩; exact Prod.ext rfl h.symm

theorem Reachable.of_withHistory {p : σ × γ} (h : (M.withHistory start record).Reachable p) :
    M.Reachable p.1 := by
  induction h with
  | init hi => exact .init hi.1
  | step _ he hs ih => exact .step ih he ((withHistory_step_iff start).mp hs).1

/-- Every run of a machine is the run of the machine with a history variable. -/
theorem Reachable.exists_history {s : σ} (h : M.Reachable s) :
    ∃ g, (M.withHistory start record).Reachable (s, g) := by
  induction h with
  | init hi => exact ⟨start, .init ⟨hi, rfl⟩⟩
  | @step s s' x _ he hs ih =>
    obtain ⟨g, hg⟩ := ih
    exact ⟨record s x s' g, .step hg he ((withHistory_step_iff start).mpr ⟨hs, rfl⟩)⟩

theorem Invariant.withHistory {I : σ → Prop} (h : M.Invariant I) :
    (M.withHistory start record).Invariant fun p => I p.1 :=
  ⟨fun p hi => h.init p.1 hi.1, fun p x p' hI he hs =>
    h.step p.1 x p'.1 hI he ((withHistory_step_iff start).mp hs).1⟩

end History

section Exec

variable [∀ s x, Decidable (M.Enabled s x)]

instance {G : σ → α → Prop} [∀ s x, Decidable (G s x)] (s : σ) (x : α) :
    Decidable ((M.restrict G).Enabled s x) :=
  inferInstanceAs (Decidable (M.Enabled s x ∧ G s x))

instance {start : γ} {record : σ → α → σ → γ → γ} (p : σ × γ) (x : α) :
    Decidable ((M.withHistory start record).Enabled p x) :=
  inferInstanceAs (Decidable (M.Enabled p.1 x))

/-- Follow a list of actions, as long as each is enabled and yields a state. -/
def exec (M : Machine σ α ε) [∀ s x, Decidable (M.Enabled s x)] : σ → List α → Option σ
  | s, [] => some s
  | s, x :: xs =>
    if M.Enabled s x then
      match M.step s x with
      | .ok s' => M.exec s' xs
      | .error _ => none
    else none

theorem Reachable.exec {s s' : σ} {xs : List α} (h : M.Reachable s)
    (he : M.exec s xs = some s') : M.Reachable s' := by
  induction xs generalizing s with
  | nil => obtain rfl : s = s' := Option.some.inj he; exact h
  | cons x xs ih =>
    unfold Machine.exec at he
    split at he
    · next hen =>
      split at he
      · next hs => exact ih (h.step hen hs) he
      · simp at he
    · simp at he

/-- A property that evaluates to true at the end of a list of actions holds of
some reachable state. -/
theorem Reachable.exists_of_exec {s : σ} (h : M.Reachable s) (xs : List α) (p : σ → Bool)
    (hp : (M.exec s xs).any p = true) : ∃ s', M.Reachable s' ∧ p s' = true := by
  cases he : M.exec s xs with
  | none => simp [he] at hp
  | some s' => exact ⟨s', h.exec he, by simpa [he] using hp⟩

end Exec

end Machine

end Ns2XPass
