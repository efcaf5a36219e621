import Mathlib.Algebra.BigOperators.Group.List.Basic
import Mathlib.Algebra.Ring.Int.Defs
import Ns2XPass.Library.Machine

/-! # Parts of runs

A path is a part of a run: the states it leaves, each with the action taken
there, from its start to its end. What the steps of a path add up to is
the change of a potential between its two ends.
-/

namespace Ns2XPass

namespace Machine

variable {σ α ε : Type*} {M : Machine σ α ε} {s s' t : σ} {x : α} {ts : List (σ × α)}

inductive Path (M : Machine σ α ε) : σ → List (σ × α) → σ → Prop
  | nil (s : σ) : Path M s [] s
  | cons {s s' t : σ} {x : α} {ts : List (σ × α)} : M.Enabled s x → M.step s x = .ok s' →
      Path M s' ts t → Path M s ((s, x) :: ts) t

/-- A property of every state that a path meets, its end included. -/
def Throughout (C : σ → Prop) (ts : List (σ × α)) (t : σ) : Prop := (∀ p ∈ ts, C p.1) ∧ C t

instance {C : σ → Prop} [DecidablePred C] : Decidable (Throughout C ts t) :=
  inferInstanceAs (Decidable (_ ∧ _))

theorem Throughout.tail {C : σ → Prop} {p : σ × α} (h : Throughout C (p :: ts) t) :
    Throughout C ts t :=
  ⟨fun q hq => h.1 q (List.mem_cons_of_mem p hq), h.2⟩

namespace Path

theorem append {u : σ} {us : List (σ × α)} (h : M.Path s ts t) (h' : M.Path t us u) :
    M.Path s (ts ++ us) u := by
  induction h with
  | nil => exact h'
  | cons he hx _ ih => exact .cons he hx (ih h')

theorem start_of_throughout {C : σ → Prop} (h : M.Path s ts t) (hC : Throughout C ts t) : C s := by
  cases h with
  | nil => exact hC.2
  | cons _ _ _ => exact hC.1 _ List.mem_cons_self

theorem invariant {I : σ → Prop} (h : M.Path s ts t) (hI : M.Invariant I) (hs : I s) : I t := by
  induction h with
  | nil => exact hs
  | cons he hx _ ih => exact ih (hI.step _ _ _ hs he hx)

theorem reachable (h : M.Path s ts t) (hs : M.Reachable s) : M.Reachable t :=
  h.invariant Reachable.invariant hs

theorem throughout_of_step {I : σ → Prop} (h : M.Path s ts t) (hs : I s)
    (hstep : ∀ s x s', I s → M.Enabled s x → M.step s x = .ok s' → I s') :
    Throughout I ts t := by
  induction h with
  | nil => exact ⟨by simp, hs⟩
  | cons he hx _ ih =>
    have ht := ih (hstep _ _ _ hs he hx)
    exact ⟨List.forall_mem_cons.mpr ⟨hs, ht.1⟩, ht.2⟩

theorem throughout {I : σ → Prop} (h : M.Path s ts t) (hI : M.Invariant I) (hs : I s) :
    Throughout I ts t :=
  h.throughout_of_step hs hI.step

/-- When each step moves a potential by its weight, a path moves it by the sum of its weights. -/
theorem potential {C : σ → Prop} {E : σ → α → Prop} {R : σ → ℤ → Prop} {w : σ × α → ℤ} {n : ℤ}
    (h : M.Path s ts t) (hC : Throughout C ts t) (hE : ∀ p ∈ ts, E p.1 p.2) (hs : R s n)
    (hstep : ∀ s x s' n, C s → C s' → E s x → M.Enabled s x → M.step s x = .ok s' → R s n →
      R s' (n + w (s, x))) :
    R t (n + (ts.map w).sum) := by
  induction h generalizing n with
  | nil => simpa using hs
  | @cons s s' t x ts he hx hp ih =>
    have hs' := hstep s x s' n (hC.1 _ List.mem_cons_self) (hp.start_of_throughout hC.tail)
      (hE _ List.mem_cons_self) he hx hs
    rw [List.map_cons, List.sum_cons, ← add_assoc]
    exact ih hC.tail (fun p hp => hE p (List.mem_cons_of_mem _ hp)) hs'

end Path

section Trace

variable [∀ s x, Decidable (M.Enabled s x)]

/-- Follow a list of actions and keep the states they are taken in. -/
def trace (M : Machine σ α ε) [∀ s x, Decidable (M.Enabled s x)] :
    σ → List α → Option (List (σ × α) × σ)
  | s, [] => some ([], s)
  | s, x :: xs =>
    if M.Enabled s x then
      match M.step s x with
      | .ok s' => (M.trace s' xs).map fun r => ((s, x) :: r.1, r.2)
      | .error _ => none
    else none

theorem Path.of_trace {xs : List α} (h : M.trace s xs = some (ts, t)) : M.Path s ts t := by
  induction xs generalizing s ts with
  | nil =>
    obtain ⟨rfl, rfl⟩ := Prod.mk.inj (Option.some.inj h)
    exact .nil s
  | cons x xs ih =>
    unfold Machine.trace at h
    split at h
    · next hen =>
      split at h
      · next hs =>
        obtain ⟨⟨us, u⟩, hr, he⟩ := Option.map_eq_some_iff.mp h
        obtain ⟨rfl, rfl⟩ := Prod.mk.inj he
        exact .cons hen hs (ih hr)
      · simp at h
    · simp at h

/-- What evaluates to true of the path along a list of actions holds of some path. -/
theorem Path.exists_of_trace (s : σ) (xs : List α) (p : List (σ × α) → σ → Bool)
    (h : ((M.trace s xs).any fun r => p r.1 r.2) = true) :
    ∃ ts t, M.Path s ts t ∧ p ts t = true := by
  cases hr : M.trace s xs with
  | none => simp [hr] at h
  | some r => exact ⟨r.1, r.2, .of_trace hr, by simpa [hr] using h⟩

end Trace

end Machine

end Ns2XPass
