import Ns2XPass.Library.Except

/-! # Simulations between objects

An object answers each call and moves on, or stops. A simulation relates the
states of two objects such that each call that is legal for the second object
gets the same answer from both, which then holds of whole sequences of calls.
-/

namespace Ns2XPass

variable {σ τ υ ι ο ε : Type}

/-- The answers to a sequence of calls and the state after it. -/
def answers (call : ι → σ → Except ε (ο × σ)) : List ι → σ → Except ε (List ο × σ)
  | [], s => .ok ([], s)
  | x :: xs, s => do
    let (o, s) ← call x s
    let (os, s) ← answers call xs s
    return (o :: os, s)

/-- The calls of a sequence are legal in the states in which an object meets them. -/
def LegalCalls (call : ι → τ → Except ε (ο × τ)) (Legal : τ → ι → Prop) : List ι → τ → Prop
  | [], _ => True
  | x :: xs, t => Legal t x ∧ ∀ o t', call x t = .ok (o, t') → LegalCalls call Legal xs t'

instance instDecidableLegalCalls {call : ι → τ → Except ε (ο × τ)} {Legal : τ → ι → Prop}
    [∀ t x, Decidable (Legal t x)] : ∀ xs t, Decidable (LegalCalls call Legal xs t)
  | [], _ => .isTrue trivial
  | x :: xs, t =>
    match h : call x t with
    | .error _ => decidable_of_iff (Legal t x) (by simp [LegalCalls, h])
    | .ok (o, t') =>
      have : Decidable (LegalCalls call Legal xs t') := instDecidableLegalCalls xs t'
      decidable_of_iff (Legal t x ∧ LegalCalls call Legal xs t') (by simp [LegalCalls, h])

/-- Legal calls get the answer that the specification gives, and neither object stops. -/
def Simulates (impl : ι → σ → Except ε (ο × σ)) (spec : ι → τ → Except ε (ο × τ))
    (Legal : τ → ι → Prop) (R : σ → τ → Prop) : Prop :=
  ∀ s t x, R s t → Legal t x →
    ∃ o s' t', impl x s = .ok (o, s') ∧ spec x t = .ok (o, t') ∧ R s' t'

variable {impl : ι → σ → Except ε (ο × σ)} {spec : ι → τ → Except ε (ο × τ)}
  {abs : ι → υ → Except ε (ο × υ)} {Legal : τ → ι → Prop} {R : σ → τ → Prop} {S : τ → υ → Prop}
  {s : σ} {t : τ}

theorem answers_cons {o : ο} {os : List ο} {x : ι} {xs : List ι} {s' s'' : σ}
    (h : impl x s = .ok (o, s')) (hs : answers impl xs s' = .ok (os, s'')) :
    answers impl (x :: xs) s = .ok (o :: os, s'') :=
  bind_eq_ok.mpr ⟨_, h, bind_eq_ok.mpr ⟨_, hs, rfl⟩⟩

/-- The same for calls that are, besides, admissible for the first object. -/
theorem answers_of_admissible {Admissible : σ → ι → Prop}
    (h : ∀ s t x, R s t → Admissible s x → Legal t x →
      ∃ o s' t', impl x s = .ok (o, s') ∧ spec x t = .ok (o, t') ∧ R s' t')
    {xs : List ι} (hR : R s t) (ha : LegalCalls impl Admissible xs s)
    (hl : LegalCalls spec Legal xs t) :
    ∃ os s' t', answers impl xs s = .ok (os, s') ∧ answers spec xs t = .ok (os, t') ∧ R s' t' := by
  induction xs generalizing s t with
  | nil => exact ⟨[], s, t, rfl, rfl, hR⟩
  | cons x xs ih =>
    obtain ⟨o, s₁, t₁, hi, hs, hR₁⟩ := h s t x hR ha.1 hl.1
    obtain ⟨os, s₂, t₂, hi', hs', hR₂⟩ := ih hR₁ (ha.2 o s₁ hi) (hl.2 o t₁ hs)
    exact ⟨o :: os, s₂, t₂, answers_cons hi hi', answers_cons hs hs', hR₂⟩

theorem Simulates.answers (h : Simulates impl spec Legal R) {xs : List ι} (hR : R s t)
    (hl : LegalCalls spec Legal xs t) :
    ∃ os s' t', answers impl xs s = .ok (os, s') ∧ answers spec xs t = .ok (os, t') ∧
      R s' t' := by
  induction xs generalizing s t with
  | nil => exact ⟨[], s, t, rfl, rfl, hR⟩
  | cons x xs ih =>
    obtain ⟨o, s₁, t₁, hi, hs, hR₁⟩ := h s t x hR hl.1
    obtain ⟨os, s₂, t₂, hi', hs', hR₂⟩ := ih hR₁ (hl.2 o t₁ hs)
    exact ⟨o :: os, s₂, t₂, answers_cons hi hi', answers_cons hs hs', hR₂⟩

theorem LegalCalls.mono {Legal' : τ → ι → Prop} (h : ∀ t x, Legal t x → Legal' t x) {xs : List ι}
    (hx : LegalCalls spec Legal xs t) : LegalCalls spec Legal' xs t := by
  induction xs generalizing t with
  | nil => trivial
  | cons x xs ih => exact ⟨h t x hx.1, fun o t' ht => ih (hx.2 o t' ht)⟩

/-- Calls that are legal for an abstract object are legal for the one that simulates it. -/
theorem Simulates.legalCalls {Legal' : υ → ι → Prop} (h : Simulates spec abs Legal' S)
    (hl : ∀ t u x, S t u → Legal' u x → Legal t x) {xs : List ι} {u : υ} (hS : S t u)
    (hu : LegalCalls abs Legal' xs u) : LegalCalls spec Legal xs t := by
  induction xs generalizing t u with
  | nil => trivial
  | cons x xs ih =>
    refine ⟨hl t u x hS hu.1, fun o t' ht => ?_⟩
    obtain ⟨o', t'', u', hs, ha, hS'⟩ := h t u x hS hu.1
    obtain ⟨rfl, rfl⟩ : o = o' ∧ t' = t'' := by simpa [ht] using hs
    exact ih hS' (hu.2 o u' ha)

end Ns2XPass
