import Mathlib.Data.List.Basic
import Mathlib.Logic.Function.Basic

/-! # Linked lists

Nodes hold a link to the next node. A segment is the list of nodes that the
links spell out from a start to a finish, neither of which has to be a node.
-/

namespace Ns2XPass

variable {α : Type*} {next next' : α → Option α} {start finish : Option α} {a : α} {as bs : List α}

/-- The links lead from `start` through the nodes of the list to `finish`. -/
def Segment (next : α → Option α) (start : Option α) : List α → Option α → Prop
  | [], finish => start = finish
  | a :: as, finish => start = some a ∧ Segment next (next a) as finish

@[simp] theorem segment_nil : Segment next start [] finish ↔ start = finish := Iff.rfl

@[simp] theorem segment_cons :
    Segment next start (a :: as) finish ↔ start = some a ∧ Segment next (next a) as finish := Iff.rfl

theorem segment_append :
    Segment next start (as ++ bs) finish ↔
      ∃ m, Segment next start as m ∧ Segment next m bs finish := by
  induction as generalizing start with
  | nil => simp
  | cons a as ih =>
    simp only [List.cons_append, segment_cons, ih]
    constructor
    · rintro ⟨hs, m, h₁, h₂⟩; exact ⟨m, ⟨hs, h₁⟩, h₂⟩
    · rintro ⟨m, ⟨hs, h₁⟩, h₂⟩; exact ⟨hs, m, h₁, h₂⟩

theorem segment_concat :
    Segment next start (as ++ [a]) finish ↔
      Segment next start as (some a) ∧ next a = finish := by
  rw [segment_append]
  constructor
  · rintro ⟨m, h, rfl, hf⟩; exact ⟨h, hf⟩
  · rintro ⟨h, hf⟩; exact ⟨some a, h, rfl, hf⟩

/-- A segment depends only on the links of its own nodes. -/
theorem Segment.congr (h : Segment next start as finish) (he : ∀ a ∈ as, next' a = next a) :
    Segment next' start as finish := by
  induction as generalizing start with
  | nil => exact h
  | cons a as ih =>
    obtain ⟨hs, h⟩ := h
    refine ⟨hs, ?_⟩
    rw [he a List.mem_cons_self]
    exact ih h fun b hb => he b (List.mem_cons_of_mem a hb)

theorem Segment.start_eq_head? (h : Segment next start as none) : start = as.head? := by
  cases as with
  | nil => exact h
  | cons a as => exact h.1

section Walk

/-- The nodes met on a walk of at most `n` steps. -/
def walk (next : α → Option α) : ℕ → Option α → List α
  | 0, _ => []
  | _ + 1, none => []
  | n + 1, some a => a :: walk next n (next a)

/-- A walk of enough steps meets all nodes of a list. -/
theorem Segment.walk_eq_of_le {n : ℕ} (h : Segment next start as none) (hn : as.length ≤ n) :
    walk next n start = as := by
  induction as generalizing start n with
  | nil =>
    obtain rfl := h
    cases n <;> rfl
  | cons a as ih =>
    obtain ⟨rfl, h⟩ := h
    obtain ⟨n, rfl⟩ : ∃ k, n = k + 1 := ⟨n - 1, by rw [List.length_cons] at hn; omega⟩
    rw [walk, ih h (by rw [List.length_cons] at hn; omega)]

theorem Segment.walk_eq (h : Segment next start as none) : walk next as.length start = as :=
  h.walk_eq_of_le (Nat.le_refl as.length)

end Walk

section Update

variable [DecidableEq α] {l : Option α}

theorem Segment.update (h : Segment next start as finish) (ha : a ∉ as) :
    Segment (Function.update next a l) start as finish := by
  apply h.congr
  rintro b hb
  exact Function.update_of_ne (ne_of_mem_of_not_mem hb ha) l next

/-- Linking the last node of a segment to another node joins the two segments. -/
theorem Segment.link (h : Segment next start (as ++ [a]) finish) (ha : a ∉ as) :
    Segment (Function.update next a l) start (as ++ [a]) l := by
  rw [segment_concat] at h ⊢
  exact ⟨h.1.update ha, Function.update_self a l next⟩

/-- A node is unlinked by giving its predecessor its own link. -/
theorem Segment.unlink {b : α} (h : Segment next start (as ++ a :: b :: bs) finish)
    (hd : (as ++ a :: b :: bs).Nodup) :
    Segment (Function.update next a (next b)) start (as ++ a :: bs) finish := by
  obtain ⟨m, has, rfl, rfl_b, hbs⟩ := segment_append.mp h
  obtain ⟨-, hd, hne⟩ := List.nodup_append.mp hd
  have ha : a ∉ as := fun hm => hne a hm a List.mem_cons_self rfl
  have hb : a ∉ bs := fun hm => (List.nodup_cons.mp hd).1 (List.mem_cons_of_mem b hm)
  rw [segment_append]
  refine ⟨some a, has.update ha, rfl, ?_⟩
  rw [Function.update_self]
  exact hbs.update hb

end Update

end Ns2XPass
