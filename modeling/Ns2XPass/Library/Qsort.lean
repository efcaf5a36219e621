import Mathlib.Data.List.Sort

/-! # Sorting by a comparison function

`qsort` permutes its elements, and puts them in order when the comparison is
consistent on them. When it tells all of them apart as well, the order does not
depend on where they were before.
-/

namespace Ns2XPass

variable {α : Type*}

/-- A comparison is consistent on some elements: it is total and transitive there. -/
structure Consistent (cmp : α → α → ℤ) (l : List α) : Prop where
  total : ∀ a ∈ l, ∀ b ∈ l, cmp a b ≤ 0 ∨ cmp b a ≤ 0
  trans : ∀ a ∈ l, ∀ b ∈ l, ∀ c ∈ l, cmp a b ≤ 0 → cmp b c ≤ 0 → cmp a c ≤ 0

def Sorted (cmp : α → α → ℤ) (l : List α) : Prop := l.Pairwise fun a b => cmp a b ≤ 0

/-- What the documentation of `qsort` promises. -/
structure IsQsort (qsort : (α → α → ℤ) → List α → List α) : Prop where
  perm : ∀ cmp l, (qsort cmp l).Perm l
  sorted : ∀ cmp l, Consistent cmp l → Sorted cmp (qsort cmp l)

variable {cmp : α → α → ℤ} {l l₁ l₂ : List α}

theorem Sorted.eq_of_perm (h₁ : Sorted cmp l₁) (h₂ : Sorted cmp l₂) (hp : l₁.Perm l₂)
    (ha : ∀ a ∈ l₁, ∀ b ∈ l₁, cmp a b ≤ 0 → cmp b a ≤ 0 → a = b) : l₁ = l₂ :=
  hp.eq_of_pairwise (fun a b hm hm' => ha a hm b (hp.mem_iff.mpr hm')) h₁ h₂

/-! ## A sort by insertion -/

def insertByComparison (cmp : α → α → ℤ) (a : α) : List α → List α
  | [] => [a]
  | b :: l => if cmp a b ≤ 0 then a :: b :: l else b :: insertByComparison cmp a l

def sortByInsertion (cmp : α → α → ℤ) : List α → List α
  | [] => []
  | a :: l => insertByComparison cmp a (sortByInsertion cmp l)

theorem insertByComparison_perm (cmp : α → α → ℤ) (a : α) (l : List α) :
    (insertByComparison cmp a l).Perm (a :: l) := by
  induction l with
  | nil => rfl
  | cons b l ih =>
    rw [insertByComparison]
    split_ifs
    · rfl
    · exact (ih.cons b).trans (.swap a b l)

theorem sortByInsertion_perm (cmp : α → α → ℤ) (l : List α) : (sortByInsertion cmp l).Perm l := by
  induction l with
  | nil => rfl
  | cons a l ih => exact (insertByComparison_perm cmp a _).trans (ih.cons a)

theorem Consistent.perm (h : Consistent cmp l₁) (hp : l₁.Perm l₂) : Consistent cmp l₂ where
  total a ha b hb := h.total a (hp.mem_iff.mpr ha) b (hp.mem_iff.mpr hb)
  trans a ha b hb c hc :=
    h.trans a (hp.mem_iff.mpr ha) b (hp.mem_iff.mpr hb) c (hp.mem_iff.mpr hc)

theorem Consistent.tail {a : α} (h : Consistent cmp (a :: l)) : Consistent cmp l where
  total b hb c hc := h.total b (.tail a hb) c (.tail a hc)
  trans b hb c hc d hd := h.trans b (.tail a hb) c (.tail a hc) d (.tail a hd)

theorem Sorted.insert {a : α} (h : Sorted cmp l) (hc : Consistent cmp (a :: l)) :
    Sorted cmp (insertByComparison cmp a l) := by
  induction l with
  | nil => exact List.pairwise_singleton _ a
  | cons b l ih =>
    have hmem : ∀ c ∈ b :: l, c ∈ a :: b :: l := fun c hc => .tail a hc
    obtain ⟨hb, hl⟩ := List.pairwise_cons.mp h
    rw [insertByComparison]
    split_ifs with hab
    · refine List.pairwise_cons.mpr ⟨fun c hcm => ?_, h⟩
      rcases List.mem_cons.mp hcm with rfl | hcl
      · exact hab
      · exact hc.trans a List.mem_cons_self b (hmem b List.mem_cons_self) c (hmem c hcm) hab
          (hb c hcl)
    · have hba := (hc.total a List.mem_cons_self b (hmem b List.mem_cons_self)).resolve_left hab
      refine List.pairwise_cons.mpr ⟨fun c hcm => ?_, ih hl (hc.perm (.swap b a l)).tail⟩
      rcases List.mem_cons.mp ((insertByComparison_perm cmp a l).mem_iff.mp hcm) with rfl | hcl
      · exact hba
      · exact hb c hcl

theorem isQsort_sortByInsertion : IsQsort (sortByInsertion (α := α)) where
  perm := sortByInsertion_perm
  sorted cmp l hc := by
    induction l with
    | nil => exact List.Pairwise.nil
    | cons a l ih =>
      exact (ih hc.tail).insert (hc.perm ((sortByInsertion_perm cmp l).symm.cons a))

end Ns2XPass
