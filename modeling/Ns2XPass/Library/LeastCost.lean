import Mathlib.Algebra.Order.Ring.Int
import Mathlib.Algebra.Order.Monoid.Defs
import Mathlib.Algebra.Order.Monoid.Unbundled.Basic
import Mathlib.Algebra.Order.Monoid.Unbundled.Pow
import Mathlib.Data.Finset.Card
import Mathlib.Data.Int.LeastGreatest
import Mathlib.Order.Basic

/-! # Walks of least cost

A directed graph with costs is given by its edges, and several edges may lead
from one node to another. The first hop of a walk is the node that its first
edge leads to. A walk that leaves a set of nodes has an edge that crosses its
border.
-/

namespace Ns2XPass

variable {V α : Type*}

section Walks

variable [AddCommMonoid α] {E : V → V → α → Prop} {u v w h : V} {a c c' : α}

inductive Walk (E : V → V → α → Prop) (u : V) : V → α → Prop
  | nil : Walk E u u 0
  | snoc {v w : V} {c a : α} : Walk E u v c → E v w a → Walk E u w (c + a)

theorem Walk.single (h : E u v a) : Walk E u v a := by
  have := Walk.nil.snoc h
  rwa [zero_add] at this

theorem Walk.trans (h : Walk E u v c) (h' : Walk E v w c') : Walk E u w (c + c') := by
  induction h' with
  | nil => rwa [add_zero]
  | snoc _ he ih =>
    rw [← add_assoc]
    exact ih.snoc he

/-- Walks whose first edge leads to `h`. -/
def Via (E : V → V → α → Prop) (u h v : V) (c : α) : Prop :=
  ∃ a c', E u h a ∧ Walk E h v c' ∧ c = a + c'

theorem Via.single (h : E u v a) : Via E u v v a := ⟨a, 0, h, .nil, (add_zero a).symm⟩

theorem Via.snoc (hv : Via E u h v c) (he : E v w a) : Via E u h w (c + a) := by
  obtain ⟨b, c', hb, hw, rfl⟩ := hv
  exact ⟨b, c' + a, hb, hw.snoc he, add_assoc b c' a⟩

theorem Via.walk (hv : Via E u h v c) : Walk E u v c := by
  obtain ⟨a, c', ha, hw, rfl⟩ := hv
  exact (Walk.single ha).trans hw

/-- A walk is empty or has a first hop. -/
theorem Walk.eq_or_via (hw : Walk E u v c) : (u = v ∧ c = 0) ∨ ∃ h, Via E u h v c := by
  induction hw with
  | nil => exact .inl ⟨rfl, rfl⟩
  | @snoc v w c a _ he ih =>
    obtain ⟨rfl, rfl⟩ | ⟨h, hv⟩ := ih
    · rw [zero_add]
      exact .inr ⟨w, .single he⟩
    · exact .inr ⟨h, hv.snoc he⟩

/-- A walk out of a set of nodes crosses its border. -/
theorem Walk.crossing (hw : Walk E u v c) {S : V → Prop} (hu : S u) (hv : ¬S v) :
    ∃ x y c₁ a c₂, S x ∧ ¬S y ∧ Walk E u x c₁ ∧ E x y a ∧ Walk E y v c₂ ∧ c = c₁ + a + c₂ := by
  induction hw with
  | nil => exact absurd hu hv
  | @snoc v w c a hw he ih =>
    by_cases hS : S v
    · exact ⟨v, w, c, a, 0, hS, hv, hw, he, .nil, (add_zero _).symm⟩
    · obtain ⟨x, y, c₁, b, c₂, hx, hy, hux, hxy, hyv, rfl⟩ := ih hS
      exact ⟨x, y, c₁, b, c₂ + a, hx, hy, hux, hxy, hyv.snoc he, add_assoc _ _ _⟩

end Walks

section LeastCost

variable [AddCommMonoid α] [LinearOrder α] [IsOrderedCancelAddMonoid α]
  {E : V → V → α → Prop} {u v w h : V} {a b c c' : α}

/-- The least cost of the walks from one node to another. -/
def LeastCost (E : V → V → α → Prop) (u v : V) (c : α) : Prop :=
  Walk E u v c ∧ ∀ c', Walk E u v c' → c ≤ c'

/-- A walk of least cost starts with the edge to `h`. -/
def FirstHop (E : V → V → α → Prop) (u v h : V) : Prop := ∃ c, Via E u h v c ∧ LeastCost E u v c

omit [IsOrderedCancelAddMonoid α] in
theorem LeastCost.unique (h : LeastCost E u v c) (h' : LeastCost E u v c') : c = c' :=
  le_antisymm (h.2 c' h'.1) (h'.2 c h.1)

omit [IsOrderedCancelAddMonoid α] in
/-- A walk of least cost between two nodes has a first hop. -/
theorem LeastCost.exists_firstHop (hl : LeastCost E u v c) (hne : u ≠ v) : ∃ h, FirstHop E u v h := by
  obtain ⟨rfl, -⟩ | ⟨h, hv⟩ := hl.1.eq_or_via
  · exact absurd rfl hne
  · exact ⟨h, c, hv, hl⟩

/-- Both parts of a walk of least cost are walks of least cost. -/
theorem LeastCost.parts (h : LeastCost E u v (c + c')) (h₁ : Walk E u w c) (h₂ : Walk E w v c') :
    LeastCost E u w c ∧ LeastCost E w v c' := by
  refine ⟨⟨h₁, fun b hb => ?_⟩, ⟨h₂, fun b hb => ?_⟩⟩
  · exact le_of_add_le_add_right (h.2 _ (hb.trans h₂))
  · exact le_of_add_le_add_left (h.2 _ (h₁.trans hb))

/-- The rest of a walk of least cost behind its first hop. -/
theorem FirstHop.rest (hf : FirstHop E u v h) :
    ∃ a c, E u h a ∧ LeastCost E h v c ∧ LeastCost E u v (a + c) := by
  obtain ⟨_, ⟨a, c, ha, hw, rfl⟩, hl⟩ := hf
  exact ⟨a, c, ha, (hl.parts (.single ha) hw).2, hl⟩

variable (hE : ∀ u v a, E u v a → 0 < a)
include hE

theorem Walk.nonneg (hw : Walk E u v c) : 0 ≤ c := by
  induction hw with
  | nil => exact le_rfl
  | snoc _ he ih => exact add_nonneg ih (hE _ _ _ he).le

theorem LeastCost.self : LeastCost E u u 0 := ⟨.nil, fun _ h => h.nonneg hE⟩

theorem Via.pos (hv : Via E u h v c) : 0 < c := by
  obtain ⟨a, c', ha, hw, rfl⟩ := hv
  exact add_pos_of_pos_of_nonneg (hE _ _ _ ha) (hw.nonneg hE)

/-- The cost of a walk that leaves a set of nodes is at least that of its way over the border. -/
theorem Walk.exists_border (hw : Walk E u v c) {S : V → Prop} (hu : S u) (hv : ¬S v) :
    ∃ x y c₁ a, S x ∧ ¬S y ∧ Walk E u x c₁ ∧ E x y a ∧ c₁ + a ≤ c := by
  obtain ⟨x, y, c₁, a, c₂, hx, hy, hux, hxy, hyv, rfl⟩ := hw.crossing hu hv
  exact ⟨x, y, c₁, a, hx, hy, hux, hxy, le_add_of_nonneg_right (hyv.nonneg hE)⟩

end LeastCost

/-- A walk need not visit a node twice: where the edges lead to finitely many nodes, and none of
them costs more than the bound, each edge of a cheap walk reaches another node. -/
theorem Walk.exists_le [AddCommMonoid α] [LinearOrder α] [IsOrderedAddMonoid α] [DecidableEq V]
    {E : V → V → α → Prop} {u v : V} {b c : α} {S : Finset V} (hb : 0 ≤ b)
    (hE : ∀ u v a, E u v a → a ≤ b ∧ v ∈ S) (hw : Walk E u v c) :
    ∃ c' ≤ (S.erase u).card • b, Walk E u v c' := by
  by_contra hno
  have hne : v ≠ u := by
    rintro rfl
    exact hno ⟨0, nsmul_nonneg hb _, .nil⟩
  have hv : v ∈ S.erase u := by
    cases hw with
    | nil => exact absurd rfl hne
    | snoc _ he => exact Finset.mem_erase.mpr ⟨hne, (hE _ _ _ he).2⟩
  -- As long as the node is too far, there is one more node that is not.
  have hnear : ∀ k ≤ (S.erase u).card, ∃ T ⊆ S.erase u, T.card = k ∧
      ∀ x ∈ T, ∃ c' ≤ k • b, Walk E u x c' := by
    intro k hk
    induction k with
    | zero => exact ⟨∅, Finset.empty_subset _, rfl, fun x hx => absurd hx (Finset.notMem_empty x)⟩
    | succ k ih =>
      obtain ⟨T, hTS, hcard, hT⟩ := ih (by omega)
      have hvT : ¬ (v = u ∨ v ∈ T) := by
        rintro (rfl | hvT)
        · exact hne rfl
        · obtain ⟨c', hc', hw'⟩ := hT v hvT
          exact hno ⟨c', hc'.trans (nsmul_le_nsmul_left hb (by omega)), hw'⟩
      obtain ⟨x, y, -, a, -, hx, hy, -, hxy, -⟩ := hw.crossing (S := fun x => x = u ∨ x ∈ T)
        (.inl rfl) hvT
      obtain ⟨hab, hyS⟩ := hE x y a hxy
      have hxk : ∃ c' ≤ k • b, Walk E u x c' := by
        obtain rfl | hx := hx
        · exact ⟨0, nsmul_nonneg hb k, .nil⟩
        · exact hT x hx
      refine ⟨insert y T, Finset.insert_subset (Finset.mem_erase.mpr ⟨fun hyu => hy (.inl hyu),
        hyS⟩) hTS, ?_, fun x' hx' => ?_⟩
      · rw [Finset.card_insert_of_notMem fun hyT => hy (.inr hyT), hcard]
      · obtain rfl | hx' := Finset.mem_insert.mp hx'
        · obtain ⟨c', hc', hw'⟩ := hxk
          exact ⟨c' + a, (add_le_add hc' hab).trans_eq (succ_nsmul b k).symm, hw'.snoc hxy⟩
        · obtain ⟨c', hc', hw'⟩ := hT x' hx'
          exact ⟨c', hc'.trans (nsmul_le_nsmul_left hb (Nat.le_succ k)), hw'⟩
  obtain ⟨T, hTS, hcard, hT⟩ := hnear _ le_rfl
  rw [Finset.eq_of_subset_of_card_le hTS hcard.ge] at hT
  exact hno (hT v hv)

/-- Integer costs have a least one. -/
theorem Walk.exists_least {E : V → V → ℤ → Prop} {u v : V} {c : ℤ}
    (hE : ∀ u v a, E u v a → 0 < a) (hw : Walk E u v c) : ∃ c, LeastCost E u v c :=
  Int.exists_least_of_bdd ⟨0, fun _ h => h.nonneg hE⟩ ⟨c, hw⟩

/-- What is connected is connected at a cost below the bound. -/
def CostsBelow [AddCommMonoid α] [LinearOrder α] (E : V → V → α → Prop) (b : α) : Prop :=
  ∀ u v c, Walk E u v c → ∃ c' < b, Walk E u v c'

end Ns2XPass
