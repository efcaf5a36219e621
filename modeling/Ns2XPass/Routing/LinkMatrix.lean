import Ns2XPass.Library.LeastCost
import Ns2XPass.Library.Places
import Ns2XPass.Routing.RouteLogic
import Mathlib.Tactic.Linarith

/-! # The links in the matrix

The matrix holds the cost of each link at the place of its two nodes, also when
it has grown, and the bound everywhere else.
-/

namespace Ns2XPass

/-- The costs of the links between nodes that are numbered from 0. -/
abbrev LinkCosts := ℕ → ℕ → Option ℚ

namespace RouteLogic

variable {ε : Type} {r : RouteLogic ε} {links : LinkCosts} {i j i' j' m n src dst : ℕ} {c : ℚ}

theorem index_inj (hj : j < n) (hj' : j' < n) :
    index i j n = index i' j' n ↔ i = i' ∧ j = j' := by
  unfold index
  constructor
  · intro h
    obtain hlt | rfl | hlt := lt_trichotomy i i'
    · have : n * (i + 1) ≤ n * i' := Nat.mul_le_mul_left n hlt
      rw [Nat.mul_succ] at this
      omega
    · exact ⟨rfl, by omega⟩
    · have : n * (i' + 1) ≤ n * i := Nat.mul_le_mul_left n hlt
      rw [Nat.mul_succ] at this
      omega
  · rintro ⟨rfl, rfl⟩
    rfl

theorem lt_widen {fuel : ℕ} (hm : 0 < m) (hf : n < fuel + m) : n < widen n fuel m := by
  induction fuel generalizing m with
  | zero =>
    unfold widen
    omega
  | succ fuel ih =>
    unfold widen
    split
    · exact ih (by omega) (by omega)
    · omega

theorem le_widen (fuel : ℕ) : m ≤ widen n fuel m := by
  induction fuel generalizing m with
  | zero => exact le_rfl
  | succ fuel ih =>
    unfold widen
    split
    · exact (by omega : m ≤ 2 * m).trans ih
    · exact le_rfl

@[simp] theorem size_setCost : (r.setCost i c).size = r.size := rfl

theorem cost_setCost (hj : j < r.size) (hj' : j' < r.size) :
    (r.setCost (index i j r.size) c).cost i' j' = if i' = i ∧ j' = j then c else r.cost i' j' := by
  unfold cost setCost
  by_cases h : i' = i ∧ j' = j
  · obtain ⟨rfl, rfl⟩ := h
    simp
  · have hne : index i' j' r.size ≠ index i j r.size := by
      rwa [Ne, index_inj hj' hj]
    simp only [Function.update_of_ne hne, if_neg h]

/-- The loops that copy the costs into a new matrix. -/
theorem foldl_copyCost (ps : List (ℕ × ℕ)) (hd : ps.Nodup) (new : RouteLogic ε)
    (hps : ∀ p ∈ ps, p.2 < new.size) (hj : j < new.size) :
    (ps.foldl r.copyCost new).size = new.size ∧
      (ps.foldl r.copyCost new).cost i j =
        if (i, j) ∈ ps then r.cost i j else new.cost i j := by
  obtain ⟨hsize, hcost⟩ := foldl_places (f := r.copyCost)
    (c := fun new p => new.cost p.1 p.2) (g := fun p _ => r.cost p.1 p.2)
    (P := fun p => p.2 < new.size) (Q := fun new' => new'.size = new.size)
    (fun _ _ hs _ => hs)
    (by
      rintro s ⟨k, l⟩ hs hl
      dsimp only at hs hl ⊢
      rw [copyCost, cost_setCost (by omega) (by omega), if_pos ⟨rfl, rfl⟩]
      rfl)
    (by
      rintro s ⟨k, l⟩ ⟨k', l'⟩ hs hl hl' hne
      dsimp only at hs hl hl' ⊢
      rw [copyCost, cost_setCost (by omega) (by omega), if_neg]
      simpa using hne)
    hd hps rfl
  refine ⟨hsize, (hcost (i, j) hj).trans ?_⟩
  congr

/-- Growing keeps the costs, and the new places have the bound. -/
theorem check_spec (r : RouteLogic ε) (n : ℕ) :
    n < (r.check n).size ∧ r.size ≤ (r.check n).size ∧
      ∀ i j, i < (r.check n).size → j < (r.check n).size → (r.check n).cost i j =
        if i < r.size ∧ j < r.size then r.cost i j else infinity := by
  unfold check
  by_cases h : n < r.size
  · rw [if_pos h]
    refine ⟨h, le_rfl, fun i j hi hj => ?_⟩
    rw [if_pos ⟨hi, hj⟩]
  · rw [if_neg h]
    dsimp only
    generalize hm : (if r.size = 0 then 16 else r.size) = m
    have hpos : 0 < m ∧ r.size ≤ m := by
      split at hm <;> omega
    generalize hw : widen n (n + 1) m = w
    have hlt : n < w := by
      rw [← hw]
      exact lt_widen hpos.1 (by omega)
    have hle : r.size ≤ w := by
      rw [← hw]
      exact hpos.2.trans (le_widen _)
    have hps : ∀ p ∈ List.range r.size ×ˢ List.range r.size, p.2 < (r.alloc w).size := by
      intro p hp
      have := List.mem_range.mp (List.mem_product.mp hp).2
      exact this.trans_le hle
    have hd : (List.range r.size ×ˢ List.range r.size).Nodup :=
      List.nodup_range.product List.nodup_range
    have hsize : ((List.range r.size ×ˢ List.range r.size).foldl r.copyCost (r.alloc w)).size = w :=
      (foldl_copyCost (i := 0) (j := 0) _ hd _ hps (by change 0 < w; omega)).1
    rw [hsize]
    refine ⟨hlt, hle, fun i j hi hj => ?_⟩
    rw [(foldl_copyCost _ hd _ hps hj).2]
    simp only [List.mem_product, List.mem_range]
    rfl

/-- The matrix holds the links, between nodes whose numbers fit. -/
structure Represents (r : RouteLogic ε) (links : LinkCosts) : Prop where
  fits : ∀ s d c, links s d = some c → s + 1 < r.size ∧ d + 1 < r.size
  cost : ∀ s d, s + 1 < r.size → d + 1 < r.size →
    r.cost (s + 1) (d + 1) = (links s d).getD infinity

theorem Represents.check (h : r.Represents links) (n : ℕ) : (r.check n).Represents links := by
  obtain ⟨-, hle, hcost⟩ := r.check_spec n
  refine ⟨fun s d c hl => ?_, fun s d hs hd => ?_⟩
  · have := h.fits s d c hl
    omega
  · rw [hcost _ _ hs hd]
    split
    · next hlt => exact h.cost s d hlt.1 hlt.2
    · next hlt =>
      cases hl : links s d with
      | none => rfl
      | some c => exact absurd (h.fits s d c hl) hlt

/-- The links after one of them is set or removed. -/
def setLink (links : LinkCosts) (src dst : ℕ) (c : Option ℚ) : LinkCosts :=
  fun s d => if s = src ∧ d = dst then c else links s d

theorem Represents.setCost (h : r.Represents links) (hs : src + 1 < r.size) (hd : dst + 1 < r.size)
    (c : Option ℚ) :
    (r.setCost (index (src + 1) (dst + 1) r.size) (c.getD infinity)).Represents
      (setLink links src dst c) := by
  refine ⟨fun s d a hl => ?_, fun s d hs' hd' => ?_⟩
  · unfold setLink at hl
    split at hl
    · next he =>
      obtain ⟨rfl, rfl⟩ := he
      exact ⟨hs, hd⟩
    · exact h.fits s d a hl
  · rw [cost_setCost hd hd', setLink]
    simp only [Nat.add_right_cancel_iff]
    split
    · rfl
    · exact h.cost s d hs' hd'

theorem Represents.insert (h : r.Represents links) (src dst : ℕ) (c : ℚ) :
    (r.insert (src + 1) (dst + 1) c).Represents (setLink links src dst (some c)) := by
  have h' := (h.check (src + 1)).check (dst + 1)
  have hs := (r.check_spec (src + 1)).1
  obtain ⟨hd, hle, -⟩ := (r.check (src + 1)).check_spec (dst + 1)
  exact h'.setCost (hs.trans_le hle) hd (some c)

theorem Represents.insertEntry (h : r.Represents links) (src dst : ℕ) (c : ℚ) (entry : Option ε) :
    (r.insertEntry (src + 1) (dst + 1) c entry).Represents (setLink links src dst (some c)) := by
  have h' := h.insert src dst c
  have hcost : ∀ i j, (r.insertEntry (src + 1) (dst + 1) c entry).cost i j =
      (r.insert (src + 1) (dst + 1) c).cost i j := by
    intro i j
    unfold RouteLogic.insertEntry RouteLogic.insert RouteLogic.setCost RouteLogic.cost
    dsimp only
    generalize (r.check (src + 1)).check (dst + 1) = m
    by_cases hi : index i j m.size = index (src + 1) (dst + 1) m.size
    · rw [hi, Function.update_self, Function.update_self]
    · rw [Function.update_of_ne hi, Function.update_of_ne hi]
  exact ⟨h'.fits, fun s d hs hd => (hcost _ _).trans (h'.cost s d hs hd)⟩

theorem Represents.reset {r' : RouteLogic ε} (h : r.Represents links)
    (hr : r.reset (src + 1) (dst + 1) = some r') : r'.Represents (setLink links src dst none) := by
  unfold RouteLogic.reset at hr
  split at hr
  · next hlt =>
    obtain rfl := Option.some.inj hr
    exact h.setCost hlt.1 hlt.2 none
  · simp at hr

/-- What any sequence of insertions and resets makes, with the links that are left. -/
inductive Built : RouteLogic ε → LinkCosts → Prop
  | empty : Built (empty ε) fun _ _ => none
  | insert {r : RouteLogic ε} {links : LinkCosts} (src dst : ℕ) (c : ℚ) : Built r links →
      Built (r.insert (src + 1) (dst + 1) c) (setLink links src dst (some c))
  | insertEntry {r : RouteLogic ε} {links : LinkCosts} (src dst : ℕ) (c : ℚ) (entry : Option ε) :
      Built r links → Built (r.insertEntry (src + 1) (dst + 1) c entry)
        (setLink links src dst (some c))
  | reset {r r' : RouteLogic ε} {links : LinkCosts} (src dst : ℕ) : Built r links →
      r.reset (src + 1) (dst + 1) = some r' → Built r' (setLink links src dst none)

theorem Built.represents (h : Built r links) : r.Represents links := by
  induction h with
  | empty =>
    exact ⟨fun _ _ _ h => absurd h (by simp), fun _ _ hs => absurd hs (by simp [RouteLogic.empty])⟩
  | insert src dst c _ ih => exact ih.insert src dst c
  | insertEntry src dst c entry _ ih => exact ih.insertEntry src dst c entry
  | reset src dst _ hr ih => exact ih.reset hr

end RouteLogic

end Ns2XPass
