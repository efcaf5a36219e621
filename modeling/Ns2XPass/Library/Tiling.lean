import Mathlib.Algebra.BigOperators.Group.List.Basic
import Mathlib.Algebra.Order.Group.Int
import Mathlib.Tactic.Linarith

/-! # Blocks that tile an interval

The blocks of a list follow each other without a gap. Each has a first and a
last element, and none is empty.
-/

namespace Ns2XPass

variable {β : Type*} {first last : β → ℤ} {n : β} {pre post ns : List β} {a b : ℤ}

/-- The blocks tile the interval from `a` up to, but not including, `b`. -/
def Tiles (first last : β → ℤ) : ℤ → List β → ℤ → Prop
  | a, [], b => a = b
  | a, n :: ns, b => first n = a ∧ first n ≤ last n ∧ Tiles first last (last n + 1) ns b

@[simp] theorem tiles_nil : Tiles first last a [] b ↔ a = b := Iff.rfl

@[simp] theorem tiles_cons : Tiles first last a (n :: ns) b ↔
    first n = a ∧ first n ≤ last n ∧ Tiles first last (last n + 1) ns b := Iff.rfl

theorem tiles_append : Tiles first last a (pre ++ post) b ↔
    ∃ m, Tiles first last a pre m ∧ Tiles first last m post b := by
  induction pre generalizing a with
  | nil => simp
  | cons n pre ih =>
    simp only [List.cons_append, tiles_cons, ih]
    constructor
    · rintro ⟨hf, hle, m, hpre, hpost⟩; exact ⟨m, ⟨hf, hle, hpre⟩, hpost⟩
    · rintro ⟨m, ⟨hf, hle, hpre⟩, hpost⟩; exact ⟨hf, hle, m, hpre, hpost⟩

/-- The tiles before and behind one. -/
theorem tiles_middle : Tiles first last a (pre ++ n :: post) b ↔
    Tiles first last a pre (first n) ∧ first n ≤ last n ∧
      Tiles first last (last n + 1) post b := by
  rw [tiles_append]
  constructor
  · rintro ⟨_, hpre, rfl, hle, hpost⟩; exact ⟨hpre, hle, hpost⟩
  · rintro ⟨hpre, hle, hpost⟩; exact ⟨first n, hpre, rfl, hle, hpost⟩

theorem Tiles.le (h : Tiles first last a ns b) : a ≤ b := by
  induction ns generalizing a with
  | nil => exact h.le
  | cons n ns ih =>
    obtain ⟨rfl, hle, hns⟩ := h
    have := ih hns
    omega

theorem Tiles.bounds (h : Tiles first last a ns b) (hn : n ∈ ns) :
    a ≤ first n ∧ first n ≤ last n ∧ last n < b := by
  obtain ⟨pre, post, rfl⟩ := List.append_of_mem hn
  obtain ⟨hpre, hle, hpost⟩ := tiles_middle.mp h
  exact ⟨hpre.le, hle, by have := hpost.le; omega⟩

/-- Each element of the interval lies in a tile. -/
theorem Tiles.exists_mem {q : ℤ} (h : Tiles first last a ns b) (hlo : a ≤ q) (hhi : q < b) :
    ∃ n ∈ ns, first n ≤ q ∧ q ≤ last n := by
  induction ns generalizing a with
  | nil =>
    obtain rfl := tiles_nil.mp h
    omega
  | cons n ns ih =>
    obtain ⟨rfl, -, hns⟩ := h
    by_cases hq : q ≤ last n
    · exact ⟨n, List.mem_cons_self, hlo, hq⟩
    · obtain ⟨m, hm, hin⟩ := ih hns (by omega)
      exact ⟨m, List.mem_cons_of_mem n hm, hin⟩

/-- No element lies in two tiles. -/
theorem Tiles.eq_of_mem {q : ℤ} {m : β} (h : Tiles first last a ns b) (hn : n ∈ ns) (hm : m ∈ ns)
    (hnq : first n ≤ q ∧ q ≤ last n) (hmq : first m ≤ q ∧ q ≤ last m) : n = m := by
  induction ns generalizing a with
  | nil => exact absurd hn (by simp)
  | cons k ns ih =>
    obtain ⟨-, -, hns⟩ := h
    rcases List.mem_cons.mp hn with rfl | hn'
    · rcases List.mem_cons.mp hm with rfl | hm'
      · rfl
      · have := (hns.bounds hm').1
        omega
    · rcases List.mem_cons.mp hm with rfl | hm'
      · have := (hns.bounds hn').1
        omega
      · exact ih hns hn' hm'

theorem Tiles.finish_eq {a' b' : ℤ} (h : Tiles first last a ns b) (h' : Tiles first last a' ns b')
    (hne : ns ≠ []) : b = b' := by
  induction ns generalizing a a' with
  | nil => exact absurd rfl hne
  | cons n ns ih =>
    obtain ⟨-, -, hns⟩ := h
    obtain ⟨-, -, hns'⟩ := h'
    cases ns with
    | nil => exact (tiles_nil.mp hns).symm.trans (tiles_nil.mp hns')
    | cons m ns => exact ih hns hns' (List.cons_ne_nil m ns)

/-- The sizes of the tiles add up. -/
theorem Tiles.sum (h : Tiles first last a ns b) :
    (ns.map fun n => last n + 1 - first n).sum = b - a := by
  induction ns generalizing a with
  | nil => obtain rfl := tiles_nil.mp h; simp
  | cons n ns ih =>
    obtain ⟨rfl, -, hns⟩ := h
    rw [List.map_cons, List.sum_cons, ih hns]
    omega

end Ns2XPass
