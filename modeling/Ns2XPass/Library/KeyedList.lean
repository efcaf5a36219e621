import Mathlib.Order.Defs.LinearOrder
import Mathlib.Data.List.Sort
import Mathlib.Data.List.DropRight

/-! # Lists in the order of their keys

A list is in order when its keys increase strictly, so that an order of the
keys leaves one list for each set of elements.
-/

namespace Ns2XPass

variable {α κ : Type*} [LinearOrder κ] {key : α → κ} {a : α} {as bs : List α}

/-- The keys of the list increase strictly. -/
def InOrder (key : α → κ) (as : List α) : Prop := as.Pairwise fun a b => key a < key b

@[simp] theorem inOrder_nil : InOrder key [] := List.Pairwise.nil

theorem inOrder_cons : InOrder key (a :: as) ↔ (∀ b ∈ as, key a < key b) ∧ InOrder key as :=
  List.pairwise_cons

theorem inOrder_append : InOrder key (as ++ bs) ↔
    InOrder key as ∧ InOrder key bs ∧ ∀ a ∈ as, ∀ b ∈ bs, key a < key b :=
  List.pairwise_append

theorem InOrder.sublist (h : InOrder key bs) (hs : as.Sublist bs) : InOrder key as :=
  List.Pairwise.sublist hs h

theorem InOrder.nodup (h : InOrder key as) : as.Nodup :=
  List.Pairwise.imp (fun hlt he => absurd hlt (by simp [he])) h

theorem InOrder.eq_of_perm (ha : InOrder key as) (hb : InOrder key bs) (h : as.Perm bs) :
    as = bs := by
  apply h.eq_of_pairwise _ ha hb
  intro a b _ _ hab hba
  exact absurd hba hab.asymm

/-- Distinct elements of a list in order have distinct keys. -/
theorem InOrder.eq_of_key {b : α} (h : InOrder key as) (ha : a ∈ as) (hb : b ∈ as)
    (he : key a = key b) : a = b := by
  induction as with
  | nil => cases ha
  | cons c as ih =>
    rw [inOrder_cons] at h
    rcases List.mem_cons.mp ha with rfl | ha' <;> rcases List.mem_cons.mp hb with rfl | hb'
    · rfl
    · exact absurd he (h.1 b hb').ne
    · exact absurd he (h.1 a ha').ne'
    · exact ih h.2 ha' hb'

/-- An element of least key comes first. -/
theorem InOrder.cons_of_least (h : InOrder key as) (ha : a ∈ as)
    (hl : ∀ b ∈ as, key a ≤ key b) : ∃ bs, as = a :: bs := by
  cases as with
  | nil => cases ha
  | cons b bs =>
    rcases List.mem_cons.mp ha with rfl | hb
    · exact ⟨bs, rfl⟩
    · exact absurd ((inOrder_cons.mp h).1 a hb) (hl b List.mem_cons_self).not_gt

/-- An element fits into a list in order between its neighbours. -/
theorem InOrder.insert (h : InOrder key (as ++ bs)) (ha : ∀ b ∈ as.getLast?, key b < key a)
    (hb : ∀ b ∈ bs.head?, key a < key b) : InOrder key (as ++ a :: bs) := by
  obtain ⟨has, hbs, hab⟩ := inOrder_append.mp h
  have hl : ∀ b ∈ as, key b < key a := by
    intro b hm
    obtain rfl | ⟨cs, c, rfl⟩ := List.eq_nil_or_concat' as
    · cases hm
    · have hc := ha c (by simp)
      rcases List.mem_append.mp hm with hm | hm
      · exact ((inOrder_append.mp has).2.2 b hm c List.mem_cons_self).trans hc
      · rwa [List.mem_singleton.mp hm]
  have hr : ∀ b ∈ bs, key a < key b := by
    intro b hm
    cases bs with
    | nil => cases hm
    | cons c cs =>
      have hc := hb c rfl
      rcases List.mem_cons.mp hm with rfl | hm
      · exact hc
      · exact hc.trans ((inOrder_cons.mp hbs).1 b hm)
  refine inOrder_append.mpr ⟨has, inOrder_cons.mpr ⟨hr, hbs⟩, fun b hm c hc => ?_⟩
  rcases List.mem_cons.mp hc with rfl | hc
  · exact hl b hm
  · exact hab b hm c hc

end Ns2XPass
