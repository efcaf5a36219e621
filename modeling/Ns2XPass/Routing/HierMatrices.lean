import Ns2XPass.Routing.HierWrites

/-! # The matrices after the writes

Sequences of writes whose matrices are allocated stay inside the arrays. Afterwards a place holds
what was written there last, and all other places hold what they held before.
-/

namespace Ns2XPass

/-- What a write sets a place in a matrix to. -/
def HierWrite.costAt (i k : ℕ) : HierWrite → Option ℤ
  | .adj i' k' cost => if i' = i ∧ k' = k then some cost else none
  | _ => none

/-- What a write sets a place in a table of addresses to. -/
def HierWrite.addressAt (i k : ℕ) : HierWrite → Option (Option HierAddress)
  | .connect i' k' address => if i' = i ∧ k' = k then some (some address) else none
  | _ => none

namespace HierWrite

variable {w : HierWrite} {i k : ℕ}

theorem costAt_eq_some {c : ℤ} : w.costAt i k = some c ↔ w = .adj i k c := by
  cases w with
  | adj i' k' c' =>
    dsimp only [costAt]
    rw [Option.ite_none_right_eq_some, Option.some.injEq, HierWrite.adj.injEq, and_assoc]
  | check => simp [costAt]
  | connect => simp [costAt]

theorem addressAt_eq_some {e : Option HierAddress} :
    w.addressAt i k = some e ↔ ∃ a, e = some a ∧ w = .connect i k a := by
  cases w with
  | connect i' k' a =>
    dsimp only [addressAt]
    rw [Option.ite_none_right_eq_some, Option.some.injEq]
    constructor
    · rintro ⟨⟨rfl, rfl⟩, rfl⟩
      exact ⟨a, rfl, rfl⟩
    · rintro ⟨a, rfl, hw⟩
      obtain ⟨rfl, rfl, rfl⟩ := HierWrite.connect.inj hw
      exact ⟨⟨rfl, rfl⟩, rfl⟩
  | check => simp [addressAt]
  | adj => simp [addressAt]

end HierWrite

namespace HierRoutes

open Hierarchy HierWrite

/-- The cost at a place of a matrix, which is the bound as long as it is not allocated. -/
def cell (r : HierRoutes) (i k : ℕ) : ℤ := if r.hsize i = 0 then infinity else r.hadj i k

def entry (r : HierRoutes) (i k : ℕ) : Option HierAddress :=
  if r.hsize i = 0 then none else r.hconnect i k

def Sized (h : Hierarchy) (r : HierRoutes) : Prop :=
  ∀ i, r.hsize i = 0 ∨ r.hsize i = h.fullSize i

variable {h : Hierarchy} {r r' : HierRoutes} {i j k : ℕ} {c : ℤ} {a : HierAddress}
  {w : HierWrite} {ws : List HierWrite} {A : ℕ → Prop}

/-- A matrix is allocated if it has not been, and if its length fits. -/
theorem hierCheck_eq_ok : r.hierCheck h i = .ok r' ↔ (0 < r.hsize i ∧ r' = r) ∨
    r.hsize i = 0 ∧ h.fullSize i < 2 ^ 31 ∧ r' = {
      hsize := Function.update r.hsize i (h.fullSize i)
      hadj := Function.update r.hadj i fun _ => infinity
      hroute := Function.update r.hroute i fun _ => 0x3fff
      hconnect := Function.update r.hconnect i fun _ => none } := by
  unfold hierCheck hierAlloc
  split
  · next hi => simp [hi, hi.ne', eq_comm]
  · next hi =>
    have h0 := Nat.eq_zero_of_not_pos hi
    have hfull : (h.clusterSize i + h.Cmax + h.D) * (h.clusterSize i + h.Cmax + h.D) =
      h.fullSize i := rfl
    rw [hfull]
    dsimp only
    split
    · next hfit => simp [-Nat.reducePow, h0, hfit, eq_comm]
    · next hfit => simp [-Nat.reducePow, h0, hfit]

theorem Sized.hierCheck (hs : Sized h r) (hc : r.hierCheck h i = .ok r') : Sized h r' := by
  obtain ⟨-, rfl⟩ | ⟨-, -, rfl⟩ := hierCheck_eq_ok.mp hc
  · exact hs
  · intro j
    dsimp only
    rw [Function.update_apply]
    split
    · next hj =>
      subst hj
      exact .inr rfl
    · exact hs j

theorem hsize_hierCheck (hc : r.hierCheck h i = .ok r') (hj : 0 < r.hsize j) :
    0 < r'.hsize j := by
  obtain ⟨-, rfl⟩ | ⟨hi, -, rfl⟩ := hierCheck_eq_ok.mp hc
  · exact hj
  · have hne : j ≠ i := by
      rintro rfl
      exact hj.ne' hi
    dsimp only
    rwa [Function.update_of_ne hne]

theorem hsize_hierCheck_self (hD : 0 < h.D) (hc : r.hierCheck h i = .ok r') :
    0 < r'.hsize i := by
  obtain ⟨hi, rfl⟩ | ⟨-, -, rfl⟩ := hierCheck_eq_ok.mp hc
  · exact hi
  · dsimp only
    rw [Function.update_self]
    exact Nat.mul_pos (by omega) (by omega)

/-- A new matrix has the bound everywhere. -/
theorem cell_hierCheck (hc : r.hierCheck h i = .ok r') : r'.cell j k = r.cell j k := by
  obtain ⟨-, rfl⟩ | ⟨hi, -, rfl⟩ := hierCheck_eq_ok.mp hc
  · rfl
  · unfold cell
    dsimp only
    by_cases hj : j = i
    · subst hj
      simp only [Function.update_self, hi, if_true, ite_self]
    · simp only [Function.update_of_ne hj]

theorem entry_hierCheck (hc : r.hierCheck h i = .ok r') : r'.entry j k = r.entry j k := by
  obtain ⟨-, rfl⟩ | ⟨hi, -, rfl⟩ := hierCheck_eq_ok.mp hc
  · rfl
  · unfold entry
    dsimp only
    by_cases hj : j = i
    · subst hj
      simp only [Function.update_self, hi, if_true, ite_self]
    · simp only [Function.update_of_ne hj]

theorem setAdj_eq_ok : r.setAdj i k c = .ok r' ↔ k < r.hsize i ∧
    r' = { r with hadj := Function.update r.hadj i (Function.update (r.hadj i) k c) } := by
  unfold setAdj
  split
  · next hk => simp [hk, eq_comm]
  · next hk => simp [hk]

theorem setConnect_eq_ok : r.setConnect h i k a = .ok r' ↔ k < r.connectSize h i ∧
    r' = { r with
      hconnect := Function.update r.hconnect i
        (Function.update (r.hconnect i) k (some a)) } := by
  unfold setConnect
  split
  · next hk => simp [hk, eq_comm]
  · next hk => simp [hk]

/-! ### One write -/

theorem sized_write (hs : Sized h r) (hw : r.write h w = .ok r') : Sized h r' := by
  cases w with
  | check i => exact hs.hierCheck hw
  | adj i k c =>
    obtain ⟨-, rfl⟩ := setAdj_eq_ok.mp hw
    exact hs
  | connect i k a =>
    obtain ⟨-, rfl⟩ := setConnect_eq_ok.mp hw
    exact hs

theorem hsize_write (hw : r.write h w = .ok r') (hj : 0 < r.hsize j) : 0 < r'.hsize j := by
  cases w with
  | check i => exact hsize_hierCheck hw hj
  | adj i k c =>
    obtain ⟨-, rfl⟩ := setAdj_eq_ok.mp hw
    exact hj
  | connect i k a =>
    obtain ⟨-, rfl⟩ := setConnect_eq_ok.mp hw
    exact hj

theorem cell_write (hw : r.write h w = .ok r') :
    r'.cell j k = (w.costAt j k).getD (r.cell j k) := by
  cases w with
  | check i => exact cell_hierCheck hw
  | adj i k' c =>
    obtain ⟨hk, rfl⟩ := setAdj_eq_ok.mp hw
    dsimp only [costAt]
    split
    · next he =>
      obtain ⟨rfl, rfl⟩ := he
      unfold cell
      have hi : r.hsize i ≠ 0 := by omega
      dsimp only
      rw [if_neg hi, Function.update_self, Function.update_self]
      rfl
    · next he =>
      unfold cell
      dsimp only
      by_cases hi : j = i
      · subst hi
        rw [Function.update_self, Function.update_of_ne fun hk => he ⟨rfl, hk.symm⟩]
        rfl
      · rw [Function.update_of_ne hi]
        rfl
  | connect i k' a =>
    obtain ⟨-, rfl⟩ := setConnect_eq_ok.mp hw
    rfl

theorem entry_write (hw : r.write h w = .ok r') :
    r'.entry j k = (w.addressAt j k).getD (r.entry j k) := by
  cases w with
  | check i => exact entry_hierCheck hw
  | adj i k' c =>
    obtain ⟨-, rfl⟩ := setAdj_eq_ok.mp hw
    rfl
  | connect i k' a =>
    obtain ⟨hk, rfl⟩ := setConnect_eq_ok.mp hw
    dsimp only [addressAt]
    split
    · next he =>
      obtain ⟨rfl, rfl⟩ := he
      unfold entry
      unfold connectSize at hk
      split at hk
      · next hi =>
        dsimp only
        rw [if_neg hi.ne', Function.update_self, Function.update_self]
        rfl
      · exact absurd hk (Nat.not_lt_zero _)
    · next he =>
      unfold entry
      dsimp only
      by_cases hi : j = i
      · subst hi
        rw [Function.update_self, Function.update_of_ne fun hk => he ⟨rfl, hk.symm⟩]
        rfl
      · rw [Function.update_of_ne hi]
        rfl

/-! ### Sequences of writes -/

theorem exists_writes (hD : 0 < h.D) (hs : Sized h r) (hr : Ready h A ws)
    (hA : ∀ i, A i → 0 < r.hsize i) : ∃ r', ws.foldlM (write h) r = .ok r' := by
  induction ws generalizing r A with
  | nil => exact ⟨r, rfl⟩
  | cons w ws ih =>
    rw [List.foldlM_cons]
    cases w with
    | check i =>
      obtain ⟨hfit, hr⟩ := hr
      obtain ⟨s, hc⟩ : ∃ s, r.hierCheck h i = .ok s := by
        obtain hi | hi := Nat.eq_zero_or_pos (r.hsize i)
        · exact ⟨_, hierCheck_eq_ok.mpr (.inr ⟨hi, hfit, rfl⟩)⟩
        · exact ⟨_, hierCheck_eq_ok.mpr (.inl ⟨hi, rfl⟩)⟩
      rw [show r.write h (.check i) = _ from hc]
      refine ih (hs.hierCheck hc) hr fun j hj => ?_
      obtain rfl | hj := hj
      · exact hsize_hierCheck_self hD hc
      · exact hsize_hierCheck hc (hA j hj)
    | adj i k c =>
      obtain ⟨⟨hi, hk⟩, hr⟩ := hr
      have hw := setAdj_eq_ok (c := c).mpr
        ⟨hk.trans_eq ((hs i).resolve_left (hA i hi).ne').symm, rfl⟩
      rw [show r.write h (.adj i k c) = _ from hw]
      exact ih hs hr hA
    | connect i k a =>
      obtain ⟨⟨hi, hk⟩, hr⟩ := hr
      have hw := setConnect_eq_ok (a := a).mpr ⟨hk.trans_eq (if_pos (hA i hi)).symm, rfl⟩
      rw [show r.write h (.connect i k a) = _ from hw]
      exact ih hs hr hA

section Writes

variable (hw : ws.foldlM (write h) r = .ok r')
include hw

theorem sized_writes (hs : Sized h r) : Sized h r' :=
  foldlM_preserves hs (fun _ _ _ _ hs hw => sized_write hs hw) hw

theorem hsize_writes (hj : 0 < r.hsize j) : 0 < r'.hsize j :=
  foldlM_preserves (P := fun r => 0 < r.hsize j) hj (fun _ _ _ _ hj hw => hsize_write hw hj) hw

theorem cell_writes_of_mem (hm : .adj i k c ∈ ws) (hc : ∀ c', .adj i k c' ∈ ws → c' = c) :
    r'.cell i k = c := by
  rw [foldlM_reads (f := write h) (fun _ _ _ hw => cell_write (j := i) (k := k) hw) hw]
  cases hf : ws.reverse.findSome? (costAt i k) with
  | none =>
    have := List.findSome?_eq_none_iff.mp hf _ (List.mem_reverse.mpr hm)
    rw [costAt_eq_some.mpr rfl] at this
    cases this
  | some c' =>
    obtain ⟨w, hws, hc'⟩ := List.exists_of_findSome?_eq_some hf
    obtain rfl := costAt_eq_some.mp hc'
    exact hc c' (List.mem_reverse.mp hws)

theorem cell_writes_of_not_mem (hm : ∀ c, .adj i k c ∉ ws) : r'.cell i k = r.cell i k := by
  rw [foldlM_reads (f := write h) (fun _ _ _ hw => cell_write (j := i) (k := k) hw) hw,
    List.findSome?_eq_none_iff.mpr]
  · rfl
  · intro w hws
    refine Option.eq_none_iff_forall_ne_some.mpr fun c hc => ?_
    obtain rfl := costAt_eq_some.mp hc
    exact hm c (List.mem_reverse.mp hws)

theorem entry_writes_of_mem (hm : .connect i k a ∈ ws)
    (ha : ∀ a', .connect i k a' ∈ ws → a' = a) : r'.entry i k = some a := by
  rw [foldlM_reads (f := write h) (fun _ _ _ hw => entry_write (j := i) (k := k) hw) hw]
  cases hf : ws.reverse.findSome? (addressAt i k) with
  | none =>
    have := List.findSome?_eq_none_iff.mp hf _ (List.mem_reverse.mpr hm)
    rw [addressAt_eq_some.mpr ⟨a, rfl, rfl⟩] at this
    cases this
  | some e =>
    obtain ⟨w, hws, he⟩ := List.exists_of_findSome?_eq_some hf
    obtain ⟨a', rfl, rfl⟩ := addressAt_eq_some.mp he
    exact congrArg some (ha a' (List.mem_reverse.mp hws))

theorem entry_writes_of_not_mem (hm : ∀ a, .connect i k a ∉ ws) :
    r'.entry i k = r.entry i k := by
  rw [foldlM_reads (f := write h) (fun _ _ _ hw => entry_write (j := i) (k := k) hw) hw,
    List.findSome?_eq_none_iff.mpr]
  · rfl
  · intro w hws
    refine Option.eq_none_iff_forall_ne_some.mpr fun e he => ?_
    obtain ⟨a, rfl, rfl⟩ := addressAt_eq_some.mp he
    exact hm a (List.mem_reverse.mp hws)

end Writes

end HierRoutes

end Ns2XPass
