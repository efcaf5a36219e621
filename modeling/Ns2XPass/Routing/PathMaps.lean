import Mathlib.Data.List.Nodup
import Ns2XPass.Routing.LinkState

/-! # The maps of paths

What the operations on maps of paths do to the entry of each destination.
-/

namespace Ns2XPass

variable {α : Type}

theorem LsMap.get_insert (m : LsMap α) (k a : ℤ) (v : α) :
    (m.insert k v)[a]? = if k = a then some v else m[a]? := by
  simp only [Std.TreeMap.getElem?_insert, Std.LawfulEqCmp.compare_eq_iff_eq]

theorem LsMap.get_erase (m : LsMap α) (k a : ℤ) :
    (m.erase k)[a]? = if k = a then none else m[a]? := by
  simp only [Std.TreeMap.getElem?_erase, Std.LawfulEqCmp.compare_eq_iff_eq]

theorem LsMap.get_empty (a : ℤ) : (∅ : LsMap α)[a]? = none := Std.TreeMap.getElem?_emptyc

theorem LsMap.isEmpty_iff (m : LsMap α) : m.isEmpty = true ↔ ∀ a : ℤ, m[a]? = none := by
  rw [Std.TreeMap.isEmpty_iff_forall_contains]
  simp only [Std.TreeMap.contains_eq_isSome_getElem?, Option.isSome_eq_false_iff,
    Option.isNone_iff_eq_none]

/-! ## Next hops -/

variable {l x : List ℤ} {h : ℤ}

theorem mem_appendUnique : h ∈ appendUnique l x ↔ h ∈ l ∨ h ∈ x := by
  unfold appendUnique
  induction x generalizing l with
  | nil => simp
  | cons n x ih =>
    rw [List.foldl_cons, ih, List.mem_cons]
    split
    · next hn =>
      constructor
      · rintro (hl | hx)
        · exact .inl hl
        · exact .inr (.inr hx)
      · rintro (hl | rfl | hx)
        · exact .inl hl
        · exact .inl hn
        · exact .inr hx
    · rw [List.mem_append, List.mem_singleton, or_assoc]

theorem nodup_appendUnique (hl : l.Nodup) : (appendUnique l x).Nodup := by
  unfold appendUnique
  induction x generalizing l with
  | nil => exact hl
  | cons n x ih =>
    rw [List.foldl_cons]
    split
    · exact ih hl
    · next hn =>
      apply ih
      rw [← List.concat_eq_append]
      exact hl.concat hn

namespace LsPaths

variable {paths : LsPaths} {ep : LsEqualPaths} {dest v c nextHop : ℤ} {hs : List ℤ}

/-- Another destination keeps its entry. -/
theorem get_insertNextHopList_of_ne (h : v ≠ dest) :
    (paths.insertNextHopList dest c hs)[v]? = paths[v]? := by
  unfold insertNextHopList
  repeat' split
  all_goals simp only [LsMap.get_insert, if_neg h.symm]

/-- The entry of a destination has the least cost that it has been offered, with all next hops
that come with this cost. -/
theorem get_insertNextHopList (paths : LsPaths) (dest c : ℤ) (hs : List ℤ) :
    (∃ ep, paths[dest]? = some ep ∧ ep.cost < c ∧
        (paths.insertNextHopList dest c hs)[dest]? = some ep) ∨
      (∃ ep, paths[dest]? = some ep ∧ ep.cost = c ∧
        (paths.insertNextHopList dest c hs)[dest]? =
          some ⟨c, appendUnique ep.nextHopList hs⟩) ∨
      (∀ ep, paths[dest]? = some ep → c < ep.cost) ∧
        (paths.insertNextHopList dest c hs)[dest]? = some ⟨c, hs⟩ := by
  unfold insertNextHopList
  cases hd : paths[dest]? with
  | none => exact .inr (.inr ⟨by simp, by simp⟩)
  | some ep =>
    dsimp only
    split
    · next hlt => exact .inl ⟨ep, rfl, hlt, hd⟩
    · split
      · next hgt =>
        refine .inr (.inr ⟨?_, by simp⟩)
        rintro _ ⟨⟩
        exact hgt
      · next hnlt hngt =>
        obtain rfl : ep.cost = c := by omega
        exact .inr (.inl ⟨ep, rfl, rfl, by simp⟩)

/-- A path of the same cost adds a next hop that is new. -/
theorem get_insertPath (paths : LsPaths) (dest c nextHop : ℤ)
    (hold : ∀ ep, paths[dest]? = some ep → ep.cost = c ∧ nextHop ∉ ep.nextHopList) :
    (paths.insertPath dest c nextHop)[v]? =
      if v = dest then some ⟨c, ((paths[dest]?).elim [] (·.nextHopList)) ++ [nextHop]⟩
      else paths[v]? := by
  unfold insertPath
  cases hd : paths[dest]? with
  | none =>
    simp only [LsMap.get_insert, eq_comm (a := dest), Option.elim_none, List.nil_append]
  | some ep =>
    obtain ⟨rfl, hnew⟩ := hold ep hd
    simp only [lt_irrefl, if_false, if_neg hnew, LsMap.get_insert, eq_comm (a := dest),
      Option.elim_some]

/-- A next hop at a cost is in the map already, or would not be worth it. -/
def Offers (paths : LsPaths) (v c h : ℤ) : Prop :=
  ∃ ep, paths[v]? = some ep ∧ (ep.cost < c ∨ ep.cost = c ∧ h ∈ ep.nextHopList)

theorem offers_insertNextHopList {h : ℤ} (hh : h ∈ hs) :
    (paths.insertNextHopList dest c hs).Offers dest c h := by
  obtain ⟨ep, -, hlt, hget⟩ | ⟨ep, -, -, hget⟩ | ⟨-, hget⟩ :=
    get_insertNextHopList paths dest c hs
  · exact ⟨ep, hget, .inl hlt⟩
  · exact ⟨_, hget, .inr ⟨rfl, mem_appendUnique.mpr (.inr hh)⟩⟩
  · exact ⟨_, hget, .inr ⟨rfl, hh⟩⟩

theorem Offers.insertNextHopList {c' h : ℤ} (ho : paths.Offers v c' h) (dest c : ℤ)
    (hs : List ℤ) : (paths.insertNextHopList dest c hs).Offers v c' h := by
  obtain ⟨ep, hv, hcost⟩ := ho
  by_cases hd : v = dest
  · subst hd
    obtain ⟨ep', hv', -, hget⟩ | ⟨ep', hv', heq, hget⟩ | ⟨hless, hget⟩ :=
      get_insertNextHopList paths v c hs
    · obtain rfl : ep = ep' := Option.some.inj (hv.symm.trans hv')
      exact ⟨ep, hget, hcost⟩
    · obtain rfl : ep = ep' := Option.some.inj (hv.symm.trans hv')
      refine ⟨_, hget, ?_⟩
      rw [← heq]
      exact hcost.imp_right fun hc => ⟨hc.1, mem_appendUnique.mpr (.inl hc.2)⟩
    · have := hless ep hv
      exact ⟨_, hget, .inl (by dsimp only; omega)⟩
  · exact ⟨ep, by rwa [get_insertNextHopList_of_ne hd], hcost⟩

/-! ## The shortest path -/

/-- The loop of `findMinEqualPaths` over a list of entries. -/
theorem foldl_findMin (items : List (ℤ × LsEqualPaths)) (best : ℤ × Option (ℤ × LsEqualPaths)) :
    let r := items.foldl (fun b p => findMin b p.1 p.2) best
    (r = best ∨ ∃ p ∈ items, r = (p.2.cost, some p) ∧ p.2.nextHopList ≠ []) ∧ r.1 ≤ best.1 ∧
      ∀ p ∈ items, p.2.nextHopList ≠ [] → r.1 ≤ p.2.cost := by
  induction items generalizing best with
  | nil => exact ⟨.inl rfl, le_rfl, by simp⟩
  | cons p items ih =>
    rw [List.foldl_cons]
    obtain ⟨hr, hle, hall⟩ := ih (findMin best p.1 p.2)
    by_cases hc : p.2.cost < best.1 ∧ p.2.nextHopList ≠ []
    · have hmin : findMin best p.1 p.2 = (p.2.cost, some p) := if_pos hc
      rw [hmin] at hr hle hall ⊢
      refine ⟨.inr ?_, hle.trans hc.1.le, List.forall_mem_cons.mpr ⟨fun _ => hle, hall⟩⟩
      obtain hr | ⟨q, hq, hr⟩ := hr
      · exact ⟨p, List.mem_cons_self, hr, hc.2⟩
      · exact ⟨q, List.mem_cons_of_mem _ hq, hr⟩
    · have hmin : findMin best p.1 p.2 = best := if_neg hc
      rw [hmin] at hr hle hall ⊢
      refine ⟨?_, hle, List.forall_mem_cons.mpr ⟨fun hne => ?_, hall⟩⟩
      · obtain hr | ⟨q, hq, hr⟩ := hr
        · exact .inl hr
        · exact .inr ⟨q, List.mem_cons_of_mem _ hq, hr⟩
      · exact hle.trans (not_lt.mp fun hlt => hc ⟨hlt, hne⟩)

theorem findMinEqualPaths_cases (paths : LsPaths) :
    (paths.findMinEqualPaths = none ∧
        ∀ (v : ℤ) (ep : LsEqualPaths), paths[v]? = some ep → ep.nextHopList ≠ [] →
          lsMaxCost < ep.cost) ∨
      ∃ (v : ℤ) (ep : LsEqualPaths), paths.findMinEqualPaths = some (v, ep) ∧ paths[v]? = some ep ∧
        ep.nextHopList ≠ [] ∧
        ∀ (w : ℤ) (ep' : LsEqualPaths), paths[w]? = some ep' → ep'.nextHopList ≠ [] →
          ep.cost ≤ ep'.cost := by
  unfold findMinEqualPaths
  rw [Std.TreeMap.foldl_eq_foldl_toList]
  obtain ⟨hr, -, hall⟩ := foldl_findMin paths.toList (lsMaxCost + 1, none)
  have hall : ∀ (v : ℤ) (ep : LsEqualPaths), paths[v]? = some ep → ep.nextHopList ≠ [] →
      (paths.toList.foldl (fun b p => findMin b p.1 p.2) (lsMaxCost + 1, none)).1 ≤ ep.cost :=
    fun v ep hv => hall (v, ep) (Std.TreeMap.mem_toList_iff_getElem?_eq_some.mpr hv)
  obtain hr | ⟨⟨v, ep⟩, hmem, hr, hne⟩ := hr
  · rw [hr] at hall ⊢
    exact .inl ⟨rfl, fun v ep hv hne => by have := hall v ep hv hne; dsimp only at this; omega⟩
  · dsimp only at hr
    rw [hr] at hall ⊢
    exact .inr ⟨v, ep, rfl, Std.TreeMap.mem_toList_iff_getElem?_eq_some.mp hmem, hne, hall⟩

theorem popShortestPath_eq {h : ℤ} {rest : List ℤ}
    (hfind : paths.findMinEqualPaths = some (v, ⟨c, h :: rest⟩)) :
    paths.popShortestPath.1 = ⟨v, c, h⟩ ∧ ∀ w : ℤ, paths.popShortestPath.2[w]? =
      if w = v then if rest = [] then none else some ⟨c, rest⟩ else paths[w]? := by
  unfold popShortestPath
  rw [hfind]
  refine ⟨rfl, fun w => ?_⟩
  dsimp only
  by_cases hr : rest = []
  · simp only [if_pos hr, LsMap.get_erase, eq_comm (a := v)]
  · simp only [if_neg hr, LsMap.get_insert, eq_comm (a := v)]

end LsPaths

end Ns2XPass
