import Ns2XPass.Library.LeastCost
import Ns2XPass.Routing.PathMaps

/-! # The invariant of the link-state routes

The paths of the result have their least costs, and every path under way is at
least as long. A path that was found over a node of the result is in one of the
two maps, unless it is too long to be there.
-/

namespace Ns2XPass

/-- The links that are up, as the edges of a graph with costs. -/
def LsTopoMap.edge (db : LsTopoMap) (u v a : ℤ) : Prop :=
  ∃ links, db[u]? = some links ∧ ∃ l ∈ links, l.status = .up ∧ l.neighborId = v ∧ l.cost = a

namespace LsRouting

variable {db : LsTopoMap} {me u v w c h m : ℤ} {P T : LsPaths} {p : LsEqualPaths} {hs : List ℤ}
  {l : LsLinkState} {links : List LsLinkState}

/-- The databases whose costs and numbers fit: the least costs into their range, all sums into an
`int`, and no node has the number that stands for none. -/
structure Fits (db : LsTopoMap) (me : ℤ) : Prop where
  pos : ∀ u v a, db.edge u v a → 0 < a
  max : ∀ v c, LeastCost db.edge me v c → c ≤ lsMaxCost
  int : ∀ u v c a, LeastCost db.edge me u c → db.edge u v a → c + a < 2 ^ 31
  valid : ∀ v c, Walk db.edge me v c → v ≠ me → v ≠ lsInvalidNodeId

/-- `m` is the cost of the last path that was popped. -/
structure Sound (db : LsTopoMap) (me : ℤ) (P T : LsPaths) (m : ℤ) : Prop where
  self : P[me]? = some ⟨0, [me]⟩
  nonneg : 0 ≤ m
  paths : ∀ (v : ℤ) (p : LsEqualPaths), P[v]? = some p → v ≠ me →
    p.nextHopList ≠ [] ∧ p.nextHopList.Nodup ∧ LeastCost db.edge me v p.cost ∧ p.cost ≤ m ∧
      ∀ h ∈ p.nextHopList, Via db.edge me h v p.cost
  tentative : ∀ (v : ℤ) (t : LsEqualPaths), T[v]? = some t →
    t.nextHopList ≠ [] ∧ t.nextHopList.Nodup ∧ m ≤ t.cost ∧ v ≠ me ∧
      ∀ h ∈ t.nextHopList, Via db.edge me h v t.cost
  both : ∀ (v : ℤ) (p t : LsEqualPaths), P[v]? = some p → T[v]? = some t →
    t.cost = p.cost ∧ ∀ h ∈ t.nextHopList, h ∉ p.nextHopList

/-- A path that was found is in one of the maps, unless it is too long. -/
def Covered (P T : LsPaths) (v c h : ℤ) : Prop :=
  lsMaxCost + 1 < c ∨ P.Offers v c h ∨ T.Offers v c h

/-- The next hops to the neighbour `w` of `u` over `u`. -/
def hopsOver (me : ℤ) (p : LsEqualPaths) (u w : ℤ) : List ℤ :=
  if u = me then [w] else p.nextHopList

/-- The paths over the links of a node have been found. -/
def Expanded (db : LsTopoMap) (me : ℤ) (P T : LsPaths) (u : ℤ) : Prop :=
  ∀ p w a, P[u]? = some p → db.edge u w a → ∀ h ∈ hopsOver me p u w, Covered P T w (p.cost + a) h

theorem Sound.least (hd : Fits db me) (hs : Sound db me P T m) (hv : P[v]? = some p) :
    LeastCost db.edge me v p.cost ∧ p.cost ≤ m := by
  by_cases hme : v = me
  · subst hme
    obtain rfl : ⟨0, [v]⟩ = p := Option.some.inj (hs.self.symm.trans hv)
    exact ⟨LeastCost.self hd.pos, hs.nonneg⟩
  · obtain ⟨-, -, hl, hm, -⟩ := hs.paths v p hv hme
    exact ⟨hl, hm⟩

/-! ## Expanding a node -/

/-- A path that is longer than all before may be put under way. -/
theorem Sound.insert (hs' : Sound db me P T m) (hP : P[v]? = none) (hne : hs ≠ [])
    (hnodup : hs.Nodup) (hc : m ≤ c) (hvia : ∀ h ∈ hs, Via db.edge me h v c) :
    Sound db me P (T.insertNextHopList v c hs) m := by
  have hme : v ≠ me := by
    rintro rfl
    rw [hs'.self] at hP
    simp at hP
  refine ⟨hs'.self, hs'.nonneg, hs'.paths, fun w t ht => ?_, fun w p t hp ht => ?_⟩
  · by_cases hwv : w = v
    · subst hwv
      obtain ⟨ep, hold, -, hget⟩ | ⟨ep, hold, heq, hget⟩ | ⟨-, hget⟩ :=
        LsPaths.get_insertNextHopList T w c hs
      · obtain rfl := Option.some.inj (hget.symm.trans ht)
        exact hs'.tentative w _ hold
      · obtain rfl := Option.some.inj (hget.symm.trans ht)
        obtain ⟨hne', hnd', -, -, hvia'⟩ := hs'.tentative w _ hold
        refine ⟨?_, nodup_appendUnique hnd', hc, hme, fun h hh => ?_⟩
        · obtain ⟨h, hh⟩ := List.exists_mem_of_ne_nil _ hne
          exact List.ne_nil_of_mem (mem_appendUnique.mpr (.inr hh))
        · obtain hh | hh := mem_appendUnique.mp hh
          · rw [← heq]
            exact hvia' h hh
          · exact hvia h hh
      · obtain rfl := Option.some.inj (hget.symm.trans ht)
        exact ⟨hne, hnodup, hc, hme, hvia⟩
    · rw [LsPaths.get_insertNextHopList_of_ne hwv] at ht
      exact hs'.tentative w t ht
  · have hwv : w ≠ v := by
      rintro rfl
      rw [hP] at hp
      simp at hp
    rw [LsPaths.get_insertNextHopList_of_ne hwv] at ht
    exact hs'.both w p t hp ht

/-- Offering one link of the node that was put in the paths last. -/
theorem Sound.offer (hd : Fits db me) (hs : Sound db me P T m) (hu : P[u]? = some p)
    (hm : p.cost = m) (hl : l.status = .up → db.edge u l.neighborId l.cost) :
    Sound db me P (expandLink me P u p.nextHopList T l) m ∧
      (∀ v c h, Covered P T v c h → Covered P (expandLink me P u p.nextHopList T l) v c h) ∧
      (l.status = .up → ∀ h ∈ hopsOver me p u l.neighborId,
        Covered P (expandLink me P u p.nextHopList T l) l.neighborId (p.cost + l.cost)
          h) := by
  unfold expandLink
  by_cases hup : l.status = .up
  · rw [if_neg (not_not.mpr hup)]
    have hedge := hl hup
    obtain ⟨hleast, -⟩ := hs.least hd hu
    have hpos := hd.pos _ _ _ hedge
    have hsum : wrap32 (l.cost + P.lookupCost u) = p.cost + l.cost := by
      have hlookup : P.lookupCost u = p.cost := by
        unfold LsPaths.lookupCost
        rw [hu]
      have hlt := hd.int u l.neighborId p.cost l.cost hleast hedge
      have hnn := hleast.1.nonneg hd.pos
      rw [hlookup, add_comm]
      exact wrap32_of_lt (by omega) hlt
    simp only [hsum]
    by_cases hskip : P.lookupCost l.neighborId < p.cost + l.cost
    · rw [if_pos hskip]
      refine ⟨hs, fun _ _ _ => id, fun _ h _ => ?_⟩
      unfold LsPaths.lookupCost at hskip
      cases hv : P[l.neighborId]? with
      | none =>
        rw [hv] at hskip
        exact .inl hskip
      | some q =>
        rw [hv] at hskip
        exact .inr (.inl ⟨q, hv, .inl hskip⟩)
    · rw [if_neg hskip]
      -- What is in the paths already is not longer than the node itself.
      have hP : P[l.neighborId]? = none := by
        cases hv : P[l.neighborId]? with
        | none => rfl
        | some q =>
          have hq := (hs.least hd hv).2
          unfold LsPaths.lookupCost at hskip
          rw [hv] at hskip
          dsimp only at hskip
          omega
      have hhops : (if u = me then [l.neighborId] else p.nextHopList) =
          hopsOver me p u l.neighborId := rfl
      rw [hhops]
      refine ⟨hs.insert hP ?_ ?_ (by omega) ?_, fun v c h hc => ?_, fun _ h hh => ?_⟩
      · unfold hopsOver
        split
        · exact List.cons_ne_nil _ _
        · next hne => exact (hs.paths u p hu hne).1
      · unfold hopsOver
        split
        · exact List.nodup_singleton _
        · next hne => exact (hs.paths u p hu hne).2.1
      · intro h hh
        unfold hopsOver at hh
        split at hh
        · next hme =>
          subst hme
          obtain rfl := List.mem_singleton.mp hh
          obtain rfl : ⟨0, [u]⟩ = p := Option.some.inj (hs.self.symm.trans hu)
          rw [zero_add]
          exact .single hedge
        · next hne => exact ((hs.paths u p hu hne).2.2.2.2 h hh).snoc hedge
      · exact hc.imp_right fun ho => ho.imp_right fun ho => ho.insertNextHopList _ _ _
      · exact .inr (.inr (LsPaths.offers_insertNextHopList hh))
  · rw [if_pos hup]
    exact ⟨hs, fun _ _ _ => id, fun hup' => absurd hup' hup⟩

end LsRouting

end Ns2XPass
