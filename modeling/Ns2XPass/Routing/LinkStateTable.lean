import Ns2XPass.Routing.LinkStateRuns

/-! # The table of the link-state routes

Every pop installs a pair of a destination and a next hop that the table did not
have, so the loops come to an end. Then the table has the destinations that can
be reached, with all first hops of walks of least cost.
-/

namespace Ns2XPass

namespace LsRouting

variable {db : LsTopoMap} {me u v w c h m : ℤ} {P T P' T' : LsPaths} {p : LsEqualPaths}
  {links : List LsLinkState}

/-! ## The pairs that are missing -/

def neighbours (db : LsTopoMap) : Finset ℤ :=
  (db.toList.flatMap fun q => q.2.map LsLinkState.neighborId).toFinset

theorem mem_neighbours {a : ℤ} (h : db.edge u v a) : v ∈ neighbours db := by
  obtain ⟨links, hlinks, l, hl, -, rfl, -⟩ := h
  unfold neighbours
  rw [List.mem_toFinset, List.mem_flatMap]
  exact ⟨(u, links), Std.TreeMap.mem_toList_iff_getElem?_eq_some.mpr hlinks,
    List.mem_map_of_mem hl⟩

open Classical in
/-- The destinations and next hops that are not in the table. -/
noncomputable def missing (db : LsTopoMap) (P : LsPaths) : Finset (ℤ × ℤ) :=
  (neighbours db ×ˢ neighbours db).filter fun q =>
    ¬∃ p, P[q.1]? = some p ∧ q.2 ∈ p.nextHopList

theorem mem_missing : (v, h) ∈ missing db P ↔
    (v ∈ neighbours db ∧ h ∈ neighbours db) ∧ ¬∃ p, P[v]? = some p ∧ h ∈ p.nextHopList := by
  classical
  unfold missing
  rw [Finset.mem_filter, Finset.mem_product]

theorem Popped.missing_lt (hp : Popped db me P P' T' v c h) :
    (missing db P').card < (missing db P).card := by
  apply Finset.card_lt_card
  rw [Finset.ssubset_iff_of_subset]
  · refine ⟨(v, h), mem_missing.mpr ⟨⟨?_, ?_⟩, ?_⟩, fun hmem => ?_⟩
    · obtain ⟨a, c', ha, hw, -⟩ := hp.first
      cases hw with
      | nil => exact mem_neighbours ha
      | snoc _ he => exact mem_neighbours he
    · obtain ⟨a, c', ha, -, -⟩ := hp.first
      exact mem_neighbours ha
    · rintro ⟨p, hv, hh⟩
      exact hp.more.new p hv hh
    · obtain ⟨p, hv, -, hh⟩ := hp.more.self
      exact (mem_missing.mp hmem).2 ⟨p, hv, hh⟩
  · rintro ⟨w, x⟩ hmem
    obtain ⟨hn, hno⟩ := mem_missing.mp hmem
    refine mem_missing.mpr ⟨hn, ?_⟩
    rintro ⟨p, hw, hx⟩
    by_cases hwv : w = v
    · subst hwv
      obtain ⟨p', hw', -, hsub⟩ := hp.more.kept p hw
      exact hno ⟨p', hw', hsub x hx⟩
    · exact hno ⟨p, by rwa [hp.more.other w hwv], hx⟩

/-! ## The loops -/

/-- The inner loop ends with the last path, or at a node that has links to offer. -/
theorem Sound.popUntilRecord (hd : Fits db me) {fuel : ℕ} (hfuel : (missing db P).card < fuel)
    (hs : Sound db me P T m) (hall : ∀ v, Expanded db me P T v) :
    (∃ P' T' m', popUntilRecord db fuel P T = .ok (none, P', T') ∧ T'.isEmpty = true ∧
        Sound db me P' T' m' ∧ ∀ v, Expanded db me P' T' v) ∨
      ∃ v links P' T' p, LsRouting.popUntilRecord db fuel P T = .ok (some (v, links), P', T') ∧
        db[v]? = some links ∧ P'[v]? = some p ∧ Sound db me P' T' p.cost ∧
        (∀ u, u ≠ v → Expanded db me P' T' u) ∧
        (missing db P').card < (missing db P).card := by
  induction fuel generalizing P T m with
  | zero => omega
  | succ fuel ih =>
    unfold LsRouting.popUntilRecord
    by_cases hT : T.isEmpty = true
    · rw [if_pos hT]
      exact .inl ⟨P, T, m, rfl, hT, hs, hall⟩
    · obtain ⟨v, c, h, hpop, hp⟩ := hs.pop hd hall hT
      rw [if_neg hT]
      dsimp only
      rw [hpop, hp.valid, Bool.not_true, if_neg Bool.false_ne_true]
      dsimp only
      have hlt := hp.missing_lt
      cases hrec : db[v]? with
      | some links =>
        obtain ⟨q, hq, rfl, -⟩ := hp.more.self
        exact .inr ⟨v, links, _, _, q, rfl, hrec, hq, hp.sound, hp.expanded, hlt⟩
      | none =>
        have hall' : ∀ u, Expanded db me (P.insertPath v c h) T.popShortestPath.2 u := by
          intro u
          by_cases hu : u = v
          · rintro q w a - ⟨links, hlinks, -⟩
            rw [hu, hrec] at hlinks
            simp at hlinks
          · exact hp.expanded u hu
        obtain hend | ⟨v', links, P', T', q, heq, hrec', hq, hs', hexp, hlt'⟩ :=
          ih (by omega) hp.sound hall'
        · exact .inl hend
        · exact .inr ⟨v', links, P', T', q, heq, hrec', hq, hs', hexp, hlt'.trans hlt⟩

/-- The table that the routes should have. -/
structure Routes (db : LsTopoMap) (me : ℤ) (P : LsPaths) : Prop where
  self : P[me]? = some ⟨0, [me]⟩
  reached : ∀ v : ℤ, (∃ p, P[v]? = some p) ↔ ∃ c, Walk db.edge me v c
  cost : ∀ (v : ℤ) (p : LsEqualPaths), P[v]? = some p → LeastCost db.edge me v p.cost
  nodup : ∀ (v : ℤ) (p : LsEqualPaths), P[v]? = some p → p.nextHopList.Nodup
  nextHops : ∀ (v : ℤ) (p : LsEqualPaths), P[v]? = some p → v ≠ me →
    ∀ h, h ∈ p.nextHopList ↔ FirstHop db.edge me v h

theorem Sound.reached (hd : Fits db me) (hs : Sound db me P T m)
    (hall : ∀ v, Expanded db me P T v) (hT : ∀ v : ℤ, T[v]? = none)
    (hw : Walk db.edge me v c) : ∃ p, P[v]? = some p := by
  apply Option.ne_none_iff_exists'.mp
  intro hv
  obtain ⟨c, hc⟩ := hw.exists_least hd.pos
  obtain hmax | ⟨y, t, ht, -⟩ := hs.exists_tentative hd hall hc.1 hv
  · have := hd.max v c hc
    omega
  · rw [hT] at ht
    simp at ht

/-- What is covered is in the table when no path is under way and the cost is the least one. -/
theorem Covered.mem (hd : Fits db me) (hs : Sound db me P T m) (hT : ∀ v : ℤ, T[v]? = none)
    (hc : Covered P T v c h) (hl : LeastCost db.edge me v c) (hv : P[v]? = some p) :
    h ∈ p.nextHopList := by
  have hcost := (hs.least hd hv).1.unique hl
  obtain hmax | ⟨q, hq, hcase⟩ | ⟨t, ht, -⟩ := hc
  · have := hd.max v c hl
    omega
  · obtain rfl : q = p := Option.some.inj (hq.symm.trans hv)
    obtain hlt | ⟨-, hmem⟩ := hcase
    · omega
    · exact hmem
  · rw [hT] at ht
    simp at ht

/-- Along a walk of least cost the first hop is handed on from node to node. -/
theorem Sound.mem_of_firstHop (hd : Fits db me) (hs : Sound db me P T m)
    (hall : ∀ v, Expanded db me P T v) (hT : ∀ v : ℤ, T[v]? = none) {a : ℤ}
    (ha : db.edge me h a) (hw : Walk db.edge h v c) (hl : LeastCost db.edge me v (a + c))
    (hv : P[v]? = some p) : h ∈ p.nextHopList := by
  induction hw generalizing p with
  | nil =>
    have hself : h ∈ hopsOver me ⟨0, [me]⟩ me h := by
      rw [hopsOver, if_pos rfl]
      exact List.mem_singleton_self h
    have hcov := hall me _ h a hs.self ha h hself
    rw [zero_add] at hcov
    rw [add_zero] at hl
    exact hcov.mem hd hs hT hl hv
  | @snoc y x c b hw he ih =>
    rw [← add_assoc] at hl
    obtain ⟨hy, -⟩ := hl.parts ((Walk.single ha).trans hw) (.single he)
    obtain ⟨q, hq⟩ := hs.reached hd hall hT hy.1
    have hyme : y ≠ me := by
      rintro rfl
      have := hy.unique (LeastCost.self hd.pos)
      have := hd.pos _ _ _ ha
      have := hw.nonneg hd.pos
      omega
    have hmem := ih hy hq
    have hcov := hall y q x b hq he h (by rwa [hopsOver, if_neg hyme])
    rw [(hs.least hd hq).1.unique hy] at hcov
    exact hcov.mem hd hs hT hl hv

theorem Sound.routes (hd : Fits db me) (hs : Sound db me P T m)
    (hall : ∀ v, Expanded db me P T v) (hT : T.isEmpty = true) : Routes db me P := by
  rw [LsMap.isEmpty_iff] at hT
  constructor
  · exact hs.self
  · intro v
    constructor
    · rintro ⟨p, hp⟩
      exact ⟨p.cost, (hs.least hd hp).1.1⟩
    · rintro ⟨c, hw⟩
      exact hs.reached hd hall hT hw
  · exact fun v p hp => (hs.least hd hp).1
  · intro v p hp
    by_cases hv : v = me
    · subst hv
      obtain rfl : ⟨0, [v]⟩ = p := Option.some.inj (hs.self.symm.trans hp)
      exact List.nodup_singleton v
    · exact (hs.paths v p hp hv).2.1
  · intro v p hp hv h
    constructor
    · intro hh
      obtain ⟨-, -, hl, -, hvia⟩ := hs.paths v p hp hv
      exact ⟨p.cost, hvia h hh, hl⟩
    · rintro ⟨_, ⟨a, c, ha, hw, rfl⟩, hl⟩
      exact hs.mem_of_firstHop hd hall hT ha hw hl hp

/-- The outer loop, from a node that was installed last. -/
theorem Sound.computeFrom (hd : Fits db me) {fuel : ℕ} (hfuel : (missing db P).card < fuel)
    (hs : Sound db me P T m) (hu : P[u]? = some p) (hm : p.cost = m)
    (hlinks : db[u]? = some links) (hall : ∀ v, v ≠ u → Expanded db me P T v) :
    ∃ P', computeFrom db me fuel P T u links = .ok P' ∧ Routes db me P' := by
  induction fuel generalizing P T m u p links with
  | zero => omega
  | succ fuel ih =>
    obtain ⟨T₁, hexp, hs₁, hall₁⟩ := hs.exists_expand hd hu hm hlinks hall
    unfold LsRouting.computeFrom
    rw [hexp]
    obtain ⟨P', T', m', heq, hT, hs', hall'⟩ |
        ⟨v, links', P', T', q, heq, hrec, hq, hs', hexp', hlt⟩ :=
      hs₁.popUntilRecord hd hfuel hall₁
    · refine ⟨P', ?_, hs'.routes hd hall' hT⟩
      simp only [bind, Except.bind, heq, pure, Except.pure]
    · obtain ⟨P'', hP'', hroutes⟩ := ih (by omega) hs' hq rfl hrec hexp'
      refine ⟨P'', ?_, hroutes⟩
      simp only [bind, Except.bind, heq]
      exact hP''

theorem sound_start (me : ℤ) :
    Sound db me ((∅ : LsPaths).insert me ⟨0, [me]⟩) ∅ 0 where
  self := by rw [LsMap.get_insert, if_pos rfl]
  nonneg := le_rfl
  paths v p hp hv := by
    rw [LsMap.get_insert, if_neg hv.symm, LsMap.get_empty] at hp
    simp at hp
  tentative v t ht := by
    rw [LsMap.get_empty] at ht
    simp at ht
  both v p t _ ht := by
    rw [LsMap.get_empty] at ht
    simp at ht

/-- The routes are computed without an error, and the table has the destinations that can be
reached, at their least costs, with the first hops of all walks of least cost. -/
theorem computeRoutes_correct (hd : Fits db me) :
    ∃ n, ∀ fuel ≥ n, ∃ P, computeRoutes db me fuel = .ok P ∧ Routes db me P := by
  have hstart : ∀ v, v ≠ me → Expanded db me ((∅ : LsPaths).insert me ⟨0, [me]⟩) ∅ v := by
    rintro v hv p w a hp -
    rw [LsMap.get_insert, if_neg hv.symm, LsMap.get_empty] at hp
    simp at hp
  refine ⟨(missing db ((∅ : LsPaths).insert me ⟨0, [me]⟩)).card + 1, fun fuel hfuel => ?_⟩
  unfold computeRoutes
  cases hrec : db[me]? with
  | none =>
    refine ⟨_, rfl, (sound_start me).routes hd (fun v => ?_) Std.TreeMap.isEmpty_emptyc⟩
    by_cases hv : v = me
    · rintro q w a - ⟨links, hlinks, -⟩
      rw [hv, hrec] at hlinks
      simp at hlinks
    · exact hstart v hv
  | some links =>
    have hsound : Sound db me ((∅ : LsPaths).insert me ⟨0, [me]⟩) ∅ 0 := sound_start me
    exact hsound.computeFrom hd (by omega) hsound.self rfl hrec hstart

/-- The links that are up, as a list. -/
def upLinks (db : LsTopoMap) : List (ℤ × ℤ × ℤ) :=
  db.toList.flatMap fun q =>
    (q.2.filter (·.status = .up)).map fun l => (q.1, l.neighborId, l.cost)

theorem edge_iff {a : ℤ} : db.edge u v a ↔ (u, v, a) ∈ upLinks db := by
  unfold upLinks LsTopoMap.edge
  rw [List.mem_flatMap]
  constructor
  · rintro ⟨links, hlinks, l, hl, hup, rfl, rfl⟩
    exact ⟨(u, links), Std.TreeMap.mem_toList_iff_getElem?_eq_some.mpr hlinks,
      List.mem_map.mpr ⟨l, List.mem_filter.mpr ⟨hl, decide_eq_true hup⟩, rfl⟩⟩
  · rintro ⟨⟨x, links⟩, hlinks, hmem⟩
    obtain ⟨l, hl, heq⟩ := List.mem_map.mp hmem
    obtain ⟨hl, hup⟩ := List.mem_filter.mp hl
    simp only [Prod.mk.injEq] at heq
    obtain ⟨rfl, rfl, rfl⟩ := heq
    exact ⟨links, Std.TreeMap.mem_toList_iff_getElem?_eq_some.mp hlinks, l, hl,
      of_decide_eq_true hup, rfl, rfl⟩

/-- Two ways of the same cost to node 3. -/
def diamond : LsTopoMap :=
  (((∅ : LsTopoMap).insert 0 [⟨1, .up, 1⟩, ⟨2, .up, 1⟩, ⟨3, .down, 1⟩]).insert 1
    [⟨3, .up, 2⟩]).insert 2 [⟨3, .up, 2⟩]

theorem computeRoutes_diamond :
    ∃ n, ∀ fuel ≥ n, ∃ P, computeRoutes diamond 0 fuel = .ok P ∧ Routes diamond 0 P := by
  have hlinks : upLinks diamond = [(0, 1, 1), (0, 2, 1), (1, 3, 2), (2, 3, 2)] := by
    decide +kernel
  have hedge : ∀ u v a, diamond.edge u v a →
      u = 0 ∧ v = 1 ∧ a = 1 ∨ u = 0 ∧ v = 2 ∧ a = 1 ∨ u = 1 ∧ v = 3 ∧ a = 2 ∨
        u = 2 ∧ v = 3 ∧ a = 2 := by
    intro u v a ha
    rw [edge_iff, hlinks] at ha
    simpa using ha
  have hwalk : ∀ v c, Walk diamond.edge 0 v c →
      v = 0 ∧ c = 0 ∨ v = 1 ∧ c = 1 ∨ v = 2 ∧ c = 1 ∨ v = 3 ∧ c = 3 := by
    intro v c hw
    induction hw with
    | nil => exact .inl ⟨rfl, rfl⟩
    | snoc _ he ih =>
      have := hedge _ _ _ he
      omega
  refine computeRoutes_correct ⟨fun u v a ha => ?_, fun v c hl => ?_, fun u v c a hl ha => ?_,
    fun v c hw _ => ?_⟩
  · have := hedge u v a ha
    omega
  · have := hwalk v c hl.1
    unfold lsMaxCost
    omega
  · have := hedge u v a ha
    have := hwalk u c hl.1
    omega
  · have := hwalk v c hw
    unfold lsInvalidNodeId
    omega

/-! ## Numbers that do not fit -/

/-- A neighbour has the number that stands for no node. -/
def noNode : LsTopoMap := (∅ : LsTopoMap).insert 0 [⟨65535, .up, 1⟩]

/-- The cost of the way to node 2 over node 1 does not fit into an `int`. -/
def tooLong : LsTopoMap :=
  ((∅ : LsTopoMap).insert 0 [⟨1, .up, 1⟩, ⟨2, .up, 5⟩]).insert 1 [⟨2, .up, 2147483647⟩]

/-- The pop of a path to node 65535 ends in an error, and a sum that wraps around is installed as
a least cost. -/
theorem computeRoutes_does_not_fit :
    ((∀ u v a, noNode.edge u v a → 1 ≤ a) ∧
        (∀ v c, LeastCost noNode.edge 0 v c → c ≤ lsMaxCost) ∧
        ∃ fuel, computeRoutes noNode 0 fuel matches .error .popFailed) ∧
      (∀ u v a, tooLong.edge u v a → 1 ≤ a) ∧
        (∀ v c, LeastCost tooLong.edge 0 v c → c ≤ lsMaxCost) ∧
        ∃ fuel P, computeRoutes tooLong 0 fuel = .ok P ∧ ¬Routes tooLong 0 P := by
  have hnone : ∀ u v a, noNode.edge u v a → u = 0 ∧ v = 65535 ∧ a = 1 := by
    intro u v a ha
    rw [edge_iff, show upLinks noNode = [(0, 65535, 1)] by decide +kernel] at ha
    simpa using ha
  have hlong : ∀ u v a, tooLong.edge u v a →
      u = 0 ∧ v = 1 ∧ a = 1 ∨ u = 0 ∧ v = 2 ∧ a = 5 ∨ u = 1 ∧ v = 2 ∧ a = 2147483647 := by
    intro u v a ha
    rw [edge_iff, show upLinks tooLong = [(0, 1, 1), (0, 2, 5), (1, 2, 2147483647)] by
      decide +kernel] at ha
    simpa using ha
  refine ⟨⟨fun u v a ha => ?_, fun v c hl => ?_, 3, by decide +kernel⟩, fun u v a ha => ?_,
    fun v c hl => ?_, 5, ?_⟩
  · have := hnone u v a ha
    omega
  · have hc : v = 0 ∧ c = 0 ∨ v = 65535 ∧ c = 1 := by
      have hw := hl.1
      clear hl
      induction hw with
      | nil => exact .inl ⟨rfl, rfl⟩
      | snoc _ he ih =>
        have := hnone _ _ _ he
        omega
    unfold lsMaxCost
    omega
  · have := hlong u v a ha
    omega
  · have hv : v = 0 ∨ v = 1 ∨ v = 2 := by
      have hw := hl.1
      clear hl
      cases hw with
      | nil => exact .inl rfl
      | snoc _ he =>
        have := hlong _ _ _ he
        omega
    unfold lsMaxCost
    obtain rfl | rfl | rfl := hv
    · exact (hl.2 0 .nil).trans (by decide)
    · exact (hl.2 1 (.single (edge_iff.mpr (by decide +kernel)))).trans (by decide)
    · exact (hl.2 5 (.single (edge_iff.mpr (by decide +kernel)))).trans (by decide)
  · have htwo : (computeRoutes tooLong 0 5).toOption.bind (fun P => P[(2 : ℤ)]?) =
        some ⟨-2147483648, [1]⟩ := by decide +kernel
    cases hP : computeRoutes tooLong 0 5 with
    | error e =>
      rw [hP] at htwo
      exact absurd htwo (by simp [Except.toOption])
    | ok P =>
      rw [hP] at htwo
      refine ⟨P, rfl, fun hr => ?_⟩
      have hnn := (hr.cost 2 _ htwo).1.nonneg fun u v a ha => (by have := hlong u v a ha; omega)
      simp at hnn

end LsRouting

end Ns2XPass
