import Ns2XPass.Routing.SourceRoutes

/-! # Forwarding along the static routes

The row of every source holds the first hops of walks of least cost. Along them
the cost that is left decreases, so forwarding hop by hop arrives without
visiting a node twice, at the least cost.
-/

namespace Ns2XPass

/-- The cost of following a list of nodes, if each is linked to the next one. -/
def LinkCosts.pathCost (links : LinkCosts) : List ℕ → Option ℚ
  | [] => none
  | [_] => some 0
  | u :: v :: vs => do
    let a ← links u v
    let c ← pathCost links (v :: vs)
    return a + c

namespace RouteLogic

variable {ε : Type} {r : RouteLogic ε} {links : LinkCosts} {s : RouteSearch ε} {i j k w : ℕ}

/-! ## The row of one source -/

theorem Exhausted.visit (h : r.Exhausted k s) : r.Exhausted k (r.visit (k + 1) s) := by
  obtain ⟨-, hparent, hhop, -⟩ | ⟨u, hu, hs, hlt, -⟩ := r.visit_cases k s
  · intro w hw hn
    rw [hhop]
    rw [Settled, hparent] at hn
    exact h w hw hn
  · exact absurd hlt (not_lt.mpr (h u hu hs))

theorem Exhausted.foldl_visit (h : r.Exhausted k s) (vs : List ℕ) :
    r.Exhausted k (vs.foldl (fun s _ => r.visit (k + 1) s) s) := by
  induction vs generalizing s with
  | nil => exact h
  | cons v vs ih => exact ih h.visit

/-- Each visit of the loop settles a node, until there is no nearest one. -/
theorem Searched.foldl_visit (h : r.Searched links k s) (hr : r.Represents links)
    (hp : links.Proper) (vs : List ℕ) :
    r.Searched links k (vs.foldl (fun s _ => r.visit (k + 1) s) s) ∧
      r.SameRows (k + 1) s (vs.foldl (fun s _ => r.visit (k + 1) s) s) ∧
      (r.Exhausted k (vs.foldl (fun s _ => r.visit (k + 1) s) s) ∨
        (r.unsettled k (vs.foldl (fun s _ => r.visit (k + 1) s) s)).card + vs.length ≤
          (r.unsettled k s).card) := by
  induction vs generalizing s with
  | nil => exact ⟨h, SameRows.refl, .inr le_rfl⟩
  | cons v vs ih =>
    obtain ⟨h', hrows, hdone⟩ := h.visit hr hp
    obtain ⟨h'', hrows', hdone'⟩ := ih h'
    refine ⟨h'', hrows.trans hrows', ?_⟩
    obtain hex | hcard := hdone
    · exact .inl (hex.foldl_visit vs)
    · obtain hex' | hcard' := hdone'
      · exact .inl hex'
      · rw [List.foldl_cons, List.length_cons]
        exact .inr (by omega)

/-- The row of a source holds the first hops of walks of least cost, and 0 where there is none. -/
def RowDone (r : RouteLogic ε) (links : LinkCosts) (k : ℕ) (route : ℕ → RouteEntry ε) : Prop :=
  ∀ w, w + 1 < r.size → w ≠ k →
    (r.hop k route w = 0 ∧ ∀ c, ¬Walk links.edge k w c) ∨
      ∃ h, r.hop k route w = h + 1 ∧ FirstHop links.edge k w h

theorem Searched.rowDone (h : r.Searched links k s) (hr : r.Represents links) (hp : links.Proper)
    (hb : CostsBelow links.edge infinity) (hex : r.Exhausted k s) : r.RowDone links k s.route := by
  intro w hw hwk
  by_cases hlt : s.hopcnt (w + 1) < infinity
  · obtain ⟨v, hhop, hvia⟩ := h.via w hw hwk hlt
    have hs : Settled k s w := by
      by_contra hs
      exact absurd hlt (not_lt.mpr (hex w hw hs))
    have hleast := h.least w hw hs
    rw [dist, if_neg hwk] at hleast
    exact .inr ⟨v, hhop, _, hvia, hleast⟩
  · refine .inl ⟨h.none w hw hwk (not_lt.mp hlt), fun c hc => ?_⟩
    obtain ⟨c', hc', hwalk⟩ := hb k w c hc
    by_cases hs : Settled k s w
    · have hleast := h.least w hw hs
      rw [dist, if_neg hwk] at hleast
      exact hlt ((hleast.2 c' hwalk).trans_lt hc')
    · obtain ⟨y, hy, hys, hle⟩ := h.border hr hp hwalk hc' hs
      exact absurd (hle.trans_lt hc') (not_lt.mpr (hex y hy hys))

theorem fromSource_spec (hr : r.Represents links) (hp : links.Proper)
    (hb : CostsBelow links.edge infinity) (hk : k + 1 < r.size)
    (hzero : ∀ w, w + 1 < r.size → r.hop k s.route w = 0) :
    r.RowDone links k (r.fromSource s (k + 1)).route ∧
      r.SameRows (k + 1) s (r.fromSource s (k + 1)) := by
  have h := searched_neighbours (s := s) hr hp hk hzero
  have hrows := (foldl_setNeighbour (r := r) (k := k + 1) { s with parent := id }).2.1
  obtain ⟨h', hrows', hdone⟩ := h.foldl_visit hr hp r.nodes
  refine ⟨h'.rowDone hr hp hb ?_, SameRows.trans hrows hrows'⟩
  obtain hex | hcard := hdone
  · exact hex
  · have hlen : r.nodes.length = r.size - 1 := List.length_range'
    have hle : ∀ t : RouteSearch ε, (r.unsettled k t).card ≤ r.size - 1 := fun t =>
      (Finset.card_filter_le _ _).trans_eq (Finset.card_range _)
    have hempty := hcard.trans (hle _)
    rw [hlen] at hempty
    intro w hw hs
    have := Finset.card_pos.mpr ⟨w, mem_unsettled.mpr ⟨hw, hs⟩⟩
    omega

/-! ## All rows -/

theorem foldl_fromSource (hr : r.Represents links) (hp : links.Proper)
    (hb : CostsBelow links.edge infinity) {ks : List ℕ} (hd : ks.Nodup)
    (hks : ∀ k ∈ ks, k ∈ r.nodes)
    (hzero : ∀ k w, k + 1 ∈ ks → w + 1 < r.size → r.hop k s.route w = 0) :
    (∀ k, k + 1 ∈ ks → r.RowDone links k (ks.foldl r.fromSource s).route) ∧
      ∀ k w, k + 1 ∉ ks → w + 1 < r.size →
        r.hop k (ks.foldl r.fromSource s).route w = r.hop k s.route w := by
  induction ks generalizing s with
  | nil => exact ⟨by simp, fun _ _ _ _ => rfl⟩
  | cons k₀ ks ih =>
    obtain ⟨hk₀, hd'⟩ := List.nodup_cons.mp hd
    obtain ⟨h1, hlt⟩ := mem_nodes.mp (hks k₀ List.mem_cons_self)
    obtain ⟨l, rfl⟩ : ∃ l, k₀ = l + 1 := ⟨k₀ - 1, by omega⟩
    obtain ⟨hrow, hsame⟩ := fromSource_spec (s := s) hr hp hb hlt
      (fun w hw => hzero l w List.mem_cons_self hw)
    have hother : ∀ k w, k ≠ l → w + 1 < r.size →
        r.hop k (r.fromSource s (l + 1)).route w = r.hop k s.route w := by
      intro k w hk hw
      rw [hop, hsame (k + 1) (w + 1) (by omega) hw, hop]
    obtain ⟨hrows, hrest⟩ := ih (s := r.fromSource s (l + 1)) hd'
      (fun k hk => hks k (List.mem_cons_of_mem _ hk)) (by
        intro k w hk hw
        have hkl : k ≠ l := by
          rintro rfl
          exact hk₀ hk
        rw [hother k w hkl hw]
        exact hzero k w (List.mem_cons_of_mem _ hk) hw)
    constructor
    · intro k hk w hw hwk
      obtain hk | hk := List.mem_cons.mp hk
      · obtain rfl := Nat.succ.inj hk
        rw [List.foldl_cons, hrest k w hk₀ hw]
        exact hrow w hw hwk
      · exact hrows k hk w hw hwk
    · intro k w hk hw
      rw [List.mem_cons, not_or] at hk
      rw [List.foldl_cons, hrest k w hk.2 hw]
      exact hother k w (fun h => hk.1 (congrArg Nat.succ h)) hw

/-- The loop that makes every node its own route. -/
theorem foldl_diagonal (ks : List ℕ) (hks : ∀ k ∈ ks, k < r.size) (route : ℕ → RouteEntry ε)
    (hj : j < r.size) (hij : i ≠ j) :
    ks.foldl (fun route k => Function.update route (index k k r.size) ⟨k, none⟩) route
      (index i j r.size) = route (index i j r.size) := by
  induction ks generalizing route with
  | nil => rfl
  | cons k ks ih =>
    rw [List.foldl_cons, ih (fun k hk => hks k (List.mem_cons_of_mem _ hk)),
      update_route_self _ _ hj (hks k List.mem_cons_self), if_neg]
    rintro ⟨rfl, rfl⟩
    exact hij rfl

@[simp] theorem size_computeRoutes (memory : ℕ → ℚ) : (r.computeRoutes memory).size = r.size := rfl

/-- What is looked up after the routes have been computed. -/
theorem lookupFlat_computeRoutes (hr : r.Represents links) (hp : links.Proper)
    (hb : CostsBelow links.edge infinity) (memory : ℕ → ℚ) {u v : ℕ} (hu : u + 1 < r.size)
    (hv : v + 1 < r.size) (hne : u ≠ v) :
    ((r.computeRoutes memory).lookupFlat u v = -1 ∧ ∀ c, ¬Walk links.edge u v c) ∨
      ∃ h : ℕ, (r.computeRoutes memory).lookupFlat u v = h ∧ FirstHop links.edge u v h := by
  obtain ⟨hrows, -⟩ := foldl_fromSource (s := ⟨id, memory, fun _ => {}⟩) hr hp hb nodup_nodes
    (fun k hk => hk) (fun _ _ _ _ => rfl)
  have hrow := hrows u (succ_mem_nodes hu) v hv hne.symm
  have hlookup : (r.computeRoutes memory).lookupFlat u v =
      (r.hop u (r.nodes.foldl r.fromSource ⟨id, memory, fun _ => {}⟩).route v : ℤ) - 1 := by
    unfold lookupFlat computeRoutes
    dsimp only
    rw [if_neg (by omega), foldl_diagonal r.nodes (fun k hk => (mem_nodes.mp hk).2) _ hv (by omega),
      hop]
  rw [hlookup]
  obtain ⟨hhop, hno⟩ | ⟨h, hhop, hfirst⟩ := hrow
  · exact .inl ⟨by rw [hhop]; rfl, hno⟩
  · exact .inr ⟨h, by rw [hhop]; omega, hfirst⟩

/-! ## Hop by hop -/

/-- The table of every node holds first hops of walks of least cost. -/
structure ShortestRoutes (r : RouteLogic ε) (links : LinkCosts) : Prop where
  inRange : ∀ u v a, links u v = some a → u + 1 < r.size ∧ v + 1 < r.size
  unreachable : ∀ u v, u + 1 < r.size → v + 1 < r.size → u ≠ v →
    (r.lookupFlat u v = -1 ↔ ∀ c, ¬Walk links.edge u v c)
  nextHop : ∀ u v c, u ≠ v → Walk links.edge u v c →
    ∃ h : ℕ, r.lookupFlat u v = h ∧ FirstHop links.edge u v h
  forwarding : ∀ u v c, u ≠ v → Walk links.edge u v c →
    ∃ fuel vs c', r.forward v fuel u = some vs ∧ vs.head? = some u ∧ vs.getLast? = some v ∧
      vs.Nodup ∧ links.pathCost vs = some c' ∧ LeastCost links.edge u v c'

open Classical in
/-- The nodes from which the destination is reached at a lower cost. -/
noncomputable def nearer (r : RouteLogic ε) (links : LinkCosts) (v : ℕ) (c : ℚ) : Finset ℕ :=
  (Finset.range r.size).filter fun x => ∃ c' < c, LeastCost links.edge x v c'

open Classical in
theorem mem_nearer {v x : ℕ} {c : ℚ} : x ∈ r.nearer links v c ↔
    x < r.size ∧ ∃ c' < c, LeastCost links.edge x v c' := by
  unfold nearer
  rw [Finset.mem_filter, Finset.mem_range]

/-- The first hop is nearer, so forwarding arrives. -/
theorem exists_forward (hp : links.Proper)
    (hfits : ∀ u v a, links u v = some a → u + 1 < r.size ∧ v + 1 < r.size) {v : ℕ}
    (hnext : ∀ u c, u ≠ v → Walk links.edge u v c →
      ∃ h : ℕ, r.lookupFlat u v = h ∧ FirstHop links.edge u v h)
    {u : ℕ} {c : ℚ} (hl : LeastCost links.edge u v c) :
    ∃ fuel vs, r.forward v fuel u = some (u :: vs) ∧ (u :: vs).getLast? = some v ∧
      (u :: vs).Nodup ∧ links.pathCost (u :: vs) = some c ∧
      ∀ x ∈ u :: vs, ∃ c' ≤ c, LeastCost links.edge x v c' := by
  induction hn : (r.nearer links v c).card using Nat.strong_induction_on generalizing u c with
  | _ n ih =>
    by_cases huv : u = v
    · subst huv
      obtain rfl : c = 0 := hl.unique (LeastCost.self fun u v a ha => (hp u v a ha).1)
      refine ⟨1, [], ?_, rfl, List.nodup_singleton u, rfl, fun x hx => ?_⟩
      · rw [forward, if_pos rfl]
      · obtain rfl := List.mem_singleton.mp hx
        exact ⟨0, le_rfl, hl⟩
    · obtain ⟨h, hlookup, hfirst⟩ := hnext u c huv hl.1
      obtain ⟨a, c', ha, hl', hsum⟩ := hfirst.rest
      obtain rfl : c = a + c' := hl.unique hsum
      have hpos := (hp u h a ha).1
      have hlt : (r.nearer links v c').card < n := by
        rw [← hn]
        apply Finset.card_lt_card
        rw [Finset.ssubset_iff_of_subset]
        · refine ⟨h, ?_, ?_⟩
          · exact mem_nearer.mpr ⟨by have := (hfits u h a ha).2; omega, c', by linarith, hl'⟩
          · rw [mem_nearer]
            rintro ⟨-, c'', hlt, hl''⟩
            exact hlt.ne (hl''.unique hl')
        · intro x hx
          rw [mem_nearer] at hx ⊢
          obtain ⟨hx, c'', hlt, hl''⟩ := hx
          exact ⟨hx, c'', by linarith, hl''⟩
      obtain ⟨fuel, vs, hf, hlast, hnodup, hcost, hall⟩ := ih _ hlt hl' rfl
      refine ⟨fuel + 1, h :: vs, ?_, ?_, ?_, ?_, ?_⟩
      · rw [forward, if_neg huv, hlookup, if_pos (Int.natCast_nonneg h), Int.toNat_natCast, hf,
          Option.map_some]
      · rw [List.getLast?_cons_cons]
        exact hlast
      · refine List.nodup_cons.mpr ⟨fun hu => ?_, hnodup⟩
        obtain ⟨c'', hle, hl''⟩ := hall u hu
        have := hl''.unique hl
        linarith
      · rw [LinkCosts.pathCost, ha, hcost]
        rfl
      · intro x hx
        obtain rfl | hx := List.mem_cons.mp hx
        · exact ⟨_, le_rfl, hl⟩
        · obtain ⟨c'', hle, hl''⟩ := hall x hx
          exact ⟨c'', by linarith, hl''⟩

end RouteLogic

end Ns2XPass
