import Ns2XPass.Routing.LinkMatrix
import Mathlib.Data.Finset.Card
import Mathlib.Data.Finset.Range

/-! # The search for the routes of one source

The settled nodes have their least costs, and the hop counts of the others are the
least costs over settled nodes. Each visit settles a nearest node, so in the end
the nodes that are not settled have no finite hop count, and no route either.
-/

namespace Ns2XPass

/-- The links as the edges of a graph with costs. -/
def LinkCosts.edge (links : LinkCosts) (s d : ℕ) (a : ℚ) : Prop := links s d = some a

/-- The costs of the links are positive, and below the bound. -/
def LinkCosts.Proper (links : LinkCosts) : Prop :=
  ∀ s d a, links s d = some a → 0 < a ∧ a < RouteLogic.infinity

namespace RouteLogic

variable {ε : Type} {r : RouteLogic ε} {links : LinkCosts} {s : RouteSearch ε} {i j k o v w : ℕ}

theorem mem_nodes : v ∈ r.nodes ↔ 1 ≤ v ∧ v < r.size := by
  unfold nodes
  rw [List.mem_range'_1]
  omega

theorem succ_mem_nodes (h : v + 1 < r.size) : v + 1 ∈ r.nodes := mem_nodes.mpr ⟨by omega, h⟩

theorem nodup_nodes : r.nodes.Nodup := List.nodup_range'

/-! ## The loops -/

/-- The hop count of a node and its route in the row of the source. -/
def way (r : RouteLogic ε) (k : ℕ) (s : RouteSearch ε) (w : ℕ) : ℚ × RouteEntry ε :=
  (s.hopcnt w, s.route (index k w r.size))

/-- The rows of the other sources stay as they are. -/
def SameRows (r : RouteLogic ε) (k : ℕ) (s s' : RouteSearch ε) : Prop :=
  ∀ i j, i ≠ k → j < r.size → s'.route (index i j r.size) = s.route (index i j r.size)

theorem SameRows.refl : r.SameRows k s s := fun _ _ _ _ => rfl

theorem SameRows.trans {s' s'' : RouteSearch ε} (h : r.SameRows k s s')
    (h' : r.SameRows k s' s'') : r.SameRows k s s'' :=
  fun i j hi hj => (h' i j hi hj).trans (h i j hi hj)

theorem update_route_self (route : ℕ → RouteEntry ε) (e : RouteEntry ε) (hj : j < r.size)
    (hw : w < r.size) : Function.update route (index k w r.size) e (index i j r.size) =
      if i = k ∧ j = w then e else route (index i j r.size) := by
  simp only [Function.update_apply, index_inj hj hw]

/-- The loop over the neighbours of the source. -/
theorem foldl_setNeighbour (s : RouteSearch ε) :
    (r.nodes.foldl (r.setNeighbour k) s).parent = s.parent ∧
      r.SameRows k s (r.nodes.foldl (r.setNeighbour k) s) ∧
      ∀ w, 1 ≤ w → w < r.size → r.way k (r.nodes.foldl (r.setNeighbour k) s) w =
        if s.parent w ≠ k then
          (r.cost k w, if r.cost k w ≠ infinity then ⟨w, (r.adj (index k w r.size)).entry⟩
            else s.route (index k w r.size))
        else r.way k s w := by
  obtain ⟨⟨hparent, hrows⟩, hat⟩ := foldl_places (f := r.setNeighbour k) (c := r.way k)
    (g := fun w e => if s.parent w ≠ k then
          (r.cost k w, if r.cost k w ≠ infinity then ⟨w, (r.adj (index k w r.size)).entry⟩
            else e.2)
        else e)
    (P := fun w => w < r.size) (Q := fun t => t.parent = s.parent ∧ r.SameRows k s t)
    (by
      rintro t w ⟨hp, ht⟩ hw
      have hsame : r.SameRows k t (r.setNeighbour k t w) := by
        intro i j hi hj
        unfold setNeighbour
        dsimp only
        repeat' split
        · dsimp only
          rw [update_route_self _ _ hj hw, if_neg (fun h => hi h.1)]
        · rfl
        · rfl
      refine ⟨?_, ht.trans hsame⟩
      unfold setNeighbour
      dsimp only
      repeat' split
      all_goals exact hp)
    (by
      rintro t w ⟨hp, -⟩ hw
      unfold setNeighbour way
      rw [← hp]
      by_cases hpar : t.parent w ≠ k
      · simp only [if_pos hpar, Function.update_self]
        by_cases hcost : r.cost k w ≠ infinity
        · simp only [if_pos hcost, Function.update_self]
        · simp only [if_neg hcost, Function.update_self]
      · simp only [if_neg hpar])
    (by
      rintro t w v ⟨hp, -⟩ hw hv hne
      unfold setNeighbour way
      dsimp only
      repeat' split
      · simp [update_route_self _ _ hv hw, hne]
      · simp [Function.update_of_ne hne]
      · rfl)
    nodup_nodes (fun w hw => (mem_nodes.mp hw).2) ⟨rfl, SameRows.refl⟩
  refine ⟨hparent, hrows, fun w h1 hw => ?_⟩
  rw [hat w hw, if_pos (mem_nodes.mpr ⟨h1, hw⟩)]
  rfl

/-- The loop over the nodes that may be nearer over `o`. -/
theorem foldl_relax (s : RouteSearch ε) (ho : s.parent o = k) (hlt : o < r.size) :
    (r.nodes.foldl (r.relax k o) s).parent = s.parent ∧
      r.SameRows k s (r.nodes.foldl (r.relax k o) s) ∧
      ∀ w, 1 ≤ w → w < r.size → r.way k (r.nodes.foldl (r.relax k o) s) w =
        if s.parent w ≠ k ∧ s.hopcnt o + r.cost o w < s.hopcnt w then
          (s.hopcnt o + r.cost o w, s.route (index k o r.size))
        else r.way k s w := by
  obtain ⟨⟨hparent, hrows, -⟩, hat⟩ := foldl_places (f := r.relax k o) (c := r.way k)
    (g := fun w e => if s.parent w ≠ k ∧ s.hopcnt o + r.cost o w < e.1 then
          (s.hopcnt o + r.cost o w, s.route (index k o r.size))
        else e)
    (P := fun w => w < r.size)
    (Q := fun t => t.parent = s.parent ∧ r.SameRows k s t ∧ r.way k t o = r.way k s o)
    (by
      rintro t w ⟨hp, ht, hat⟩ hw
      unfold relax
      split
      · next hc =>
        have hne : o ≠ w := by
          rintro rfl
          exact hc.1 (by rw [hp, ho])
        refine ⟨hp, ht.trans fun i j hi hj => ?_, ?_⟩
        · dsimp only
          rw [update_route_self _ _ hj hw, if_neg (fun h => hi h.1)]
        · rw [← hat]
          unfold way
          dsimp only
          rw [Function.update_of_ne hne, update_route_self _ _ hlt hw, if_neg (fun h => hne h.2)]
      · exact ⟨hp, ht, hat⟩)
    (by
      rintro t w ⟨hp, -, hat⟩ hw
      obtain ⟨hh, hr⟩ := Prod.mk.inj hat
      unfold relax way
      rw [← hp, ← hh, ← hr]
      by_cases hc : t.parent w ≠ k ∧ t.hopcnt o + r.cost o w < t.hopcnt w
      · simp only [if_pos hc, Function.update_self]
      · simp only [if_neg hc])
    (by
      rintro t w v ⟨hp, -, -⟩ hw hv hne
      unfold relax way
      split
      · simp [update_route_self _ _ hv hw, hne]
      · rfl)
    nodup_nodes (fun w hw => (mem_nodes.mp hw).2) ⟨rfl, SameRows.refl, rfl⟩
  refine ⟨hparent, hrows, fun w h1 hw => ?_⟩
  rw [hat w hw, if_pos (mem_nodes.mpr ⟨h1, hw⟩)]
  rfl

/-- The loop for the nearest node, over a list of nodes. -/
theorem foldl_nearest (ws : List ℕ) (o : ℕ) :
    let x := ws.foldl (fun o w => if s.parent w ≠ k ∧ s.hopcnt w < s.hopcnt o then w else o) o
    (x = o ∨ x ∈ ws ∧ s.parent x ≠ k ∧ s.hopcnt x < s.hopcnt o) ∧ s.hopcnt x ≤ s.hopcnt o ∧
      ∀ w ∈ ws, s.parent w ≠ k → s.hopcnt x ≤ s.hopcnt w := by
  induction ws generalizing o with
  | nil => exact ⟨.inl rfl, le_rfl, by simp⟩
  | cons w ws ih =>
    rw [List.foldl_cons]
    split
    · next hc =>
      obtain ⟨hx, hle, hall⟩ := ih w
      refine ⟨.inr ?_, hle.trans hc.2.le, List.forall_mem_cons.mpr ⟨fun _ => hle, hall⟩⟩
      obtain hx | ⟨hmem, hp, hlt⟩ := hx
      · rw [hx]
        exact ⟨List.mem_cons_self, hc⟩
      · exact ⟨List.mem_cons_of_mem _ hmem, hp, hlt.trans hc.2⟩
    · next hc =>
      obtain ⟨hx, hle, hall⟩ := ih o
      refine ⟨?_, hle, List.forall_mem_cons.mpr ⟨fun hp => ?_, hall⟩⟩
      · obtain hx | ⟨hmem, hp, hlt⟩ := hx
        · exact .inl hx
        · exact .inr ⟨List.mem_cons_of_mem _ hmem, hp, hlt⟩
      · exact hle.trans (not_lt.mp fun hlt => hc ⟨hp, hlt⟩)

/-- The nearest node without a route, in terms of the numbers from 0 on. -/
theorem nearest_spec (hinf : s.hopcnt 0 = infinity) :
    (r.nearest k s = 0 ∧ ∀ w, w + 1 < r.size → s.parent (w + 1) ≠ k →
        infinity ≤ s.hopcnt (w + 1)) ∨
      ∃ u, r.nearest k s = u + 1 ∧ u + 1 < r.size ∧ s.parent (u + 1) ≠ k ∧
        s.hopcnt (u + 1) < infinity ∧
        ∀ w, w + 1 < r.size → s.parent (w + 1) ≠ k → s.hopcnt (u + 1) ≤ s.hopcnt (w + 1) := by
  obtain ⟨hx, -, hall⟩ := foldl_nearest (s := s) (k := k) r.nodes 0
  have hall : ∀ w, w + 1 < r.size → s.parent (w + 1) ≠ k →
      s.hopcnt (r.nearest k s) ≤ s.hopcnt (w + 1) :=
    fun w hw => hall (w + 1) (succ_mem_nodes hw)
  obtain hx | ⟨hmem, hp, hlt⟩ := hx
  · have hx : r.nearest k s = 0 := hx
    rw [hx, hinf] at hall
    exact .inl ⟨hx, hall⟩
  · have hmem : r.nearest k s ∈ r.nodes := hmem
    obtain ⟨h1, hn⟩ := mem_nodes.mp hmem
    obtain ⟨u, hu⟩ : ∃ u, r.nearest k s = u + 1 := ⟨r.nearest k s - 1, by omega⟩
    have hp : s.parent (r.nearest k s) ≠ k := hp
    have hlt : s.hopcnt (r.nearest k s) < s.hopcnt 0 := hlt
    rw [hu] at hn hp hlt hall
    rw [hinf] at hlt
    exact .inr ⟨u, hu, hn, hp, hlt, hall⟩

/-! ## The search -/

/-- The node has its route, from the source with the number `k`. -/
def Settled (k : ℕ) (s : RouteSearch ε) (v : ℕ) : Prop := s.parent (v + 1) = k + 1

def dist (k : ℕ) (s : RouteSearch ε) (v : ℕ) : ℚ := if v = k then 0 else s.hopcnt (v + 1)

/-- The next hop in the row of the source. -/
def hop (r : RouteLogic ε) (k : ℕ) (route : ℕ → RouteEntry ε) (v : ℕ) : ℕ :=
  (route (index (k + 1) (v + 1) r.size)).nextHop

structure Searched (r : RouteLogic ε) (links : LinkCosts) (k : ℕ) (s : RouteSearch ε) : Prop where
  source : Settled k s k
  bound : ∀ w, w + 1 < r.size → w ≠ k → s.hopcnt (w + 1) ≤ infinity
  none : ∀ w, w + 1 < r.size → w ≠ k → infinity ≤ s.hopcnt (w + 1) → r.hop k s.route w = 0
  via : ∀ w, w + 1 < r.size → w ≠ k → s.hopcnt (w + 1) < infinity →
    ∃ h, r.hop k s.route w = h + 1 ∧ Via links.edge k h w (s.hopcnt (w + 1))
  least : ∀ w, w + 1 < r.size → Settled k s w → LeastCost links.edge k w (dist k s w)
  edges : ∀ x y a, Settled k s x → links.edge x y a → ¬Settled k s y →
    dist k s x + a < infinity → s.hopcnt (y + 1) ≤ dist k s x + a

/-- The way to a node that is not settled is at least as long as one over the border. -/
theorem Searched.border (h : r.Searched links k s) (hr : r.Represents links)
    (hp : links.Proper) {c : ℚ} (hw : Walk links.edge k w c) (hc : c < infinity)
    (hs : ¬Settled k s w) :
    ∃ y, y + 1 < r.size ∧ ¬Settled k s y ∧ s.hopcnt (y + 1) ≤ c := by
  obtain ⟨x, y, c₁, a, hx, hy, hkx, hxy, hle⟩ :=
    hw.exists_border (fun u v a ha => (hp u v a ha).1) h.source hs
  obtain ⟨hxn, hyn⟩ := hr.fits x y a hxy
  have hdist : dist k s x ≤ c₁ := (h.least x hxn hx).2 c₁ hkx
  refine ⟨y, hyn, hy, ?_⟩
  have := h.edges x y a hx hxy hy (by linarith)
  linarith

/-- Before the first visit the source is the only settled node. -/
theorem searched_neighbours (hr : r.Represents links) (hp : links.Proper) (hk : k + 1 < r.size)
    (hzero : ∀ w, w + 1 < r.size → r.hop k s.route w = 0) :
    r.Searched links k (r.nodes.foldl (r.setNeighbour (k + 1)) { s with parent := id }) := by
  obtain ⟨hparent, -, hway⟩ := foldl_setNeighbour (r := r) (k := k + 1) { s with parent := id }
  generalize r.nodes.foldl (r.setNeighbour (k + 1)) { s with parent := id } = t at hparent hway
  have hsettled : ∀ v, Settled k t v ↔ v = k := by
    intro v
    rw [Settled, hparent]
    exact Nat.add_right_cancel_iff
  have hother : ∀ w, w + 1 < r.size → w ≠ k → t.hopcnt (w + 1) = (links k w).getD infinity ∧
      r.hop k t.route w = if r.cost (k + 1) (w + 1) ≠ infinity then w + 1 else 0 := by
    intro w hw hne
    have hne' : (id (w + 1) : ℕ) ≠ k + 1 := fun h => hne (Nat.succ.inj h)
    have hwk := hway (w + 1) (by omega) hw
    rw [if_pos hne'] at hwk
    obtain ⟨hh, hroute⟩ := Prod.mk.inj hwk
    refine ⟨hh.trans (hr.cost k w hk hw), ?_⟩
    rw [hop, hroute]
    split
    · rfl
    · exact hzero w hw
  have hcost : ∀ w, w + 1 < r.size → r.cost (k + 1) (w + 1) = (links k w).getD infinity :=
    fun w hw => hr.cost k w hk hw
  constructor
  · exact (hsettled k).mpr rfl
  · intro w hw hne
    rw [(hother w hw hne).1]
    cases hl : links k w with
    | none => exact le_rfl
    | some a => exact (hp k w a hl).2.le
  · intro w hw hne hinf
    obtain ⟨hh, hhop⟩ := hother w hw hne
    rw [hhop, hcost w hw]
    rw [hh] at hinf
    cases hl : links k w with
    | none => simp
    | some a =>
      rw [hl] at hinf
      exact absurd (hp k w a hl).2 (not_lt.mpr hinf)
  · intro w hw hne hlt
    obtain ⟨hh, hhop⟩ := hother w hw hne
    rw [hh] at hlt ⊢
    rw [hhop, hcost w hw]
    cases hl : links k w with
    | none =>
      rw [hl] at hlt
      exact absurd hlt (lt_irrefl _)
    | some a =>
      refine ⟨w, ?_, .single hl⟩
      rw [if_pos]
      exact (hp k w a hl).2.ne
  · intro w _ hs
    obtain rfl := (hsettled w).mp hs
    rw [dist, if_pos rfl]
    exact LeastCost.self (fun u v a ha => (hp u v a ha).1)
  · intro x y a hx hxy hy _
    obtain rfl := (hsettled x).mp hx
    have hne : y ≠ x := fun h => hy ((hsettled y).mpr h)
    rw [dist, if_pos rfl, (hother y (hr.fits x y a hxy).2 hne).1, hxy, zero_add]
    exact le_rfl

/-- No node that is not settled has a finite hop count. -/
def Exhausted (r : RouteLogic ε) (k : ℕ) (s : RouteSearch ε) : Prop :=
  ∀ w, w + 1 < r.size → ¬Settled k s w → infinity ≤ s.hopcnt (w + 1)

instance (k : ℕ) (s : RouteSearch ε) (w : ℕ) : Decidable (Settled k s w) :=
  inferInstanceAs (Decidable (_ = _))

/-- The nodes that are not settled yet. -/
def unsettled (r : RouteLogic ε) (k : ℕ) (s : RouteSearch ε) : Finset ℕ :=
  (Finset.range (r.size - 1)).filter fun w => ¬Settled k s w

theorem mem_unsettled : w ∈ r.unsettled k s ↔ w + 1 < r.size ∧ ¬Settled k s w := by
  rw [unsettled, Finset.mem_filter, Finset.mem_range]
  constructor
  · rintro ⟨hw, hs⟩
    exact ⟨by omega, hs⟩
  · rintro ⟨hw, hs⟩
    exact ⟨by omega, hs⟩

/-- What a visit does: nothing when all hop counts of the unsettled nodes are infinite, else it
settles a nearest node and offers its links to the others. -/
theorem visit_cases (r : RouteLogic ε) (k : ℕ) (s : RouteSearch ε) :
    (r.Exhausted k s ∧ (∀ w, (r.visit (k + 1) s).parent (w + 1) = s.parent (w + 1)) ∧
        (∀ w, (r.visit (k + 1) s).hopcnt (w + 1) = s.hopcnt (w + 1)) ∧
        (r.visit (k + 1) s).route = s.route) ∨
      ∃ u, u + 1 < r.size ∧ ¬Settled k s u ∧ s.hopcnt (u + 1) < infinity ∧
        (∀ w, w + 1 < r.size → ¬Settled k s w → s.hopcnt (u + 1) ≤ s.hopcnt (w + 1)) ∧
        r.SameRows (k + 1) s (r.visit (k + 1) s) ∧
        (∀ v, Settled k (r.visit (k + 1) s) v ↔ Settled k s v ∨ v = u) ∧
        ∀ w, w + 1 < r.size → r.way (k + 1) (r.visit (k + 1) s) (w + 1) =
          if ¬Settled k (r.visit (k + 1) s) w ∧
              s.hopcnt (u + 1) + r.cost (u + 1) (w + 1) < s.hopcnt (w + 1) then
            (s.hopcnt (u + 1) + r.cost (u + 1) (w + 1), s.route (index (k + 1) (u + 1) r.size))
          else r.way (k + 1) s (w + 1) := by
  have hinf : ({ s with hopcnt := Function.update s.hopcnt 0 infinity } : RouteSearch ε).hopcnt 0 =
      infinity := Function.update_self 0 infinity s.hopcnt
  obtain ⟨ho, hall⟩ | ⟨u, ho, hu, hp, hlt, hall⟩ := nearest_spec (r := r) (k := k + 1) hinf
  · refine .inl ⟨hall, ?_⟩
    unfold visit
    dsimp only
    rw [ho, if_pos rfl]
    refine ⟨fun w => ?_, fun w => ?_, rfl⟩
    · exact Function.update_of_ne (Nat.succ_ne_zero w) (k + 1) s.parent
    · exact Function.update_of_ne (Nat.succ_ne_zero w) infinity s.hopcnt
  · refine .inr ⟨u, hu, hp, hlt, hall, ?_⟩
    unfold visit
    simp only [ho, Nat.succ_ne_zero, if_false]
    obtain ⟨hparent, hrows, hway⟩ := foldl_relax (r := r) (k := k + 1) (o := u + 1)
      ⟨Function.update s.parent (u + 1) (k + 1), Function.update s.hopcnt 0 infinity, s.route⟩
      (Function.update_self _ _ _) hu
    generalize r.nodes.foldl (r.relax (k + 1) (u + 1))
      ⟨Function.update s.parent (u + 1) (k + 1), Function.update s.hopcnt 0 infinity, s.route⟩ = t
      at hparent hrows hway
    refine ⟨hrows, fun v => ?_, fun w hw => ?_⟩
    · unfold Settled
      rw [hparent]
      dsimp only
      by_cases hv : v = u
      · simp [hv]
      · simp [hv]
    · have hw' := hway (w + 1) (by omega) hw
      rw [← hparent] at hw'
      exact hw'

theorem Searched.congr {t : RouteSearch ε} (h : r.Searched links k s)
    (hparent : ∀ w, t.parent (w + 1) = s.parent (w + 1))
    (hhop : ∀ w, t.hopcnt (w + 1) = s.hopcnt (w + 1)) (hroute : t.route = s.route) :
    r.Searched links k t := by
  have hset : ∀ v, Settled k t v ↔ Settled k s v := by
    intro v
    rw [Settled, hparent, Settled]
  have hdist : ∀ v, dist k t v = dist k s v := by
    intro v
    rw [dist, hhop, dist]
  constructor
  · exact (hset k).mpr h.source
  · simpa only [hhop] using h.bound
  · simpa only [hhop, hroute] using h.none
  · simpa only [hhop, hroute] using h.via
  · simpa only [hset, hdist] using h.least
  · simpa only [hset, hdist, hhop] using h.edges

/-- A nearest node that is not settled has its least cost. -/
theorem Searched.least_nearest {u : ℕ} (h : r.Searched links k s) (hr : r.Represents links)
    (hp : links.Proper) (hu : u + 1 < r.size) (hs : ¬Settled k s u)
    (hlt : s.hopcnt (u + 1) < infinity)
    (hall : ∀ w, w + 1 < r.size → ¬Settled k s w → s.hopcnt (u + 1) ≤ s.hopcnt (w + 1)) :
    LeastCost links.edge k u (s.hopcnt (u + 1)) := by
  have hne : u ≠ k := by
    rintro rfl
    exact hs h.source
  obtain ⟨_, -, hvia⟩ := h.via u hu hne hlt
  refine ⟨hvia.walk, fun c hc => ?_⟩
  by_cases hinf : c < infinity
  · obtain ⟨y, hy, hys, hle⟩ := h.border hr hp hc hinf hs
    exact (hall y hy hys).trans hle
  · exact hlt.le.trans (not_lt.mp hinf)

/-- What visiting `u` changes at a node: a better way follows a link of `u`. -/
def Relaxes (r : RouteLogic ε) (links : LinkCosts) (k u : ℕ) (s t : RouteSearch ε) (w : ℕ) : Prop :=
  (∃ a, ¬Settled k t w ∧ links u w = some a ∧ s.hopcnt (u + 1) + a < s.hopcnt (w + 1) ∧
    t.hopcnt (w + 1) = s.hopcnt (u + 1) + a ∧ r.hop k t.route w = r.hop k s.route u) ∨
  (Settled k t w ∨ s.hopcnt (w + 1) ≤ s.hopcnt (u + 1) + r.cost (u + 1) (w + 1)) ∧
    t.hopcnt (w + 1) = s.hopcnt (w + 1) ∧ r.hop k t.route w = r.hop k s.route w

section Visit

variable {u : ℕ} {t : RouteSearch ε} (h : r.Searched links k s) (hr : r.Represents links)
  (hu : u + 1 < r.size)
include h hr hu

theorem Searched.relaxes (hpos : 0 ≤ s.hopcnt (u + 1)) (hw : w + 1 < r.size) (hwk : w ≠ k)
    (hway : r.way (k + 1) t (w + 1) =
      if ¬Settled k t w ∧ s.hopcnt (u + 1) + r.cost (u + 1) (w + 1) < s.hopcnt (w + 1) then
        (s.hopcnt (u + 1) + r.cost (u + 1) (w + 1), s.route (index (k + 1) (u + 1) r.size))
      else r.way (k + 1) s (w + 1)) : Relaxes r links k u s t w := by
  split at hway
  · next hc =>
    obtain ⟨hh, hrt⟩ := Prod.mk.inj hway
    have hcost := hr.cost u w hu hw
    have hbound := h.bound w hw hwk
    have hbetter := hc.2
    cases hl : links u w with
    | none =>
      rw [hl, Option.getD_none] at hcost
      rw [hcost] at hbetter
      linarith
    | some a =>
      rw [hl, Option.getD_some] at hcost
      rw [hcost] at hh hbetter
      exact .inl ⟨a, hc.1, hl, hbetter, hh, by rw [hop, hrt, hop]⟩
  · next hc =>
    obtain ⟨hh, hrt⟩ := Prod.mk.inj hway
    refine .inr ⟨?_, hh, by rw [hop, hrt, hop]⟩
    by_contra hno
    rw [not_or, not_le] at hno
    exact hc hno

/-- The nearest node is settled, and its links are offered. -/
theorem Searched.settle (hs : ¬Settled k s u) (hlt : s.hopcnt (u + 1) < infinity)
    (hleast : LeastCost links.edge k u (s.hopcnt (u + 1)))
    (hset : ∀ v, Settled k t v ↔ Settled k s v ∨ v = u)
    (hdist : ∀ w, w + 1 < r.size → Settled k t w → dist k t w = dist k s w)
    (hrel : ∀ w, w + 1 < r.size → w ≠ k → Relaxes r links k u s t w) : r.Searched links k t := by
  have hne : u ≠ k := by
    rintro rfl
    exact hs h.source
  constructor
  · exact (hset k).mpr (.inl h.source)
  · intro w hw hwk
    have := h.bound w hw hwk
    obtain ⟨a, -, -, hbetter, hh, -⟩ | ⟨-, hh, -⟩ := hrel w hw hwk
    · rw [hh]
      exact hbetter.le.trans this
    · rwa [hh]
  · intro w hw hwk hinf
    have := h.bound w hw hwk
    obtain ⟨a, -, -, hbetter, hh, -⟩ | ⟨-, hh, hhop⟩ := hrel w hw hwk
    · rw [hh] at hinf
      linarith
    · rw [hhop]
      rw [hh] at hinf
      exact h.none w hw hwk hinf
  · intro w hw hwk hfin
    obtain ⟨a, -, hl, -, hh, hhop⟩ | ⟨-, hh, hhop⟩ := hrel w hw hwk
    · obtain ⟨v, hv, hvia⟩ := h.via u hu hne hlt
      rw [hh, hhop]
      exact ⟨v, hv, hvia.snoc hl⟩
    · rw [hh, hhop]
      rw [hh] at hfin
      exact h.via w hw hwk hfin
  · intro w hw hsw
    rw [hdist w hw hsw]
    obtain hsw | rfl := (hset w).mp hsw
    · exact h.least w hw hsw
    · rwa [dist, if_neg hne]
  · intro x y a hx hxy hy hfin
    obtain ⟨hxn, hyn⟩ := hr.fits x y a hxy
    have hyk : y ≠ k := by
      rintro rfl
      exact hy ((hset y).mpr (.inl h.source))
    have hsy : ¬Settled k s y := fun hsy => hy ((hset y).mpr (.inl hsy))
    rw [hdist x hxn hx] at hfin ⊢
    obtain hx | rfl := (hset x).mp hx
    · have hle := h.edges x y a hx hxy hsy hfin
      obtain ⟨b, -, -, hbetter, hh, -⟩ | ⟨-, hh, -⟩ := hrel y hyn hyk
      · rw [hh]
        linarith
      · rwa [hh]
    · rw [dist, if_neg hne]
      obtain ⟨b, -, hb, hbetter, hh, -⟩ | ⟨hno, hh, -⟩ := hrel y hyn hyk
      · obtain rfl : a = b := Option.some.inj (hxy.symm.trans hb)
        exact hh.le
      · rw [hh]
        have hcost := hr.cost x y hxn hyn
        rw [hxy, Option.getD_some] at hcost
        rw [hcost] at hno
        exact hno.resolve_left hy

end Visit

theorem Searched.visit (h : r.Searched links k s) (hr : r.Represents links) (hp : links.Proper) :
    r.Searched links k (r.visit (k + 1) s) ∧ r.SameRows (k + 1) s (r.visit (k + 1) s) ∧
      (r.Exhausted k (r.visit (k + 1) s) ∨
        (r.unsettled k (r.visit (k + 1) s)).card < (r.unsettled k s).card) := by
  obtain ⟨hex, hparent, hhop, hroute⟩ | ⟨u, hu, hs, hlt, hall, hrows, hset, hway⟩ :=
    r.visit_cases k s
  · refine ⟨h.congr hparent hhop hroute, fun i j _ _ => by rw [hroute], .inl fun w hw hn => ?_⟩
    rw [hhop]
    rw [Settled, hparent] at hn
    exact hex w hw hn
  · have hleast := h.least_nearest hr hp hu hs hlt hall
    have hpos := hleast.1.nonneg (fun u v a ha => (hp u v a ha).1)
    generalize r.visit (k + 1) s = t at hrows hset hway
    have hsu : Settled k t u := (hset u).mpr (.inr rfl)
    have hdist : ∀ w, w + 1 < r.size → Settled k t w → dist k t w = dist k s w := by
      intro w hw hsw
      have hkeep := hway w hw
      rw [if_neg (fun hc => hc.1 hsw)] at hkeep
      rw [dist, (Prod.mk.inj hkeep).1, dist]
    refine ⟨h.settle hr hu hs hlt hleast hset hdist fun w hw hwk =>
      h.relaxes hr hu hpos hw hwk (hway w hw), hrows, .inr ?_⟩
    apply Finset.card_lt_card
    rw [Finset.ssubset_iff_of_subset]
    · exact ⟨u, mem_unsettled.mpr ⟨hu, hs⟩, fun hmem => (mem_unsettled.mp hmem).2 hsu⟩
    · intro w hw
      obtain ⟨hwn, hsw⟩ := mem_unsettled.mp hw
      exact mem_unsettled.mpr ⟨hwn, fun hsw' => hsw ((hset w).mpr (.inl hsw'))⟩

end RouteLogic

end Ns2XPass
