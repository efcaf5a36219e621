import Ns2XPass.Routing.Forwarding
import Ns2XPass.Routing.HierRuns
import Mathlib.Data.Rat.Cast.Order
import Mathlib.Logic.Relation

/-! # Lookups of hierarchical routes

The matrix of each cluster is searched as a flat one is. A node looks up the domain, the cluster
or the node of the destination in the matrix of its own cluster, and the first hop
of the walk that has been found is an edge that one of its own links stands for.
-/

namespace Ns2XPass

open Hierarchy HierRoutes

namespace HierRoutes

variable {h : Hierarchy} {B : ℤ} {r r' : HierRoutes} {links : List (HierAddress × HierAddress)}
  {src dst : HierAddress} {z : ℕ × ℕ} {u v : HierVertex} {x y : ℕ}

/-! ### The matrices as graphs -/

/-- Two vertices with an edge in the matrix of a cluster. -/
def Adjacent (h : Hierarchy) (r : HierRoutes) (z : ℕ × ℕ) (u v : HierVertex) : Prop :=
  h.Has z u ∧ h.Has z v ∧ r.cell (h.place z.1 z.2) (h.edgePlace z u v) ≠ infinity

/-- The costs in the matrix of a cluster, between vertices that are numbered from 0. -/
def matrixLinks (h : Hierarchy) (r : HierRoutes) (z : ℕ × ℕ) : LinkCosts := fun s d =>
  if (s + 1 < h.stride z.1 z.2 ∧ d + 1 < h.stride z.1 z.2) ∧
      r.cell (h.place z.1 z.2) (RouteLogic.index (s + 1) (d + 1) (h.stride z.1 z.2)) ≠ infinity
  then some (r.cell (h.place z.1 z.2) (RouteLogic.index (s + 1) (d + 1) (h.stride z.1 z.2)))
  else none

theorem matrixLinks_eq_some {a : ℚ} : (r.matrixLinks h z).edge x y a ↔
    ((x + 1 < h.stride z.1 z.2 ∧ y + 1 < h.stride z.1 z.2) ∧
      r.cell (h.place z.1 z.2) (RouteLogic.index (x + 1) (y + 1) (h.stride z.1 z.2)) ≠
        infinity) ∧
      r.cell (h.place z.1 z.2) (RouteLogic.index (x + 1) (y + 1) (h.stride z.1 z.2)) = a := by
  unfold LinkCosts.edge matrixLinks
  rw [Option.ite_none_right_eq_some, Option.some.injEq]

theorem cast_infinity : ((infinity : ℤ) : ℚ) = RouteLogic.infinity := by
  unfold infinity RouteLogic.infinity
  norm_num

theorem matrix_represents (ha : 0 < r.hsize (h.place z.1 z.2)) :
    (r.matrix h z.1 z.2).Represents (r.matrixLinks h z) where
  fits s d c hl := (matrixLinks_eq_some.mp hl).1.1
  cost s d hs hd := by
    have hcost : (r.matrix h z.1 z.2).cost (s + 1) (d + 1) =
        (r.cell (h.place z.1 z.2) (RouteLogic.index (s + 1) (d + 1) (h.stride z.1 z.2)) : ℚ) := by
      unfold cell
      rw [if_neg ha.ne']
      rfl
    rw [hcost]
    unfold matrixLinks
    by_cases hc : r.cell (h.place z.1 z.2)
        (RouteLogic.index (s + 1) (d + 1) (h.stride z.1 z.2)) = infinity
    · rw [if_neg fun h' => h'.2 hc, hc]
      exact cast_infinity
    · rw [if_pos ⟨⟨hs, hd⟩, hc⟩]
      rfl

theorem matrixLinks_proper (hI : HierSound h B r links) (hB : B < infinity) :
    (r.matrixLinks h z).Proper := by
  intro s d a hl
  obtain ⟨⟨-, hc⟩, rfl⟩ := matrixLinks_eq_some.mp hl
  obtain ⟨h1, hcB⟩ := hI.costs _ _ hc
  refine ⟨by exact_mod_cast h1, ?_⟩
  rw [← cast_infinity]
  exact_mod_cast hcB.trans_lt hB

theorem exists_walk (hz : z ∈ h.clusters)
    (hp : Relation.ReflTransGen (r.Adjacent h z) u v) :
    ∃ c, Walk (r.matrixLinks h z).edge (h.number z u - 1) (h.number z v - 1) c := by
  induction hp with
  | refl => exact ⟨0, .nil⟩
  | @tail v w hp he ih =>
    obtain ⟨c, hw⟩ := ih
    obtain ⟨hv, hw', hc⟩ := he
    have hvn := number_lt hz hv
    have hwn := number_lt hz hw'
    refine ⟨_, hw.snoc (matrixLinks_eq_some.mpr ⟨⟨⟨?_, ?_⟩, ?_⟩, rfl⟩)⟩
    · omega
    · omega
    · rw [Nat.sub_add_cancel hvn.1, Nat.sub_add_cancel hwn.1]
      exact hc

section Graph

variable (hI : HierSound h B r links) (hz : z ∈ h.clusters)
include hI hz

/-- The edges are between vertices that the matrix has, and of links that are present. -/
theorem edge_matrixLinks {a : ℚ} (he : (r.matrixLinks h z).edge x y a) :
    ∃ l ∈ links, ∃ u v, HierEdge z l.1 l.2 u v ∧ r.Adjacent h z u v ∧ h.number z u = x + 1 ∧
      h.number z v = y + 1 ∧ ∀ j, u = .node j → Outer v →
        r.entry (h.place z.1 z.2) (h.connectPlace z j v) = some l.2.printed := by
  obtain ⟨⟨⟨hx, hy⟩, hc⟩, -⟩ := matrixLinks_eq_some.mp he
  obtain ⟨l, hl, u, v, hedge, hk, hlead⟩ := hI.edges z hz _ hc
  obtain ⟨hls, hld, -⟩ := hI.valid l hl
  obtain ⟨hu, hv⟩ := hls.edge_has hld hedge
  obtain ⟨hux, hvy⟩ := (RouteLogic.index_inj hy (number_lt hz hv).2).mp hk
  refine ⟨l, hl, u, v, hedge, ⟨hu, hv, ?_⟩, hux.symm, hvy.symm, hlead⟩
  rwa [← hk]

theorem matrixLinks_below (hB : (h.vertices z - 1 : ℕ) * B < infinity) :
    CostsBelow (r.matrixLinks h z).edge RouteLogic.infinity := by
  intro x y c hw
  obtain ⟨rfl, rfl⟩ | ⟨w, a, c', he, -, -⟩ := hw.eq_or_via
  · refine ⟨0, ?_, .nil⟩
    unfold RouteLogic.infinity
    norm_num
  · have hedge : ∀ x y a, (r.matrixLinks h z).edge x y a →
        a ≤ B ∧ x ∈ Finset.range (h.vertices z) ∧ y ∈ Finset.range (h.vertices z) := by
      intro x y a he
      obtain ⟨l, hl, u, v, -, ⟨hu, hv, -⟩, hux, hvy, -⟩ := edge_matrixLinks hI hz he
      obtain ⟨⟨-, hc⟩, rfl⟩ := matrixLinks_eq_some.mp he
      have := number_le hu
      have := number_le hv
      exact ⟨by exact_mod_cast (hI.costs _ _ hc).2, Finset.mem_range.mpr (by omega),
        Finset.mem_range.mpr (by omega)⟩
    have hB0 : (0 : ℚ) ≤ B := by
      obtain ⟨⟨-, hc⟩, -⟩ := matrixLinks_eq_some.mp he
      have := hI.costs _ _ hc
      exact_mod_cast (by omega : (0 : ℤ) ≤ B)
    obtain ⟨c', hc', hw'⟩ := hw.exists_le hB0
      fun x y a he => ⟨(hedge x y a he).1, (hedge x y a he).2.2⟩
    refine ⟨c', hc'.trans_lt ?_, hw'⟩
    rw [Finset.card_erase_of_mem (hedge _ _ _ he).2.1, Finset.card_range, nsmul_eq_mul,
      ← cast_infinity]
    exact_mod_cast hB

theorem path_of_walk (hu : h.Has z u) {c : ℚ}
    (hw : Walk (r.matrixLinks h z).edge (h.number z u - 1) x c) :
    ∃ v, h.Has z v ∧ h.number z v = x + 1 ∧ Relation.ReflTransGen (r.Adjacent h z) u v := by
  induction hw with
  | nil => exact ⟨u, hu, (Nat.sub_add_cancel (number_lt hz hu).1).symm, .refl⟩
  | @snoc x y c a hw he ih =>
    obtain ⟨v, hv, hvx, hp⟩ := ih
    obtain ⟨l, -, u', v', -, hadj, hux, hvy, -⟩ := edge_matrixLinks hI hz he
    obtain rfl := number_inj hv hadj.1 (hvx.trans hux.symm)
    exact ⟨v', hadj.2.1, hvy, hp.tail hadj⟩

theorem walk_iff (hu : h.Has z u) (hv : h.Has z v) :
    (∃ c, Walk (r.matrixLinks h z).edge (h.number z u - 1) (h.number z v - 1) c) ↔
      Relation.ReflTransGen (r.Adjacent h z) u v := by
  constructor
  · rintro ⟨c, hw⟩
    obtain ⟨v', hv', hn, hp⟩ := path_of_walk hI hz hu hw
    rw [Nat.sub_add_cancel (number_lt hz hv).1] at hn
    obtain rfl := number_inj hv' hv hn
    exact hp
  · exact exists_walk hz

end Graph

/-! ### The search -/

/-- The routes of all clusters, as far as the loop has come. -/
theorem foldlM_computeCluster (memory : ℕ → ℕ → ℚ) (hz : Sized h r) {l : List (ℕ × ℕ)}
    (hl : ∀ z ∈ l, z ∈ h.clusters) (ha : ∀ z ∈ l, 0 < r.hsize (h.place z.1 z.2)) :
    ∃ r', l.foldlM (fun (r : HierRoutes) (z : ℕ × ℕ) =>
        r.computeCluster h (memory (h.place z.1 z.2)) z.1 z.2) r = .ok r' ∧
      (r'.hsize = r.hsize ∧ r'.hadj = r.hadj) ∧
      ∀ z ∈ l, ∀ k < h.stride z.1 z.2 * h.stride z.1 z.2, r'.hroute (h.place z.1 z.2) k =
        nextHop ((r.matrix h z.1 z.2).computeRoutes (memory (h.place z.1 z.2))) k := by
  induction l using List.reverseRecOn with
  | nil => exact ⟨r, rfl, ⟨rfl, rfl⟩, fun z hz => absurd hz List.not_mem_nil⟩
  | append_singleton l z ih =>
    obtain ⟨s, hs, ⟨hsize, hadj⟩, hroute⟩ := ih
      (fun z' hz' => hl z' (List.mem_append_left _ hz'))
      (fun z' hz' => ha z' (List.mem_append_left _ hz'))
    have hzl := hl z (List.mem_append_right _ List.mem_cons_self)
    have hfit : ¬ s.hsize (h.place z.1 z.2) < h.stride z.1 z.2 * h.stride z.1 z.2 := by
      rw [hsize, (hz _).resolve_left (ha z (List.mem_append_right _ List.mem_cons_self)).ne']
      exact not_lt.mpr (square_le hzl)
    have hm : s.matrix h z.1 z.2 = r.matrix h z.1 z.2 := by
      unfold matrix
      rw [hadj]
    obtain ⟨s', hs', hsize', hadj', hroute'⟩ : ∃ s', s.computeCluster h
        (memory (h.place z.1 z.2)) z.1 z.2 = .ok s' ∧ s'.hsize = s.hsize ∧ s'.hadj = s.hadj ∧
        s'.hroute = Function.update s.hroute (h.place z.1 z.2) fun k =>
          if k < h.stride z.1 z.2 * h.stride z.1 z.2 then
            nextHop ((s.matrix h z.1 z.2).computeRoutes (memory (h.place z.1 z.2))) k
          else s.hroute (h.place z.1 z.2) k := ⟨_, if_neg hfit, rfl, rfl, rfl⟩
    refine ⟨s', ?_, ⟨hsize'.trans hsize, hadj'.trans hadj⟩, fun z' hz' k hk => ?_⟩
    · rw [List.foldlM_append]
      refine bind_eq_ok.mpr ⟨s, hs, ?_⟩
      rw [List.foldlM_cons]
      exact bind_eq_ok.mpr ⟨s', hs', rfl⟩
    rw [hroute']
    by_cases hzz : z' = z
    · subst hzz
      rw [Function.update_self, if_pos hk, hm]
    · have hne := (place_inj (hl z' hz') hzl).not.mpr hzz
      rw [Function.update_of_ne hne]
      exact hroute z' ((List.mem_append.mp hz').resolve_right fun h' =>
        hzz (List.mem_singleton.mp h')) k hk

theorem nextHop_eq (memory : ℕ → ℚ) {m : RouteLogic Unit} (hx : x + 1 < m.size)
    (hy : y + 1 < m.size) :
    (nextHop (m.computeRoutes memory) (RouteLogic.index (x + 1) (y + 1) m.size) : ℤ) =
      (m.computeRoutes memory).lookupFlat x y + 1 := by
  have hn : ¬ ((m.computeRoutes memory).size ≤ x + 1 ∨ (m.computeRoutes memory).size ≤ y + 1) := by
    rw [RouteLogic.size_computeRoutes]
    omega
  unfold nextHop RouteLogic.lookupFlat
  cases hr : (m.computeRoutes memory).route with
  | none =>
    unfold RouteLogic.computeRoutes at hr
    cases hr
  | some route =>
    dsimp only
    rw [if_neg hn, sub_add_cancel]
    rfl

/-- The next hop of every route is the first hop of a walk in the matrix, if there is one. -/
theorem hroute_hierCompute {memory : ℕ → ℕ → ℚ} (hI : HierSound h B r links)
    (hB : B < infinity) (hz : z ∈ h.clusters) (hBz : (h.vertices z - 1 : ℕ) * B < infinity)
    (ha : ∀ z ∈ h.clusters, 0 < r.hsize (h.place z.1 z.2))
    (hr : r.hierCompute h memory = .ok r') (hu : h.Has z u) (hv : h.Has z v) (hne : u ≠ v) :
    (r'.hroute (h.place z.1 z.2) (h.edgePlace z u v) = 0 ∧
        ¬ Relation.ReflTransGen (r.Adjacent h z) u v) ∨
      Relation.ReflTransGen (r.Adjacent h z) u v ∧
        ∃ a w, (r.matrixLinks h z).edge (h.number z u - 1) w a ∧
          r'.hroute (h.place z.1 z.2) (h.edgePlace z u v) = w + 1 := by
  obtain ⟨s, hs, -, hroute⟩ := foldlM_computeCluster memory hI.sized (fun _ hz => hz) ha
  obtain rfl : s = r' := Except.ok.inj (hs.symm.trans hr)
  obtain ⟨hu0, hus⟩ := number_lt hz hu
  obtain ⟨hv0, hvs⟩ := number_lt hz hv
  have hk : h.edgePlace z u v = RouteLogic.index (h.number z u - 1 + 1) (h.number z v - 1 + 1)
      (r.matrix h z.1 z.2).size := by
    rw [Nat.sub_add_cancel hu0, Nat.sub_add_cancel hv0]
    rfl
  have hhop := hroute z hz (h.edgePlace z u v) (index_lt hus hvs)
  have hlook := nextHop_eq (memory (h.place z.1 z.2)) (m := r.matrix h z.1 z.2)
    (x := h.number z u - 1) (y := h.number z v - 1) (by rwa [Nat.sub_add_cancel hu0])
    (by rwa [Nat.sub_add_cancel hv0])
  rw [← hk, ← hhop] at hlook
  have hneq : h.number z u - 1 ≠ h.number z v - 1 := fun he =>
    hne (number_inj hu hv (by omega))
  obtain ⟨hnone, hno⟩ | ⟨w, hw, c, ⟨a, c', he, hrest, -⟩, -⟩ :=
    RouteLogic.lookupFlat_computeRoutes (matrix_represents (ha z hz))
      (matrixLinks_proper hI hB) (matrixLinks_below hI hz hBz) (memory (h.place z.1 z.2))
      (by rwa [Nat.sub_add_cancel hu0]) (by rwa [Nat.sub_add_cancel hv0]) hneq
  · refine .inl ⟨by omega, fun hp => ?_⟩
    obtain ⟨c, hc⟩ := (walk_iff hI hz hu hv).mpr hp
    exact hno c hc
  · exact .inr ⟨(walk_iff hI hz hu hv).mp ⟨_, (Walk.single he).trans hrest⟩, a, w, he, by omega⟩

/-! ### The lookup -/

/-- What a node looks up in the matrix of its cluster for a destination. -/
def target (src dst : HierAddress) : HierVertex :=
  if src.domain ≠ dst.domain then .domain dst.domain
  else if src.cluster ≠ dst.cluster then .cluster dst.cluster
  else .node dst.node

theorem target_has (hd : dst.Valid h) : h.Has src.home (target src dst) := by
  unfold target
  split
  · exact hd.domain
  · next hx =>
    have hx := not_not.mp hx
    split
    · have := hd.cluster
      rw [← hx] at this
      exact this
    · next hy =>
      have := hd.node
      rw [← hx, ← not_not.mp hy] at this
      exact this

theorem node_ne_target (hne : src ≠ dst) : .node src.node ≠ target src dst := by
  unfold target
  split
  · exact HierVertex.noConfusion
  · next hx =>
    split
    · exact HierVertex.noConfusion
    · next hy =>
      exact fun he => hne (HierAddress.eq_of_home (Prod.ext (not_not.mp hx) (not_not.mp hy))
        (HierVertex.node.inj he))

theorem lookupHier_eq (hs : src.Valid h) (hd : dst.Valid h)
    (ha : 0 < r.hsize (h.place src.domain src.cluster)) :
    r.lookupHier h src dst = (do
      let next ← r.routed (h.place src.domain src.cluster)
        (h.edgePlace src.home (.node src.node) (target src dst))
      if 0 < next then
        let address ← r.getAddress h next (h.place src.domain src.cluster) src.domain
          (h.clusterSize (h.place src.domain src.cluster)) src
        return some address
      else return none) := by
  obtain ⟨⟨hsx, hsD⟩, ⟨hsy, -⟩, hsn, -⟩ := hs
  obtain ⟨⟨hdx, -⟩, ⟨hdy, -⟩, hdn, -⟩ := hd
  have hk : (if dst.cluster = 0 ∧ dst.node = 0 ∨ src.domain ≠ dst.domain then
        ndIndex src.node dst.domain (h.clusterSize (h.place src.domain src.cluster))
          (h.C src.domain) h.D
      else if dst.node = 0 ∨ src.cluster ≠ dst.cluster then
        ncIndex src.node dst.cluster (h.clusterSize (h.place src.domain src.cluster))
          (h.C src.domain) h.D
      else nnIndex src.node dst.node (h.clusterSize (h.place src.domain src.cluster))
          (h.C src.domain) h.D) = h.edgePlace src.home (.node src.node) (target src dst) := by
    rw [ndIndex_eq, ncIndex_eq, nnIndex_eq]
    unfold target
    by_cases hx : src.domain = dst.domain
    · by_cases hy : src.cluster = dst.cluster
      · rw [if_neg (by omega), if_neg (by omega), if_neg (not_not.mpr hx),
          if_neg (not_not.mpr hy)]
        rfl
      · rw [if_neg (by omega), if_pos (.inr hy), if_neg (not_not.mpr hx), if_pos hy]
        rfl
    · rw [if_pos (.inr hx), if_pos hx]
      rfl
  unfold lookupHier
  rw [if_neg (by omega), if_neg (by omega)]
  dsimp only
  rw [if_neg ha.ne', if_neg (by omega), hk]

/-- The next hop of a node to another one, or to a vertex that one of its links leads to. -/
theorem getAddress_eq (hs : src.Valid h) (hv : h.Has src.home v)
    (ha : 0 < r.hsize (h.place src.domain src.cluster)) {a : HierAddress}
    (hnode : ∀ j, v = .node j → a = ⟨src.domain - 1, src.cluster - 1, j - 1⟩)
    (hlead : Outer v → r.entry (h.place src.domain src.cluster)
      (h.connectPlace src.home src.node v) = some a) :
    r.getAddress h (h.number src.home v) (h.place src.domain src.cluster) src.domain
      (h.clusterSize (h.place src.domain src.cluster)) src = .ok a := by
  have hcon : Outer v → r.connected h (h.place src.domain src.cluster)
      (h.connectPlace src.home src.node v) = .ok a := fun ho => by
    have hlt : h.connectPlace src.home src.node v <
        r.connectSize h (h.place src.domain src.cluster) :=
      (connectPlace_lt hs.home_mem hs.node hv).trans_eq (if_pos ha).symm
    have he : r.hconnect (h.place src.domain src.cluster)
        (h.connectPlace src.home src.node v) = some a := (if_neg ha.ne').symm.trans (hlead ho)
    unfold connected
    rw [if_pos hlt, he]
  unfold getAddress
  cases v with
  | node j =>
    have hle : h.number src.home (.node j) ≤ h.clusterSize (h.place src.domain src.cluster) := hv.2
    rw [if_pos hle, hnode j rfl]
    rfl
  | cluster j =>
    have hcon := hcon trivial
    rw [HierAddress.home, connectPlace_cluster] at hcon
    have hj := hv.1
    have hjC : j < h.C src.domain := hv.2
    have hnum : h.number src.home (.cluster j) =
      h.clusterSize (h.place src.domain src.cluster) + j := rfl
    rw [hnum, if_neg (by omega), if_pos (by omega), Nat.add_sub_cancel_left]
    exact hcon
  | domain j =>
    have hcon := hcon trivial
    rw [HierAddress.home, connectPlace_domain] at hcon
    have hj := hv.1
    have hnum : h.number src.home (.domain j) =
      h.clusterSize (h.place src.domain src.cluster) + (h.C src.domain - 1) + j := rfl
    rw [hnum, if_neg (by omega), if_neg (by omega)]
    dsimp only
    rw [Nat.add_assoc, Nat.add_sub_cancel_left, Nat.add_sub_cancel_left]
    exact hcon

/-- The edges of a node are those of its own links. -/
theorem source_of_edge {s t : HierAddress} {j : ℕ} (he : HierEdge z s t u v) (hu : u = .node j) :
    s.home = z ∧ s.node = j ∧ ∀ i, v = .node i → t.home = z ∧ t.node = i := by
  cases he with
  | nodes hx hy hz =>
    refine ⟨hz.symm, HierVertex.node.inj hu, fun i hi => ⟨?_, HierVertex.node.inj hi⟩⟩
    exact (Prod.ext hx hy : s.home = t.home).symm.trans hz.symm
  | nodeCluster _ _ hz => exact ⟨hz.symm, HierVertex.node.inj hu, fun i hi => by simp at hi⟩
  | nodeDomain _ hz => exact ⟨hz.symm, HierVertex.node.inj hu, fun i hi => by simp at hi⟩
  | _ => simp at hu

end HierRoutes

/-- A lookup finds a link of the source that is present, unless there is no path. -/
def LookupRight (h : Hierarchy) (p : HierRoutes × List (HierAddress × HierAddress))
    (r : HierRoutes) (src dst : HierAddress) : Prop :=
  ∃ o, r.lookupHier h src dst = .ok o ∧
    (o = none ↔ ¬ Relation.ReflTransGen (p.1.Adjacent h src.home) (.node src.node)
      (target src dst)) ∧
    ∀ a, o = some a → ∃ t, a = t.printed ∧ (src, t) ∈ p.2

/-- Clusters and domains are adjacent exactly when a link that is present joins them, and all
edges of the matrices are those of the links that are present. -/
structure AdjacencyRight (h : Hierarchy) (p : HierRoutes × List (HierAddress × HierAddress)) :
    Prop where
  clusters : ∀ z ∈ h.clusters, ∀ c c', c ≠ c' → (p.1.Adjacent h z (.cluster c) (.cluster c') ↔
    ∃ l ∈ p.2, l.1.home = (z.1, c) ∧ l.2.home = (z.1, c'))
  domains : ∀ z ∈ h.clusters, ∀ d d', d ≠ d' → (p.1.Adjacent h z (.domain d) (.domain d') ↔
    ∃ l ∈ p.2, l.1.domain = d ∧ l.2.domain = d')
  edges : ∀ z ∈ h.clusters, ∀ u v, p.1.Adjacent h z u v ↔ ∃ l ∈ p.2, HierEdge z l.1 l.2 u v

section Right

variable {h : Hierarchy} {B : ℤ} {r r' : HierRoutes} {links : List (HierAddress × HierAddress)}
  {src dst : HierAddress} {p : HierRoutes × List (HierAddress × HierAddress)}

theorem HierSound.lookup (hI : HierSound h B r links)
    (hB : ∀ z ∈ h.clusters, (h.vertices z - 1 : ℕ) * B < infinity)
    (ha : ∀ z ∈ h.clusters, 0 < r.hsize (h.place z.1 z.2)) {memory : ℕ → ℕ → ℚ}
    (hr : r.hierCompute h memory = .ok r') (hs : src.Valid h) (hd : dst.Valid h)
    (hne : src ≠ dst) : LookupRight h (r, links) r' src dst := by
  obtain ⟨hsize, -, hcon⟩ := hierCompute_keeps hr
  have hz := hs.home_mem
  have hu : h.Has src.home (.node src.node) := hs.node
  have hv : h.Has src.home (target src dst) := target_has hd
  have hB' : B < infinity := by
    obtain h0 | h0 := le_or_gt 0 B
    · exact lt_infinity hB hs h0
    · exact h0.trans (by decide)
  have ha' : 0 < r.hsize (h.place src.domain src.cluster) := ha _ hz
  have hpos : 0 < r'.hsize (h.place src.domain src.cluster) := by rwa [hsize]
  have hfull : h.edgePlace src.home (.node src.node) (target src dst) <
      r'.hsize (h.place src.domain src.cluster) := by
    rw [hsize, (hI.sized _).resolve_left ha'.ne']
    exact edgePlace_lt hz hu hv
  have hnext : r'.routed (h.place src.domain src.cluster)
      (h.edgePlace src.home (.node src.node) (target src dst)) = .ok _ := if_pos hfull
  have hlookup := lookupHier_eq hs hd hpos
  rw [hnext] at hlookup
  obtain ⟨hzero, hno⟩ | ⟨hp, a, w, he, hhop⟩ :=
    hroute_hierCompute hI hB' hz (hB _ hz) ha hr hu hv (node_ne_target hne)
  · rw [show r'.hroute (h.place src.domain src.cluster) _ = 0 from hzero] at hlookup
    exact ⟨none, hlookup, ⟨fun _ => hno, fun _ => rfl⟩, fun a ha => by cases ha⟩
  · -- The first hop is an edge of the source, so it is that of one of its links.
    obtain ⟨l, hl, u, v, hedge, ⟨hu', hv', -⟩, hun, hvn, hlead⟩ := edge_matrixLinks hI hz he
    rw [Nat.sub_add_cancel (number_lt hz hu).1] at hun
    obtain rfl := number_inj hu' hu hun
    obtain ⟨hhome, hnode, hinner⟩ := source_of_edge hedge rfl
    have hsrc : l.1 = src := HierAddress.eq_of_home hhome hnode
    have haddr := getAddress_eq (a := l.2.printed) hs hv' hpos (fun j hj => by
        obtain ⟨ht, rfl⟩ := hinner j hj
        obtain ⟨hx, hy⟩ := Prod.mk.inj ht
        unfold HierAddress.printed
        rw [hx, hy]) (fun ho => by
        have := hlead src.node rfl ho
        unfold entry at this ⊢
        rw [hsize, hcon]
        exact this)
    rw [show r'.hroute (h.place src.domain src.cluster) _ = w + 1 from hhop, ← hvn] at hlookup
    refine ⟨some l.2.printed, hlookup.trans ?_, ⟨fun ho => (nomatch ho), fun hno => absurd hp hno⟩,
      fun a ha => ⟨l.2, (Option.some.inj ha).symm, hsrc ▸ hl⟩⟩
    refine bind_eq_ok.mpr ⟨_, rfl, ?_⟩
    rw [if_pos (number_lt hz hv').1, haddr]
    rfl

theorem hierEdge_clusters {z : ℕ × ℕ} {c c' : ℕ} :
    HierEdge z src dst (.cluster c) (.cluster c') ↔
      c ≠ c' ∧ src.home = (z.1, c) ∧ dst.home = (z.1, c') := by
  constructor
  · intro he
    cases he with
    | clusters hx hy hz => exact ⟨hy, Prod.ext hz.symm rfl, Prod.ext (hx.symm.trans hz.symm) rfl⟩
  · rintro ⟨hne, hs, hd⟩
    obtain ⟨hsx, rfl⟩ := Prod.mk.inj hs
    obtain ⟨hdx, rfl⟩ := Prod.mk.inj hd
    exact .clusters (hsx.trans hdx.symm) hne hsx.symm

theorem hierEdge_domains {z : ℕ × ℕ} {d d' : ℕ} : HierEdge z src dst (.domain d) (.domain d') ↔
    d ≠ d' ∧ src.domain = d ∧ dst.domain = d' := by
  constructor
  · intro he
    cases he with
    | domains hx => exact ⟨hx, rfl, rfl⟩
  · rintro ⟨hne, rfl, rfl⟩
    exact .domains hne

theorem HierComplete.adjacency (hI : HierSound h B p.1 p.2) (hc : HierComplete h p.1 p.2) :
    AdjacencyRight h p := by
  have he : ∀ z ∈ h.clusters, ∀ u v,
      p.1.Adjacent h z u v ↔ ∃ l ∈ p.2, HierEdge z l.1 l.2 u v := by
    intro z hz u v
    constructor
    · rintro ⟨hu, hv, hcell⟩
      obtain ⟨l, hl, u', v', hedge, hk, -⟩ := hI.edges z hz _ hcell
      obtain ⟨hls, hld, -⟩ := hI.valid l hl
      obtain ⟨hu', hv'⟩ := hls.edge_has hld hedge
      obtain ⟨rfl, rfl⟩ := (edgePlace_inj hz hu hv hu' hv').mp hk
      exact ⟨l, hl, hedge⟩
    · rintro ⟨l, hl, hedge⟩
      obtain ⟨hls, hld, -⟩ := hI.valid l hl
      obtain ⟨hu, hv⟩ := hls.edge_has hld hedge
      exact ⟨hu, hv, hc l hl z hz u v hedge⟩
  refine ⟨fun z hz c c' hne => ?_, fun z hz d d' hne => ?_, he⟩
  · rw [he z hz]
    simp only [hierEdge_clusters, ne_eq, hne, not_false_eq_true, true_and]
  · rw [he z hz]
    simp only [hierEdge_domains, ne_eq, hne, not_false_eq_true, true_and]

/-- In the runs whose resets separate, no operation leaves the arrays. -/
theorem exists_run (hI : HierSound h B p.1 p.2) {x : HierCall} (hx : x.Allowed h B)
    (hsep : Separate h p x) : ∃ r', x.run h p.1 = .ok r' := by
  cases x with
  | insert src dst cost =>
    exact exists_hierInsert hx.1 hx.2.1 hI.sized fun z hz u v he => hsep z hz he.concerns
  | reset src dst =>
    exact exists_hierReset hx.1 hx.2.1 hI.sized fun z hz u v he => hsep.2 z hz he.concerns
  | compute memory =>
    obtain ⟨r', hr, -⟩ := foldlM_computeCluster memory hI.sized (fun _ hz => hz) hsep
    exact ⟨r', hr⟩

/-- In the runs whose resets separate, the matrices reflect the links that are present and no
operation leaves the arrays. In all runs lookups are right, once every cluster has a matrix. -/
theorem hier_routes (hB : ∀ z ∈ h.clusters, (h.vertices z - 1 : ℕ) * B < infinity) :
    ((separateRuns h B).Reachable p → AdjacencyRight h p ∧
      ∀ x : HierCall, x.Allowed h B → Separate h p x → ∃ r', x.run h p.1 = .ok r') ∧
    ((hierRuns h B).Reachable p → (∀ z ∈ h.clusters, 0 < p.1.hsize (h.place z.1 z.2)) →
      ∀ memory, ∃ r', p.1.hierCompute h memory = .ok r' ∧ ∀ src dst, src.Valid h → dst.Valid h →
        src ≠ dst → LookupRight h p r' src dst) := by
  refine ⟨fun hp => ?_, fun hp ha memory => ?_⟩
  · obtain ⟨hI, hc⟩ := (separateRuns_invariant hB).reachable hp
    exact ⟨hc.adjacency hI, fun x => exists_run hI⟩
  · have hI := (hierRuns_invariant hB).reachable hp
    obtain ⟨r', hr, -⟩ := foldlM_computeCluster memory hI.sized (fun _ hz => hz) ha
    exact ⟨r', hr, fun src dst hs hd hne => hI.lookup hB ha hr hs hd hne⟩

end Right

/-! ### Two clusters of two nodes -/

instance (h : Hierarchy) (a : HierAddress) : Decidable (a.Valid h) :=
  decidable_of_iff ((1 ≤ a.domain ∧ a.domain < h.D) ∧ (1 ≤ a.cluster ∧ a.cluster < h.C a.domain) ∧
      1 ≤ a.node ∧ a.node ≤ h.clusterSize (h.place a.domain a.cluster))
    ⟨fun ha => ⟨ha.1, ha.2.1, ha.2.2⟩, fun ha => ⟨ha.1, ha.2, ha.3⟩⟩

instance (h : Hierarchy) (B : ℤ) : ∀ x, Decidable (HierCall.Allowed h B x)
  | .insert src dst cost =>
    inferInstanceAs (Decidable (src.Valid h ∧ dst.Valid h ∧ src ≠ dst ∧ 1 ≤ cost ∧ cost ≤ B))
  | .reset src dst => inferInstanceAs (Decidable (src.Valid h ∧ dst.Valid h ∧ src ≠ dst))
  | .compute _ => inferInstanceAs (Decidable True)

instance (s t src dst : HierAddress) : Decidable (JoinsAlike s t src dst) :=
  inferInstanceAs (Decidable ((s.domain = src.domain ∧ t.domain = dst.domain) ∧
    (src.domain = dst.domain →
      (s.cluster = src.cluster ∧ t.cluster = dst.cluster) ∧ src.cluster ≠ dst.cluster)))

instance (z : ℕ × ℕ) (src dst : HierAddress) : Decidable (Concerns z src dst) :=
  inferInstanceAs (Decidable (src.domain = dst.domain → z.1 = src.domain ∧
    (src.cluster = dst.cluster → z.2 = src.cluster)))

instance (h : Hierarchy) (p : HierRoutes × List (HierAddress × HierAddress)) :
    ∀ x, Decidable (Separate h p x)
  | .insert src dst _ => inferInstanceAs (Decidable
    (∀ z ∈ h.clusters, Concerns z src dst → h.fullSize (h.place z.1 z.2) < 2 ^ 31))
  | .reset src dst => inferInstanceAs (Decidable
    ((∀ l ∈ p.2, JoinsAlike l.1 l.2 src dst → l = (src, dst)) ∧
      ∀ z ∈ h.clusters, Concerns z src dst → 0 < p.1.hsize (h.place z.1 z.2)))
  | .compute _ => inferInstanceAs (Decidable (∀ z ∈ h.clusters, 0 < p.1.hsize (h.place z.1 z.2)))

instance (h : Hierarchy) (B : ℤ) (p : HierRoutes × List (HierAddress × HierAddress))
    (x : HierCall) : Decidable ((hierRuns h B).Enabled p x) :=
  inferInstanceAs (Decidable (x.Allowed h B))

instance (h : Hierarchy) (B : ℤ) (p : HierRoutes × List (HierAddress × HierAddress))
    (x : HierCall) : Decidable ((separateRuns h B).Enabled p x) :=
  inferInstanceAs (Decidable (x.Allowed h B ∧ Separate h p x))

def twoClusters : Hierarchy where
  D := 2
  C _ := 3
  clusterSize _ := 2

def HierRoutes.fault : Except HierFault HierRoutes → Option HierFault
  | .error e => some e
  | .ok _ => none

def unallocated : HierRoutes := ⟨fun _ => 0, fun _ _ => 0, fun _ _ => 0, fun _ _ => none⟩

theorem hier_routes_two : ∃ p, (separateRuns twoClusters 10).Reachable p ∧
    p.2 = [(⟨1, 1, 2⟩, ⟨1, 2, 2⟩), (⟨1, 1, 1⟩, ⟨1, 1, 2⟩)] ∧ AdjacencyRight twoClusters p ∧
    ∃ r', p.1.hierCompute twoClusters (fun _ _ => 0) = .ok r' ∧
      LookupRight twoClusters p r' ⟨1, 1, 1⟩ ⟨1, 2, 2⟩ := by
  have h₀ : (separateRuns twoClusters 10).Reachable (unallocated, []) := .init ⟨fun _ => rfl, rfl⟩
  obtain ⟨p, hp, h'⟩ := h₀.exists_of_exec
    [.insert ⟨1, 1, 1⟩ ⟨1, 1, 2⟩ 1, .insert ⟨1, 1, 1⟩ ⟨1, 2, 1⟩ 3, .reset ⟨1, 1, 1⟩ ⟨1, 2, 1⟩,
      .insert ⟨1, 1, 2⟩ ⟨1, 2, 2⟩ 2]
    (fun p => p.2 = [(⟨1, 1, 2⟩, ⟨1, 2, 2⟩), (⟨1, 1, 1⟩, ⟨1, 1, 2⟩)] ∧
      ∀ z ∈ twoClusters.clusters, 0 < p.1.hsize (twoClusters.place z.1 z.2)) (by decide +kernel)
  obtain ⟨hlinks, ha⟩ := of_decide_eq_true h'
  have hB : ∀ z ∈ twoClusters.clusters, (twoClusters.vertices z - 1 : ℕ) * (10 : ℤ) < infinity := by
    decide +kernel
  obtain ⟨r', hr, hlookup⟩ := (hier_routes hB).2
    (Machine.Reachable.invariant.restrict.reachable hp) ha (fun _ _ => 0)
  exact ⟨p, hp, hlinks, ((hier_routes hB).1 hp).1, r', hr,
    hlookup ⟨1, 1, 1⟩ ⟨1, 2, 2⟩ (by decide +kernel) (by decide +kernel) (by decide)⟩

/-- Two links join the clusters, and when one of them is reset the clusters are not adjacent any
more. While all links are within a cluster, the other one has no matrix to compute routes from. -/
theorem reset_forgets_link :
    (∃ p, (hierRuns twoClusters 10).Reachable p ∧ (⟨1, 1, 2⟩, ⟨1, 2, 2⟩) ∈ p.2 ∧
      ¬ p.1.Adjacent twoClusters (1, 1) (.cluster 1) (.cluster 2)) ∧
    ∃ p, (hierRuns twoClusters 10).Reachable p ∧
      p.1.hierCompute twoClusters (fun _ _ => 0) = .error .outside := by
  have h₀ : (hierRuns twoClusters 10).Reachable (unallocated, []) := .init ⟨fun _ => rfl, rfl⟩
  constructor
  · obtain ⟨p, hp, h'⟩ := h₀.exists_of_exec
      [.insert ⟨1, 1, 1⟩ ⟨1, 2, 1⟩ 1, .insert ⟨1, 1, 2⟩ ⟨1, 2, 2⟩ 1, .reset ⟨1, 1, 1⟩ ⟨1, 2, 1⟩]
      (fun p => (⟨1, 1, 2⟩, ⟨1, 2, 2⟩) ∈ p.2 ∧ p.1.cell (twoClusters.place 1 1)
        (twoClusters.edgePlace (1, 1) (.cluster 1) (.cluster 2)) = infinity) (by decide +kernel)
    obtain ⟨hl, hc⟩ := of_decide_eq_true h'
    exact ⟨p, hp, hl, fun hadj => hadj.2.2 hc⟩
  · obtain ⟨p, hp, h'⟩ := h₀.exists_of_exec [.insert ⟨1, 1, 1⟩ ⟨1, 1, 2⟩ 1]
      (fun p => fault (p.1.hierCompute twoClusters fun _ _ => 0) = some .outside)
      (by decide +kernel)
    refine ⟨p, hp, ?_⟩
    have hf := of_decide_eq_true h'
    cases hr : p.1.hierCompute twoClusters fun _ _ => 0 with
    | error e =>
      rw [hr] at hf
      exact congrArg Except.error (Option.some.inj hf)
    | ok r =>
      rw [hr] at hf
      cases hf

end Ns2XPass
