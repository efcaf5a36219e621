import Ns2XPass.Routing.HierRoutes
import Ns2XPass.Routing.LinkMatrix

/-! # The vertices of the matrices

The vertices of the matrix of a cluster are its nodes, the clusters of its domain and the
domains, and a link stands for edges between two of them in the matrices where it matters.
All places are inside the arrays, and no two edges share one.
-/

namespace Ns2XPass

inductive HierVertex
  | node (j : ℕ)
  | cluster (j : ℕ)
  | domain (j : ℕ)
  deriving DecidableEq

def HierAddress.home (a : HierAddress) : ℕ × ℕ := (a.domain, a.cluster)

/-- The edges of the matrix of a cluster that a link stands for. -/
inductive HierEdge (z : ℕ × ℕ) (src dst : HierAddress) : HierVertex → HierVertex → Prop
  | nodes : src.domain = dst.domain → src.cluster = dst.cluster → z = src.home →
      HierEdge z src dst (.node src.node) (.node dst.node)
  | clusters : src.domain = dst.domain → src.cluster ≠ dst.cluster → z.1 = src.domain →
      HierEdge z src dst (.cluster src.cluster) (.cluster dst.cluster)
  | nodeCluster : src.domain = dst.domain → src.cluster ≠ dst.cluster → z = src.home →
      HierEdge z src dst (.node src.node) (.cluster dst.cluster)
  | domains : src.domain ≠ dst.domain →
      HierEdge z src dst (.domain src.domain) (.domain dst.domain)
  | clusterDomain : src.domain ≠ dst.domain → z.1 = src.domain →
      HierEdge z src dst (.cluster src.cluster) (.domain dst.domain)
  | nodeDomain : src.domain ≠ dst.domain → z = src.home →
      HierEdge z src dst (.node src.node) (.domain dst.domain)

namespace Hierarchy

variable (h : Hierarchy)

/-- The number of a vertex in the matrix of a cluster. -/
def number (z : ℕ × ℕ) : HierVertex → ℕ
  | .node j => j
  | .cluster j => h.clusterSize (h.place z.1 z.2) + j
  | .domain j => h.clusterSize (h.place z.1 z.2) + (h.C z.1 - 1) + j

/-- The number of vertices of the matrix of a cluster. -/
def vertices (z : ℕ × ℕ) : ℕ := h.clusterSize (h.place z.1 z.2) + (h.C z.1 - 1) + (h.D - 1)

def Has (z : ℕ × ℕ) : HierVertex → Prop
  | .node j => 1 ≤ j ∧ j ≤ h.clusterSize (h.place z.1 z.2)
  | .cluster j => 1 ≤ j ∧ j < h.C z.1
  | .domain j => 1 ≤ j ∧ j < h.D

/-- The place of an edge in the matrix of a cluster. -/
def edgePlace (z : ℕ × ℕ) (u v : HierVertex) : ℕ :=
  RouteLogic.index (h.number z u) (h.number z v) (h.stride z.1 z.2)

/-- The place of the address that a link of a node leads to. -/
def connectPlace (z : ℕ × ℕ) (j : ℕ) (v : HierVertex) : ℕ :=
  j * (h.C z.1 + h.D) + (h.number z v - h.clusterSize (h.place z.1 z.2))

/-- The length of the arrays of a cluster. -/
def fullSize (i : ℕ) : ℕ := (h.clusterSize i + h.Cmax + h.D) * (h.clusterSize i + h.Cmax + h.D)

end Hierarchy

structure HierAddress.Valid (h : Hierarchy) (a : HierAddress) : Prop where
  domain : 1 ≤ a.domain ∧ a.domain < h.D
  cluster : 1 ≤ a.cluster ∧ a.cluster < h.C a.domain
  node : 1 ≤ a.node ∧ a.node ≤ h.clusterSize (h.place a.domain a.cluster)

namespace Hierarchy

variable {h : Hierarchy} {x y x' y' j j' k p q : ℕ} {z z' : ℕ × ℕ} {u v u' v' : HierVertex}
  {src dst : HierAddress}

/-! ### The numbers -/

theorem le_foldl_max (xs : List ℕ) (m : ℕ) :
    m ≤ xs.foldl (fun m i => if m < h.C i then h.C i else m) m ∧
      ∀ x ∈ xs, h.C x ≤ xs.foldl (fun m i => if m < h.C i then h.C i else m) m := by
  induction xs generalizing m with
  | nil => exact ⟨le_rfl, fun x hx => absurd hx List.not_mem_nil⟩
  | cons x xs ih =>
    obtain ⟨hm, hxs⟩ := ih (if m < h.C x then h.C x else m)
    have hmax : m ≤ (if m < h.C x then h.C x else m) ∧
        h.C x ≤ (if m < h.C x then h.C x else m) := by
      split <;> omega
    refine ⟨hmax.1.trans hm, fun x' hx' => ?_⟩
    obtain rfl | hx' := List.mem_cons.mp hx'
    · exact hmax.2.trans hm
    · exact hxs x' hx'

theorem C_le_Cmax (hx : 1 ≤ x) (hxD : x < h.D) : h.C x ≤ h.Cmax :=
  (le_foldl_max _ _).2 x (List.mem_range'_1.mpr ⟨hx, by omega⟩)

theorem mem_clustersOf : y ∈ h.clustersOf x ↔ 1 ≤ y ∧ y < h.C x := by
  unfold clustersOf
  rw [List.mem_range'_1]
  omega

theorem mem_clusters : z ∈ h.clusters ↔ (1 ≤ z.1 ∧ z.1 < h.D) ∧ 1 ≤ z.2 ∧ z.2 < h.C z.1 := by
  obtain ⟨x, y⟩ := z
  simp only [clusters, List.mem_flatMap, List.mem_map, Prod.mk.injEq, mem_clustersOf,
    List.mem_range'_1]
  constructor
  · rintro ⟨x, hx, y, hy, rfl, rfl⟩
    exact ⟨by omega, hy⟩
  · rintro ⟨hx, hy⟩
    exact ⟨x, by omega, y, hy, rfl, rfl⟩

theorem snd_lt_Cmax (hz : z ∈ h.clusters) : z.2 < h.Cmax := by
  obtain ⟨hx, hy⟩ := mem_clusters.mp hz
  exact hy.2.trans_le (C_le_Cmax hx.1 hx.2)

theorem place_inj (hz : z ∈ h.clusters) (hz' : z' ∈ h.clusters) :
    h.place z.1 z.2 = h.place z'.1 z'.2 ↔ z = z' :=
  (RouteLogic.index_inj (snd_lt_Cmax hz) (snd_lt_Cmax hz')).trans Prod.ext_iff.symm

theorem number_lt (hz : z ∈ h.clusters) (hu : h.Has z u) :
    0 < h.number z u ∧ h.number z u < h.stride z.1 z.2 := by
  have := (mem_clusters.mp hz).2
  unfold stride
  cases u <;> simp only [Has, number] at hu ⊢ <;> omega

theorem number_le (hu : h.Has z u) : h.number z u ≤ h.vertices z := by
  unfold vertices
  cases u <;> simp only [Has, number] at hu ⊢ <;> omega

theorem number_inj (hu : h.Has z u) (hv : h.Has z v) (he : h.number z u = h.number z v) :
    u = v := by
  cases u <;> cases v <;> simp only [Has, number] at hu hv he <;>
    simp only [HierVertex.node.injEq, HierVertex.cluster.injEq, HierVertex.domain.injEq,
      reduceCtorEq] <;> omega

theorem edgePlace_inj (hz : z ∈ h.clusters) (hu : h.Has z u) (hv : h.Has z v) (hu' : h.Has z u')
    (hv' : h.Has z v') : h.edgePlace z u v = h.edgePlace z u' v' ↔ u = u' ∧ v = v' := by
  unfold edgePlace
  rw [RouteLogic.index_inj (number_lt hz hv).2 (number_lt hz hv').2]
  constructor
  · rintro ⟨hu'', hv''⟩
    exact ⟨number_inj hu hu' hu'', number_inj hv hv' hv''⟩
  · rintro ⟨rfl, rfl⟩
    exact ⟨rfl, rfl⟩

theorem index_lt (hp : p < k) (hq : q < k) : RouteLogic.index p q k < k * k := by
  have : k * (p + 1) ≤ k * k := Nat.mul_le_mul_left k hp
  unfold RouteLogic.index
  rw [Nat.mul_succ] at this
  omega

theorem stride_le (hz : z ∈ h.clusters) :
    h.stride z.1 z.2 ≤ h.clusterSize (h.place z.1 z.2) + h.Cmax + h.D := by
  have hx := (mem_clusters.mp hz).1
  have := C_le_Cmax hx.1 hx.2
  unfold stride
  omega

theorem square_le (hz : z ∈ h.clusters) :
    h.stride z.1 z.2 * h.stride z.1 z.2 ≤ h.fullSize (h.place z.1 z.2) :=
  Nat.mul_le_mul (stride_le hz) (stride_le hz)

theorem edgePlace_lt (hz : z ∈ h.clusters) (hu : h.Has z u) (hv : h.Has z v) :
    h.edgePlace z u v < h.fullSize (h.place z.1 z.2) :=
  (index_lt (number_lt hz hu).2 (number_lt hz hv).2).trans_le (square_le hz)

/-- The vertices that are not nodes. -/
def Outer : HierVertex → Prop
  | .node _ => False
  | _ => True

theorem number_sub_lt (hz : z ∈ h.clusters) (hv : h.Has z v) :
    h.number z v - h.clusterSize (h.place z.1 z.2) < h.C z.1 + h.D := by
  have := (number_lt hz hv).2
  unfold stride at this
  have := (mem_clusters.mp hz).1
  omega

theorem connectPlace_lt (hz : z ∈ h.clusters) (hj : h.Has z (.node j)) (hv : h.Has z v) :
    h.connectPlace z j v < (h.Cmax + h.D) * (h.clusterSize (h.place z.1 z.2) + 1) := by
  have hx := (mem_clusters.mp hz).1
  have hC := C_le_Cmax hx.1 hx.2
  have hlt := number_sub_lt hz hv
  have hle : (j + 1) * (h.C z.1 + h.D) ≤ (h.clusterSize (h.place z.1 z.2) + 1) * (h.Cmax + h.D) :=
    Nat.mul_le_mul (Nat.succ_le_succ hj.2) (Nat.add_le_add_right hC _)
  unfold connectPlace
  rw [Nat.succ_mul] at hle
  rw [Nat.mul_comm (h.Cmax + h.D)]
  omega

theorem connectPlace_inj (hz : z ∈ h.clusters) (hv : h.Has z v) (hv' : h.Has z v') (ho : Outer v)
    (ho' : Outer v') : h.connectPlace z j v = h.connectPlace z j' v' ↔ j = j' ∧ v = v' := by
  unfold connectPlace
  rw [Nat.mul_comm j, Nat.mul_comm j']
  constructor
  · intro he
    obtain ⟨rfl, hsub⟩ :=
      (RouteLogic.index_inj (number_sub_lt hz hv) (number_sub_lt hz hv')).mp he
    refine ⟨rfl, number_inj hv hv' ?_⟩
    cases v <;> cases v' <;> simp only [Outer] at ho ho' <;> simp only [number] at hsub ⊢ <;> omega
  · rintro ⟨rfl, rfl⟩
    rfl

end Hierarchy

open Hierarchy

namespace HierAddress.Valid

variable {h : Hierarchy} {z : ℕ × ℕ} {u v : HierVertex} {src dst : HierAddress}

theorem home_mem (hs : src.Valid h) : src.home ∈ h.clusters :=
  Hierarchy.mem_clusters.mpr ⟨hs.domain, hs.cluster⟩

theorem mem_clusters (hs : src.Valid h) {y : ℕ} (hy : y ∈ h.clustersOf src.domain) :
    (src.domain, y) ∈ h.clusters :=
  Hierarchy.mem_clusters.mpr ⟨hs.domain, mem_clustersOf.mp hy⟩

/-- A link between valid addresses stands for edges between vertices of the matrices. -/
theorem edge_has (hs : src.Valid h) (hd : dst.Valid h) (he : HierEdge z src dst u v) :
    h.Has z u ∧ h.Has z v := by
  cases he with
  | nodes hx hy hz =>
    obtain rfl := hz
    have := hd.node
    rw [← hx, ← hy] at this
    exact ⟨hs.node, this⟩
  | clusters hx _ hz =>
    have := hd.cluster
    simp only [Hierarchy.Has, hz]
    rw [← hx] at this
    exact ⟨hs.cluster, this⟩
  | nodeCluster hx _ hz =>
    obtain rfl := hz
    have := hd.cluster
    rw [← hx] at this
    exact ⟨hs.node, this⟩
  | domains => exact ⟨hs.domain, hd.domain⟩
  | clusterDomain _ hz =>
    simp only [Hierarchy.Has, hz]
    exact ⟨hs.cluster, hd.domain⟩
  | nodeDomain _ hz =>
    obtain rfl := hz
    exact ⟨hs.node, hd.domain⟩

end HierAddress.Valid

end Ns2XPass
