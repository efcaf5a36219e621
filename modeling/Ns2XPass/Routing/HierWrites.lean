import Ns2XPass.Library.Except
import Ns2XPass.Routing.HierGraph

/-! # What is written for a link

Insertions and resets are sequences of writes: the edges that a link stands for get its cost
or the bound, and an insertion lets the places of the source lead to the destination. Before
an insertion writes to a matrix it allocates it, which changes no cost.
-/

namespace Ns2XPass

inductive HierWrite
  | check (i : ℕ)
  | adj (i k : ℕ) (cost : ℤ)
  | connect (i k : ℕ) (address : HierAddress)

/-- The write of the cost of an edge. -/
def HierWrite.edge (h : Hierarchy) (z : ℕ × ℕ) (u v : HierVertex) (cost : ℤ) : HierWrite :=
  .adj (h.place z.1 z.2) (h.edgePlace z u v) cost

/-- The write of the address that the edges of a node to a vertex lead to. -/
def HierWrite.lead (h : Hierarchy) (z : ℕ × ℕ) (j : ℕ) (v : HierVertex) (address : HierAddress) :
    HierWrite :=
  .connect (h.place z.1 z.2) (h.connectPlace z j v) address

namespace HierRoutes

open Hierarchy HierWrite

variable (h : Hierarchy) (r : HierRoutes)

def write : HierWrite → Except HierFault HierRoutes
  | .check i => r.hierCheck h i
  | .adj i k cost => r.setAdj i k cost
  | .connect i k address => r.setConnect h i k address

def insertWrites (src dst : HierAddress) (cost : ℤ) : List HierWrite :=
  if src.domain = dst.domain then
    if src.cluster = dst.cluster then
      [.check (h.place src.domain src.cluster),
        edge h src.home (.node src.node) (.node dst.node) cost]
    else
      (h.clustersOf src.domain).flatMap fun y =>
        [.check (h.place src.domain y),
          edge h (src.domain, y) (.cluster src.cluster) (.cluster dst.cluster) cost] ++
        if y = src.cluster then
          [edge h (src.domain, y) (.node src.node) (.cluster dst.cluster) cost,
            lead h (src.domain, y) src.node (.cluster dst.cluster) dst.printed]
        else []
  else
    (h.clusters.flatMap fun z =>
      [.check (h.place z.1 z.2), edge h z (.domain src.domain) (.domain dst.domain) cost]) ++
    ((h.clustersOf src.domain).flatMap fun y =>
      [.check (h.place src.domain y),
        edge h (src.domain, y) (.cluster src.cluster) (.domain dst.domain) cost]) ++
    [edge h src.home (.node src.node) (.domain dst.domain) cost,
      lead h src.home src.node (.domain dst.domain) dst.printed]

def resetWrites (src dst : HierAddress) : List HierWrite :=
  if src.domain = dst.domain then
    if src.cluster = dst.cluster then
      [edge h src.home (.node src.node) (.node dst.node) infinity]
    else
      (h.clustersOf src.domain).flatMap fun y =>
        edge h (src.domain, y) (.cluster src.cluster) (.cluster dst.cluster) infinity ::
        if y = src.cluster then
          [edge h (src.domain, y) (.node src.node) (.cluster dst.cluster) infinity]
        else []
  else
    h.clusters.flatMap fun z =>
      edge h z (.domain src.domain) (.domain dst.domain) infinity ::
      if z.1 = src.domain then
        edge h z (.cluster src.cluster) (.domain dst.domain) infinity ::
        if z.2 = src.cluster then
          [edge h z (.node src.node) (.domain dst.domain) infinity]
        else []
      else []

/-! ### The macros -/

variable {h} {r} {x y i j : ℕ} {z : ℕ × ℕ}

theorem nnIndex_eq : nnIndex i j (h.clusterSize (h.place x y)) (h.C x) h.D =
    h.edgePlace (x, y) (.node i) (.node j) := by
  unfold nnIndex edgePlace RouteLogic.index
  rw [Nat.mul_comm]
  rfl

theorem ncIndex_eq : ncIndex i j (h.clusterSize (h.place x y)) (h.C x) h.D =
    h.edgePlace (x, y) (.node i) (.cluster j) := by
  unfold ncIndex edgePlace RouteLogic.index
  rw [Nat.mul_comm]
  rfl

theorem ndIndex_eq : ndIndex i j (h.clusterSize (h.place x y)) (h.C x) h.D =
    h.edgePlace (x, y) (.node i) (.domain j) := by
  unfold ndIndex edgePlace RouteLogic.index
  rw [Nat.mul_comm]
  rfl

theorem ccIndex_eq : ccIndex i j (h.clusterSize (h.place x y)) (h.C x) h.D =
    h.edgePlace (x, y) (.cluster i) (.cluster j) := by
  unfold ccIndex edgePlace RouteLogic.index
  rw [Nat.mul_comm]
  rfl

theorem cdIndex_eq : cdIndex i j (h.clusterSize (h.place x y)) (h.C x) h.D =
    h.edgePlace (x, y) (.cluster i) (.domain j) := by
  unfold cdIndex edgePlace RouteLogic.index
  rw [Nat.mul_comm]
  rfl

theorem ddIndex_eq : ddIndex i j (h.clusterSize (h.place x y)) (h.C x) h.D =
    h.edgePlace (x, y) (.domain i) (.domain j) := by
  unfold ddIndex edgePlace RouteLogic.index
  rw [Nat.mul_comm]
  rfl

theorem connectPlace_cluster : h.connectPlace (x, y) i (.cluster j) = i * (h.C x + h.D) + j := by
  simp only [connectPlace, number, Nat.add_sub_cancel_left]

theorem connectPlace_domain :
    h.connectPlace (x, y) i (.domain j) = i * (h.C x + h.D) + (h.C x - 1 + j) := by
  simp only [connectPlace, number, Nat.add_assoc, Nat.add_sub_cancel_left]

/-! ### The operations as sequences of writes -/

variable {src dst : HierAddress} {cost : ℤ}

theorem hierInsert_eq :
    r.hierInsert h src dst cost = (insertWrites h src dst cost).foldlM (write h) r := by
  unfold hierInsert insertWrites
  split
  · split
    · simp only [nnIndex_eq, List.foldlM_cons, List.foldlM_nil, bind_pure, write, edge]
      rfl
    · rw [foldlM_flatMap]
      congr
      funext r y
      simp only [ccIndex_eq, ncIndex_eq, ← connectPlace_cluster (y := y)]
      split <;> simp only [List.foldlM_append, List.foldlM_cons, List.foldlM_nil, bind_pure,
        bind_assoc] <;> rfl
  · simp only [List.foldlM_append, foldlM_flatMap, bind_assoc, List.foldlM_cons, List.foldlM_nil,
      bind_pure, ddIndex_eq, cdIndex_eq, ndIndex_eq, ← connectPlace_domain (y := src.cluster)]
    rfl

theorem hierReset_eq :
    r.hierReset h src dst = (resetWrites h src dst).foldlM (write h) r := by
  unfold hierReset resetWrites
  split
  · split
    · simp only [nnIndex_eq, List.foldlM_cons, List.foldlM_nil, bind_pure, write, edge]
      rfl
    · rw [foldlM_flatMap]
      congr
      funext r y
      simp only [ccIndex_eq, ncIndex_eq]
      split <;> simp only [List.foldlM_cons, List.foldlM_nil, bind_pure] <;> rfl
  · rw [foldlM_flatMap]
    congr
    funext r z
    simp only [ddIndex_eq, cdIndex_eq, ndIndex_eq]
    split
    · split <;> simp only [List.foldlM_cons, List.foldlM_nil, bind_pure] <;> rfl
    · simp only [List.foldlM_cons, List.foldlM_nil]
      rfl

/-! ### What is written -/

theorem edge_mem_insertWrites (hs : src.Valid h) {i k : ℕ} {c : ℤ} :
    .adj i k c ∈ insertWrites h src dst cost ↔ c = cost ∧ ∃ z ∈ h.clusters, ∃ u v,
      HierEdge z src dst u v ∧ i = h.place z.1 z.2 ∧ k = h.edgePlace z u v := by
  constructor
  · unfold insertWrites edge lead
    intro hm
    split at hm
    · next hx =>
      split at hm
      · next hy =>
        simp only [List.mem_cons, reduceCtorEq, List.not_mem_nil, or_false, false_or,
          HierWrite.adj.injEq] at hm
        exact ⟨hm.2.2, _, hs.home_mem, _, _, .nodes hx hy rfl, hm.1, hm.2.1⟩
      · next hy =>
        simp only [List.mem_flatMap, List.mem_append, List.mem_cons, reduceCtorEq,
          List.not_mem_nil, or_false, false_or, HierWrite.adj.injEq, List.mem_ite_nil_right] at hm
        obtain ⟨y, hyC, ⟨rfl, rfl, rfl⟩ | ⟨rfl, rfl, rfl, rfl⟩⟩ := hm
        · exact ⟨rfl, (_, y), hs.mem_clusters hyC, _, _, .clusters hx hy rfl, rfl, rfl⟩
        · exact ⟨rfl, _, hs.home_mem, _, _, .nodeCluster hx hy rfl, rfl, rfl⟩
    · next hx =>
      simp only [List.mem_flatMap, List.mem_append, List.mem_cons, reduceCtorEq,
        List.not_mem_nil, or_false, false_or, HierWrite.adj.injEq] at hm
      obtain (⟨z, hz, rfl, rfl, rfl⟩ | ⟨y, hyC, rfl, rfl, rfl⟩) | ⟨rfl, rfl, rfl⟩ := hm
      · exact ⟨rfl, z, hz, _, _, .domains hx, rfl, rfl⟩
      · exact ⟨rfl, (_, y), hs.mem_clusters hyC, _, _, .clusterDomain hx rfl, rfl, rfl⟩
      · exact ⟨rfl, _, hs.home_mem, _, _, .nodeDomain hx rfl, rfl, rfl⟩
  · rintro ⟨rfl, z, hz, u, v, he, rfl, rfl⟩
    obtain ⟨x, y⟩ := z
    have hy' := mem_clustersOf.mpr (Hierarchy.mem_clusters.mp hz).2
    unfold insertWrites edge
    cases he with
    | nodes hx hy hz =>
      obtain ⟨rfl, rfl⟩ := Prod.mk.inj hz
      rw [if_pos hx, if_pos hy]
      exact List.mem_cons_of_mem _ List.mem_cons_self
    | clusters hx hy hz =>
      obtain rfl : x = _ := hz
      rw [if_pos hx, if_neg hy]
      exact List.mem_flatMap.mpr ⟨y, hy', List.mem_append_left _
        (List.mem_cons_of_mem _ List.mem_cons_self)⟩
    | nodeCluster hx hy hz =>
      obtain ⟨rfl, rfl⟩ := Prod.mk.inj hz
      rw [if_pos hx, if_neg hy]
      refine List.mem_flatMap.mpr ⟨_, hy', List.mem_append_right _ ?_⟩
      rw [if_pos rfl]
      exact List.mem_cons_self
    | domains hx =>
      rw [if_neg hx]
      exact List.mem_append_left _ (List.mem_append_left _ (List.mem_flatMap.mpr
        ⟨_, hz, List.mem_cons_of_mem _ List.mem_cons_self⟩))
    | clusterDomain hx hz =>
      obtain rfl : x = _ := hz
      rw [if_neg hx]
      exact List.mem_append_left _ (List.mem_append_right _ (List.mem_flatMap.mpr
        ⟨y, hy', List.mem_cons_of_mem _ List.mem_cons_self⟩))
    | nodeDomain hx hz =>
      obtain ⟨rfl, rfl⟩ := Prod.mk.inj hz
      rw [if_neg hx]
      exact List.mem_append_right _ List.mem_cons_self

/-- The vertex that an address leads to is not a node. -/
theorem lead_mem_insertWrites (hs : src.Valid h) {i k : ℕ} {a : HierAddress} :
    .connect i k a ∈ insertWrites h src dst cost ↔ a = dst.printed ∧ ∃ z ∈ h.clusters, ∃ j v,
      HierEdge z src dst (.node j) v ∧ Outer v ∧ i = h.place z.1 z.2 ∧
        k = h.connectPlace z j v := by
  constructor
  · unfold insertWrites edge lead
    intro hm
    split at hm
    · next hx =>
      split at hm
      · simp only [List.mem_cons, reduceCtorEq, List.not_mem_nil, or_false] at hm
      · next hy =>
        simp only [List.mem_flatMap, List.mem_append, List.mem_cons, reduceCtorEq,
          List.not_mem_nil, or_false, false_or, HierWrite.connect.injEq,
          List.mem_ite_nil_right] at hm
        obtain ⟨y, hyC, rfl, rfl, rfl, rfl⟩ := hm
        exact ⟨rfl, _, hs.home_mem, _, _, .nodeCluster hx hy rfl, trivial, rfl, rfl⟩
    · next hx =>
      simp only [List.mem_flatMap, List.mem_append, List.mem_cons, reduceCtorEq, and_false,
        exists_false, List.not_mem_nil, or_false, false_or, HierWrite.connect.injEq] at hm
      obtain ⟨rfl, rfl, rfl⟩ := hm
      exact ⟨rfl, _, hs.home_mem, _, _, .nodeDomain hx rfl, trivial, rfl, rfl⟩
  · rintro ⟨rfl, z, hz, j, v, he, ho, rfl, rfl⟩
    unfold insertWrites lead
    cases he with
    | nodes => exact ho.elim
    | nodeCluster hx hy hz =>
      obtain rfl := hz
      rw [if_pos hx, if_neg hy]
      refine List.mem_flatMap.mpr ⟨_, mem_clustersOf.mpr hs.cluster, List.mem_append_right _ ?_⟩
      rw [if_pos rfl]
      exact List.mem_cons_of_mem _ List.mem_cons_self
    | nodeDomain hx hz =>
      obtain rfl := hz
      rw [if_neg hx]
      exact List.mem_append_right _ (List.mem_cons_of_mem _ List.mem_cons_self)

theorem edge_mem_resetWrites (hs : src.Valid h) {i k : ℕ} {c : ℤ} :
    .adj i k c ∈ resetWrites h src dst ↔ c = infinity ∧ ∃ z ∈ h.clusters, ∃ u v,
      HierEdge z src dst u v ∧ i = h.place z.1 z.2 ∧ k = h.edgePlace z u v := by
  constructor
  · unfold resetWrites edge
    intro hm
    split at hm
    · next hx =>
      split at hm
      · next hy =>
        simp only [List.mem_cons, List.not_mem_nil, or_false, HierWrite.adj.injEq] at hm
        exact ⟨hm.2.2, _, hs.home_mem, _, _, .nodes hx hy rfl, hm.1, hm.2.1⟩
      · next hy =>
        simp only [List.mem_flatMap, List.mem_cons, List.not_mem_nil, or_false,
          HierWrite.adj.injEq, List.mem_ite_nil_right] at hm
        obtain ⟨y, hyC, ⟨rfl, rfl, rfl⟩ | ⟨rfl, rfl, rfl, rfl⟩⟩ := hm
        · exact ⟨rfl, (_, y), hs.mem_clusters hyC, _, _, .clusters hx hy rfl, rfl, rfl⟩
        · exact ⟨rfl, _, hs.home_mem, _, _, .nodeCluster hx hy rfl, rfl, rfl⟩
    · next hx =>
      simp only [List.mem_flatMap, List.mem_cons, List.not_mem_nil, or_false,
        HierWrite.adj.injEq, List.mem_ite_nil_right] at hm
      obtain ⟨z, hz, ⟨rfl, rfl, rfl⟩ | ⟨hz₁, ⟨rfl, rfl, rfl⟩ | ⟨hz₂, rfl, rfl, rfl⟩⟩⟩ := hm
      · exact ⟨rfl, z, hz, _, _, .domains hx, rfl, rfl⟩
      · exact ⟨rfl, z, hz, _, _, .clusterDomain hx hz₁, rfl, rfl⟩
      · exact ⟨rfl, z, hz, _, _, .nodeDomain hx (Prod.ext hz₁ hz₂), rfl, rfl⟩
  · rintro ⟨rfl, z, hz, u, v, he, rfl, rfl⟩
    obtain ⟨x, y⟩ := z
    have hy' := mem_clustersOf.mpr (Hierarchy.mem_clusters.mp hz).2
    unfold resetWrites edge
    cases he with
    | nodes hx hy hz =>
      obtain ⟨rfl, rfl⟩ := Prod.mk.inj hz
      rw [if_pos hx, if_pos hy]
      exact List.mem_cons_self
    | clusters hx hy hz =>
      obtain rfl : x = _ := hz
      rw [if_pos hx, if_neg hy]
      exact List.mem_flatMap.mpr ⟨y, hy', List.mem_cons_self⟩
    | nodeCluster hx hy hz =>
      obtain ⟨rfl, rfl⟩ := Prod.mk.inj hz
      rw [if_pos hx, if_neg hy]
      refine List.mem_flatMap.mpr ⟨_, hy', List.mem_cons_of_mem _ ?_⟩
      rw [if_pos rfl]
      exact List.mem_cons_self
    | domains hx =>
      rw [if_neg hx]
      exact List.mem_flatMap.mpr ⟨_, hz, List.mem_cons_self⟩
    | clusterDomain hx hz' =>
      obtain rfl : x = _ := hz'
      rw [if_neg hx]
      refine List.mem_flatMap.mpr ⟨_, hz, List.mem_cons_of_mem _ ?_⟩
      rw [if_pos rfl]
      exact List.mem_cons_self
    | nodeDomain hx hz' =>
      obtain ⟨rfl, rfl⟩ := Prod.mk.inj hz'
      rw [if_neg hx]
      refine List.mem_flatMap.mpr ⟨_, hz, List.mem_cons_of_mem _ ?_⟩
      rw [if_pos rfl, if_pos rfl]
      exact List.mem_cons_of_mem _ List.mem_cons_self

/-! ### The matrices that the writes need -/

/-- The writes stay inside the arrays of the matrices that are allocated, which are the ones of
`A` and those that a write has checked before, whose lengths fit. -/
def Ready (h : Hierarchy) : (ℕ → Prop) → List HierWrite → Prop
  | _, [] => True
  | A, .check i :: ws => h.fullSize i < 2 ^ 31 ∧ Ready h (fun j => j = i ∨ A j) ws
  | A, .adj i k _ :: ws => (A i ∧ k < h.fullSize i) ∧ Ready h A ws
  | A, .connect i k _ :: ws =>
    (A i ∧ k < (h.Cmax + h.D) * (h.clusterSize i + 1)) ∧ Ready h A ws

variable {A B : ℕ → Prop} {ws ws' : List HierWrite} {r' : HierRoutes}

theorem Ready.mono (hr : Ready h A ws) (hAB : ∀ i, A i → B i) : Ready h B ws := by
  induction ws generalizing A B with
  | nil => trivial
  | cons w ws ih =>
    cases w with
    | check i => exact ⟨hr.1, ih hr.2 fun j hj => hj.imp_right (hAB j)⟩
    | adj => exact ⟨⟨hAB _ hr.1.1, hr.1.2⟩, ih hr.2 hAB⟩
    | connect => exact ⟨⟨hAB _ hr.1.1, hr.1.2⟩, ih hr.2 hAB⟩

theorem Ready.append (hr : Ready h A ws) (hr' : Ready h (fun i => .check i ∈ ws ∨ A i) ws') :
    Ready h A (ws ++ ws') := by
  induction ws generalizing A with
  | nil => exact hr'.mono fun i hi => hi.resolve_left List.not_mem_nil
  | cons w ws ih =>
    cases w with
    | check i =>
      refine ⟨hr.1, ih hr.2 (hr'.mono fun j hj => ?_)⟩
      obtain hj | hj := hj
      · obtain hj | hj := List.mem_cons.mp hj
        · exact .inr (.inl (HierWrite.check.inj hj))
        · exact .inl hj
      · exact .inr (.inr hj)
    | adj =>
      exact ⟨hr.1, ih hr.2 (hr'.mono fun j hj => hj.imp_left fun hm => by simpa using hm)⟩
    | connect =>
      exact ⟨hr.1, ih hr.2 (hr'.mono fun j hj => hj.imp_left fun hm => by simpa using hm)⟩

theorem Ready.flatMap {α : Type} {l : List α} {g : α → List HierWrite}
    (hg : ∀ x ∈ l, Ready h A (g x)) : Ready h A (l.flatMap g) := by
  induction l with
  | nil => trivial
  | cons x l ih =>
    rw [List.flatMap_cons]
    exact (hg x List.mem_cons_self).append
      ((ih fun y hy => hg y (List.mem_cons_of_mem _ hy)).mono fun i hi => .inr hi)

/-- Each cluster is checked before the writes to it. -/
theorem ready_insertWrites (hs : src.Valid h) (hd : dst.Valid h)
    (hfit : ∀ z ∈ h.clusters, ∀ u v, HierEdge z src dst u v →
      h.fullSize (h.place z.1 z.2) < 2 ^ 31) : Ready h A (insertWrites h src dst cost) := by
  have hlt : ∀ z ∈ h.clusters, ∀ u v, HierEdge z src dst u v →
      h.edgePlace z u v < h.fullSize (h.place z.1 z.2) := fun z hz u v he =>
    edgePlace_lt hz (hs.edge_has hd he).1 (hs.edge_has hd he).2
  have hcon : ∀ v, HierEdge src.home src dst (.node src.node) v →
      h.connectPlace src.home src.node v <
        (h.Cmax + h.D) * (h.clusterSize (h.place src.domain src.cluster) + 1) := fun v he =>
    connectPlace_lt hs.home_mem hs.node (hs.edge_has hd he).2
  unfold insertWrites
  split
  · next hx =>
    split
    · next hy =>
      have he : HierEdge src.home src dst _ _ := .nodes hx hy rfl
      exact ⟨hfit _ hs.home_mem _ _ he, ⟨.inl rfl, hlt _ hs.home_mem _ _ he⟩, trivial⟩
    · next hy =>
      refine .flatMap fun y hyC => ?_
      have he : HierEdge (src.domain, y) src dst _ _ := .clusters hx hy rfl
      have hz := hs.mem_clusters hyC
      refine ⟨hfit _ hz _ _ he, ⟨.inl rfl, hlt _ hz _ _ he⟩, ?_⟩
      split
      · next h' =>
        subst h'
        exact ⟨⟨.inl rfl, hlt _ hs.home_mem _ _ (.nodeCluster hx hy rfl)⟩,
          ⟨.inl rfl, hcon _ (.nodeCluster hx hy rfl)⟩, trivial⟩
      · trivial
  · next hx =>
    refine Ready.append (.append (.flatMap fun z hz => ?_) (.flatMap fun y hyC => ?_)) ?_
    · exact ⟨hfit z hz _ _ (.domains hx), ⟨.inl rfl, hlt z hz _ _ (.domains hx)⟩, trivial⟩
    · have he : HierEdge (src.domain, y) src dst _ _ := .clusterDomain hx rfl
      have hz := hs.mem_clusters hyC
      exact ⟨hfit _ hz _ _ he, ⟨.inl rfl, hlt _ hz _ _ he⟩, trivial⟩
    · have hmem : .check (h.place src.domain src.cluster) ∈ (h.clustersOf src.domain).flatMap
          fun y => [.check (h.place src.domain y),
            edge h (src.domain, y) (.cluster src.cluster) (.domain dst.domain) cost] :=
        List.mem_flatMap.mpr ⟨_, mem_clustersOf.mpr hs.cluster, List.mem_cons_self⟩
      exact ⟨⟨.inl (List.mem_append_right _ hmem), hlt _ hs.home_mem _ _ (.nodeDomain hx rfl)⟩,
        ⟨.inl (List.mem_append_right _ hmem), hcon _ (.nodeDomain hx rfl)⟩, trivial⟩

theorem ready_resetWrites (hs : src.Valid h) (hd : dst.Valid h)
    (hA : ∀ z ∈ h.clusters, ∀ u v, HierEdge z src dst u v → A (h.place z.1 z.2)) :
    Ready h A (resetWrites h src dst) := by
  have hlt : ∀ z ∈ h.clusters, ∀ u v, HierEdge z src dst u v →
      A (h.place z.1 z.2) ∧ h.edgePlace z u v < h.fullSize (h.place z.1 z.2) := fun z hz u v he =>
    ⟨hA z hz u v he, edgePlace_lt hz (hs.edge_has hd he).1 (hs.edge_has hd he).2⟩
  unfold resetWrites
  split
  · next hx =>
    split
    · next hy => exact ⟨hlt _ hs.home_mem _ _ (.nodes hx hy rfl), trivial⟩
    · next hy =>
      refine .flatMap fun y hyC => ⟨hlt (_, y) (hs.mem_clusters hyC) _ _ (.clusters hx hy rfl), ?_⟩
      split
      · next h' =>
        subst h'
        exact ⟨hlt _ hs.home_mem _ _ (.nodeCluster hx hy rfl), trivial⟩
      · trivial
  · next hx =>
    refine .flatMap fun z hz => ⟨hlt z hz _ _ (.domains hx), ?_⟩
    split
    · next hz₁ =>
      refine ⟨hlt z hz _ _ (.clusterDomain hx hz₁), ?_⟩
      split
      · next hz₂ => exact ⟨hlt z hz _ _ (.nodeDomain hx (Prod.ext hz₁ hz₂)), trivial⟩
      · trivial
    · trivial

end HierRoutes

end Ns2XPass
