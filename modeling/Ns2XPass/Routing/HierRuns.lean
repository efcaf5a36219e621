import Ns2XPass.Library.Machine
import Ns2XPass.Routing.HierMatrices

/-! # Runs of insertions and resets

Several links may stand for the same edge of a matrix. In all runs an edge in a matrix is that of a
link which is present, and the place of a node for it leads to where the link goes. A reset
also removes the edges of the other links that join the same clusters or domains.
-/

namespace Ns2XPass

open Hierarchy HierWrite

namespace HierRoutes

variable {h : Hierarchy} {r r' : HierRoutes} {src dst : HierAddress} {cost c : ℤ}
  {ws : List HierWrite} {z : ℕ × ℕ} {i j k : ℕ} {u v : HierVertex}

/-! ### The operations -/

/-- The matrices after the edges of a link have been set to a cost. -/
structure LinkSet (h : Hierarchy) (src dst : HierAddress) (c : ℤ) (r r' : HierRoutes) : Prop where
  sized : Sized h r → Sized h r'
  grows : ∀ i, 0 < r.hsize i → 0 < r'.hsize i
  range : ∀ i k, r'.cell i k = c ∨ r'.cell i k = r.cell i k
  on : ∀ z ∈ h.clusters, ∀ u v, HierEdge z src dst u v →
    r'.cell (h.place z.1 z.2) (h.edgePlace z u v) = c
  off : ∀ z ∈ h.clusters, ∀ k, (∀ u v, HierEdge z src dst u v → k ≠ h.edgePlace z u v) →
    r'.cell (h.place z.1 z.2) k = r.cell (h.place z.1 z.2) k

theorem LinkSet.of_writes (hws : ∀ i k c', .adj i k c' ∈ ws ↔ c' = c ∧ ∃ z ∈ h.clusters, ∃ u v,
      HierEdge z src dst u v ∧ i = h.place z.1 z.2 ∧ k = h.edgePlace z u v)
    (hw : ws.foldlM (write h) r = .ok r') : LinkSet h src dst c r r' where
  sized := sized_writes hw
  grows _ := hsize_writes hw
  range i k := by
    by_cases hm : .adj i k c ∈ ws
    · exact .inl (cell_writes_of_mem hw hm fun c' hc' => ((hws i k c').mp hc').1)
    · refine .inr (cell_writes_of_not_mem hw fun c' hc' => hm ?_)
      obtain rfl := ((hws i k c').mp hc').1
      exact hc'
  on z hz u v he :=
    cell_writes_of_mem hw ((hws _ _ _).mpr ⟨rfl, z, hz, u, v, he, rfl, rfl⟩)
      fun c' hc' => ((hws _ _ c').mp hc').1
  off z hz k hk := by
    refine cell_writes_of_not_mem hw fun c' hc' => ?_
    obtain ⟨-, z', hz', u, v, he, hi, hk'⟩ := (hws _ _ _).mp hc'
    obtain rfl := (place_inj hz hz').mp hi
    exact hk u v he hk'

theorem linkSet_hierInsert (hs : src.Valid h) (hr : r.hierInsert h src dst cost = .ok r') :
    LinkSet h src dst cost r r' :=
  .of_writes (fun _ _ _ => edge_mem_insertWrites hs) (hierInsert_eq.symm.trans hr)

theorem linkSet_hierReset (hs : src.Valid h) (hr : r.hierReset h src dst = .ok r') :
    LinkSet h src dst infinity r r' :=
  .of_writes (fun _ _ _ => edge_mem_resetWrites hs) (hierReset_eq.symm.trans hr)

theorem exists_hierInsert (hs : src.Valid h) (hd : dst.Valid h) (hz : Sized h r)
    (hfit : ∀ z ∈ h.clusters, ∀ u v, HierEdge z src dst u v →
      h.fullSize (h.place z.1 z.2) < 2 ^ 31) : ∃ r', r.hierInsert h src dst cost = .ok r' := by
  rw [hierInsert_eq]
  exact exists_writes (A := fun _ => False) (by have := hs.domain; omega) hz
    (ready_insertWrites hs hd hfit) fun _ => False.elim

theorem exists_hierReset (hs : src.Valid h) (hd : dst.Valid h) (hz : Sized h r)
    (ha : ∀ z ∈ h.clusters, ∀ u v, HierEdge z src dst u v → 0 < r.hsize (h.place z.1 z.2)) :
    ∃ r', r.hierReset h src dst = .ok r' := by
  rw [hierReset_eq]
  exact exists_writes (A := fun i => 0 < r.hsize i) (by have := hs.domain; omega) hz
    (ready_resetWrites hs hd ha) fun _ hi => hi

theorem entry_hierInsert (hs : src.Valid h) (hr : r.hierInsert h src dst cost = .ok r')
    (hz : z ∈ h.clusters) (he : HierEdge z src dst (.node j) v) (ho : Outer v) :
    r'.entry (h.place z.1 z.2) (h.connectPlace z j v) = some dst.printed :=
  entry_writes_of_mem (hierInsert_eq.symm.trans hr)
    ((lead_mem_insertWrites hs).mpr ⟨rfl, z, hz, j, v, he, ho, rfl, rfl⟩)
    fun _ ha => ((lead_mem_insertWrites hs).mp ha).1

theorem entry_hierInsert_of_not (hs : src.Valid h) (hd : dst.Valid h)
    (hr : r.hierInsert h src dst cost = .ok r') (hz : z ∈ h.clusters) (hv : h.Has z v)
    (ho : Outer v) (he : ¬ HierEdge z src dst (.node j) v) :
    r'.entry (h.place z.1 z.2) (h.connectPlace z j v) =
      r.entry (h.place z.1 z.2) (h.connectPlace z j v) := by
  refine entry_writes_of_not_mem (hierInsert_eq.symm.trans hr) fun a ha => he ?_
  obtain ⟨-, z', hz', j', v', he', ho', hi, hk⟩ := (lead_mem_insertWrites hs).mp ha
  obtain rfl := (place_inj hz hz').mp hi
  obtain ⟨rfl, rfl⟩ := (connectPlace_inj hz hv (hs.edge_has hd he').2 ho ho').mp hk
  exact he'

theorem entry_hierReset (hr : r.hierReset h src dst = .ok r') (i k : ℕ) :
    r'.entry i k = r.entry i k := by
  refine entry_writes_of_not_mem (hierReset_eq.symm.trans hr) fun a ha => ?_
  unfold resetWrites edge at ha
  split at ha
  · split at ha <;> simp at ha
  · simp at ha

/-- The routes are written, and nothing else. -/
theorem hierCompute_keeps {memory : ℕ → ℕ → ℚ} (hr : r.hierCompute h memory = .ok r') :
    r'.hsize = r.hsize ∧ r'.hadj = r.hadj ∧ r'.hconnect = r.hconnect := by
  refine foldlM_preserves (P := fun s : HierRoutes =>
    s.hsize = r.hsize ∧ s.hadj = r.hadj ∧ s.hconnect = r.hconnect) ⟨rfl, rfl, rfl⟩
    (fun s z s' _ hs he => ?_) hr
  unfold computeCluster at he
  dsimp only at he
  split at he
  · cases he
  · obtain rfl := Except.ok.inj he
    exact hs

end HierRoutes

/-! ### The machine -/

inductive HierCall
  | insert (src dst : HierAddress) (cost : ℤ)
  | reset (src dst : HierAddress)
  | compute (memory : ℕ → ℕ → ℚ)

namespace HierCall

def Allowed (h : Hierarchy) (B : ℤ) : HierCall → Prop
  | insert src dst cost => src.Valid h ∧ dst.Valid h ∧ src ≠ dst ∧ 1 ≤ cost ∧ cost ≤ B
  | reset src dst => src.Valid h ∧ dst.Valid h ∧ src ≠ dst
  | compute _ => True

def run (h : Hierarchy) (r : HierRoutes) : HierCall → Except HierFault HierRoutes
  | insert src dst cost => r.hierInsert h src dst cost
  | reset src dst => r.hierReset h src dst
  | compute memory => r.hierCompute h memory

/-- The links that have been inserted and not reset. -/
def record (_ : HierRoutes) (x : HierCall) (_ : HierRoutes)
    (links : List (HierAddress × HierAddress)) : List (HierAddress × HierAddress) :=
  match x with
  | insert src dst _ => (src, dst) :: links
  | reset src dst => links.filter fun l => l ≠ (src, dst)
  | compute _ => links

end HierCall

def hierCalls (h : Hierarchy) (B : ℤ) : Machine HierRoutes HierCall HierFault where
  Init r := ∀ i, r.hsize i = 0
  Enabled _ x := x.Allowed h B
  step := HierCall.run h

def hierRuns (h : Hierarchy) (B : ℤ) :
    Machine (HierRoutes × List (HierAddress × HierAddress)) HierCall HierFault :=
  (hierCalls h B).withHistory [] HierCall.record

/-- The matrices hold edges of the links that are present. -/
structure HierSound (h : Hierarchy) (B : ℤ) (r : HierRoutes)
    (links : List (HierAddress × HierAddress)) : Prop where
  sized : r.Sized h
  valid : ∀ l ∈ links, l.1.Valid h ∧ l.2.Valid h ∧ l.1 ≠ l.2
  allocated : ∀ l ∈ links, ∀ z ∈ h.clusters, ∀ u v, HierEdge z l.1 l.2 u v →
    0 < r.hsize (h.place z.1 z.2)
  costs : ∀ i k, r.cell i k ≠ HierRoutes.infinity → 1 ≤ r.cell i k ∧ r.cell i k ≤ B
  edges : ∀ z ∈ h.clusters, ∀ k, r.cell (h.place z.1 z.2) k ≠ HierRoutes.infinity →
    ∃ l ∈ links, ∃ u v, HierEdge z l.1 l.2 u v ∧ k = h.edgePlace z u v ∧ ∀ j, u = .node j →
      Outer v → r.entry (h.place z.1 z.2) (h.connectPlace z j v) = some l.2.printed

open HierRoutes

section Sound

variable {h : Hierarchy} {B : ℤ} {r r' : HierRoutes} {links : List (HierAddress × HierAddress)}
  {src dst : HierAddress} {cost : ℤ}

theorem HierSound.start (hr : ∀ i, r.hsize i = 0) : HierSound h B r [] where
  sized i := .inl (hr i)
  valid _ hl := absurd hl List.not_mem_nil
  allocated _ hl := absurd hl List.not_mem_nil
  costs i _ hc := absurd (if_pos (hr i)) hc
  edges _ _ _ hc := absurd (if_pos (hr _)) hc

theorem pos_of_cell {i k : ℕ} (hc : r.cell i k ≠ infinity) : 0 < r.hsize i :=
  Nat.pos_of_ne_zero fun h0 => hc (if_pos h0)

theorem HierSound.insert (hI : HierSound h B r links) (hB : B < infinity) (hs : src.Valid h)
    (hd : dst.Valid h) (hne : src ≠ dst) (h1 : 1 ≤ cost) (hcB : cost ≤ B)
    (hr : r.hierInsert h src dst cost = .ok r') : HierSound h B r' ((src, dst) :: links) := by
  have hset := linkSet_hierInsert hs hr
  have hfin : cost ≠ infinity := (hcB.trans_lt hB).ne
  refine ⟨hset.sized hI.sized, fun l hl => ?_, fun l hl z hz u v he => ?_, fun i k hc => ?_,
    fun z hz k hc => ?_⟩
  · obtain rfl | hl := List.mem_cons.mp hl
    · exact ⟨hs, hd, hne⟩
    · exact hI.valid l hl
  · obtain rfl | hl := List.mem_cons.mp hl
    · exact pos_of_cell ((hset.on z hz u v he).trans_ne hfin)
    · exact hset.grows _ (hI.allocated l hl z hz u v he)
  · obtain he | he := hset.range i k
    · rw [he]
      exact ⟨h1, hcB⟩
    · rw [he] at hc ⊢
      exact hI.costs i k hc
  · by_cases hon : ∃ u v, HierEdge z src dst u v ∧ k = h.edgePlace z u v
    · obtain ⟨u, v, he, rfl⟩ := hon
      refine ⟨(src, dst), List.mem_cons_self, u, v, he, rfl, fun j hj ho => ?_⟩
      subst hj
      exact entry_hierInsert hs hr hz he ho
    · have hoff := hset.off z hz k fun u v he hk => hon ⟨u, v, he, hk⟩
      rw [hoff] at hc
      obtain ⟨l, hl, u, v, he, hk, hlead⟩ := hI.edges z hz k hc
      refine ⟨l, List.mem_cons_of_mem _ hl, u, v, he, hk, fun j hj ho => ?_⟩
      obtain ⟨hls, hld, -⟩ := hI.valid l hl
      subst hj
      rw [entry_hierInsert_of_not hs hd hr hz (hls.edge_has hld he).2 ho fun he' =>
        hon ⟨_, _, he', hk⟩]
      exact hlead j rfl ho

theorem HierSound.reset (hI : HierSound h B r links) (hs : src.Valid h)
    (hr : r.hierReset h src dst = .ok r') :
    HierSound h B r' (links.filter fun l => l ≠ (src, dst)) := by
  have hset := linkSet_hierReset hs hr
  have hsub : ∀ l ∈ links.filter (fun l => l ≠ (src, dst)), l ∈ links := fun l hl =>
    (List.mem_filter.mp hl).1
  refine ⟨hset.sized hI.sized, fun l hl => hI.valid l (hsub l hl), fun l hl z hz u v he =>
    hset.grows _ (hI.allocated l (hsub l hl) z hz u v he), fun i k hc => ?_, fun z hz k hc => ?_⟩
  · obtain he | he := hset.range i k
    · exact absurd he hc
    · rw [he] at hc ⊢
      exact hI.costs i k hc
  · -- The edges of the link are gone, so this one is still that of another link.
    by_cases hon : ∃ u v, HierEdge z src dst u v ∧ k = h.edgePlace z u v
    · obtain ⟨u, v, he, rfl⟩ := hon
      exact absurd (hset.on z hz u v he) hc
    · have hoff := hset.off z hz k fun u v he hk => hon ⟨u, v, he, hk⟩
      rw [hoff] at hc
      obtain ⟨l, hl, u, v, he, hk, hlead⟩ := hI.edges z hz k hc
      refine ⟨l, List.mem_filter.mpr ⟨hl, decide_eq_true fun hl' => hon ?_⟩, u, v, he, hk,
        fun j hj ho => (entry_hierReset hr _ _).trans (hlead j hj ho)⟩
      subst hl'
      exact ⟨u, v, he, hk⟩

theorem HierSound.compute (hI : HierSound h B r links) {memory : ℕ → ℕ → ℚ}
    (hr : r.hierCompute h memory = .ok r') : HierSound h B r' links := by
  obtain ⟨hsize, hadj, hcon⟩ := hierCompute_keeps hr
  have hcell : ∀ i k, r'.cell i k = r.cell i k := fun i k => by rw [cell, hsize, hadj, cell]
  have hentry : ∀ i k, r'.entry i k = r.entry i k := fun i k => by rw [entry, hsize, hcon, entry]
  refine ⟨?_, hI.valid, ?_, fun i k hc => ?_, fun z hz k hc => ?_⟩
  · unfold Sized
    rw [hsize]
    exact hI.sized
  · rw [hsize]
    exact hI.allocated
  · rw [hcell] at hc ⊢
    exact hI.costs i k hc
  · rw [hcell] at hc
    simp only [hentry]
    exact hI.edges z hz k hc

/-- The costs are below the bound, when even those along a walk through all vertices are. -/
theorem lt_infinity (hB : ∀ z ∈ h.clusters, (h.vertices z - 1 : ℕ) * B < infinity)
    (hs : src.Valid h) (h0 : 0 ≤ B) : B < infinity := by
  refine lt_of_le_of_lt (le_mul_of_one_le_left h0 ?_) (hB _ hs.home_mem)
  have hpos : 1 ≤ h.vertices src.home - 1 := by
    obtain ⟨⟨hd, hD⟩, ⟨hc, hC⟩, hn, hN⟩ := hs
    dsimp only [vertices, HierAddress.home]
    omega
  exact_mod_cast hpos

theorem hierRuns_invariant (hB : ∀ z ∈ h.clusters, (h.vertices z - 1 : ℕ) * B < infinity) :
    (hierRuns h B).Invariant fun p => HierSound h B p.1 p.2 := by
  refine ⟨fun p hp => ?_, fun p x p' hI he hs => ?_⟩
  · obtain ⟨hr, hl⟩ := hp
    rw [hl]
    exact .start hr
  · obtain ⟨hr, hl⟩ := (Machine.withHistory_step_iff []).mp hs
    rw [hl]
    cases x with
    | insert src dst cost =>
      obtain ⟨hs, hd, hne, h1, hcB⟩ := he
      exact hI.insert (lt_infinity hB hs (by omega)) hs hd hne h1 hcB hr
    | reset src dst => exact hI.reset he.1 hr
    | compute memory => exact hI.compute hr

end Sound

/-! ### Resets that separate -/

/-- Links that join the same clusters, or the same domains. -/
def JoinsAlike (s t src dst : HierAddress) : Prop :=
  (s.domain = src.domain ∧ t.domain = dst.domain) ∧
    (src.domain = dst.domain →
      (s.cluster = src.cluster ∧ t.cluster = dst.cluster) ∧ src.cluster ≠ dst.cluster)

/-- The clusters whose matrices have an edge for a link. -/
def Concerns (z : ℕ × ℕ) (src dst : HierAddress) : Prop :=
  src.domain = dst.domain → z.1 = src.domain ∧ (src.cluster = dst.cluster → z.2 = src.cluster)

/-- A reset is of a link that no other one which is present is like, the matrices that it writes
or that are read are there, and those that are written by an insertion fit. -/
def Separate (h : Hierarchy) (p : HierRoutes × List (HierAddress × HierAddress)) :
    HierCall → Prop
  | .insert src dst _ =>
    ∀ z ∈ h.clusters, Concerns z src dst → h.fullSize (h.place z.1 z.2) < 2 ^ 31
  | .reset src dst =>
    (∀ l ∈ p.2, JoinsAlike l.1 l.2 src dst → l = (src, dst)) ∧
      ∀ z ∈ h.clusters, Concerns z src dst → 0 < p.1.hsize (h.place z.1 z.2)
  | .compute _ => ∀ z ∈ h.clusters, 0 < p.1.hsize (h.place z.1 z.2)

def separateRuns (h : Hierarchy) (B : ℤ) :
    Machine (HierRoutes × List (HierAddress × HierAddress)) HierCall HierFault :=
  (hierRuns h B).restrict (Separate h)

/-- The matrices hold all edges of the links that are present. -/
def HierComplete (h : Hierarchy) (r : HierRoutes) (links : List (HierAddress × HierAddress)) :
    Prop :=
  ∀ l ∈ links, ∀ z ∈ h.clusters, ∀ u v, HierEdge z l.1 l.2 u v →
    r.cell (h.place z.1 z.2) (h.edgePlace z u v) ≠ infinity

section Separate

variable {h : Hierarchy} {B : ℤ} {r r' : HierRoutes} {links : List (HierAddress × HierAddress)}
  {src dst s t : HierAddress} {cost : ℤ} {z : ℕ × ℕ} {u v : HierVertex}

theorem HierEdge.concerns (he : HierEdge z src dst u v) : Concerns z src dst := by
  cases he with
  | nodes _ _ hz => exact fun _ => ⟨congrArg Prod.fst hz, fun _ => congrArg Prod.snd hz⟩
  | clusters _ hy hz => exact fun _ => ⟨hz, fun h' => absurd h' hy⟩
  | nodeCluster _ hy hz => exact fun _ => ⟨congrArg Prod.fst hz, fun h' => absurd h' hy⟩
  | domains hx => exact fun h' => absurd h' hx
  | clusterDomain hx _ => exact fun h' => absurd h' hx
  | nodeDomain hx _ => exact fun h' => absurd h' hx

theorem HierAddress.eq_of_home (h₁ : s.home = t.home) (h₂ : s.node = t.node) : s = t := by
  obtain ⟨sx, sy, sn⟩ := s
  obtain ⟨tx, ty, tn⟩ := t
  obtain ⟨rfl, rfl⟩ := Prod.mk.inj h₁
  obtain rfl : sn = tn := h₂
  rfl

/-- Links that stand for the same edge are one, or join the same clusters or domains. -/
theorem HierEdge.joinsAlike {u' v' : HierVertex} (he : HierEdge z s t u v)
    (he' : HierEdge z src dst u' v') (hu : u = u') (hv : v = v') :
    (s = src ∧ t = dst) ∨ JoinsAlike s t src dst := by
  cases he with
  | nodes hx hy hz =>
    cases he' with
    | nodes hx' hy' hz' =>
      have hhome : s.home = src.home := hz.symm.trans hz'
      have hhome' : t.home = dst.home :=
        (Prod.ext hx hy : s.home = t.home).symm.trans
          (hhome.trans (Prod.ext hx' hy' : src.home = dst.home))
      exact .inl ⟨HierAddress.eq_of_home hhome (HierVertex.node.inj hu),
        HierAddress.eq_of_home hhome' (HierVertex.node.inj hv)⟩
    | _ => simp at hu hv
  | clusters hx hy hz =>
    cases he' with
    | clusters hx' hy' hz' =>
      have hs : s.domain = src.domain := hz.symm.trans hz'
      exact .inr ⟨⟨hs, hx.symm.trans (hs.trans hx')⟩,
        fun _ => ⟨⟨HierVertex.cluster.inj hu, HierVertex.cluster.inj hv⟩, hy'⟩⟩
    | _ => simp at hu hv
  | nodeCluster hx hy hz =>
    cases he' with
    | nodeCluster hx' hy' hz' =>
      obtain ⟨hs, hs'⟩ := Prod.mk.inj (hz.symm.trans hz')
      exact .inr ⟨⟨hs, hx.symm.trans (hs.trans hx')⟩,
        fun _ => ⟨⟨hs', HierVertex.cluster.inj hv⟩, hy'⟩⟩
    | _ => simp at hu hv
  | domains hx =>
    cases he' with
    | domains hx' =>
      exact .inr ⟨⟨HierVertex.domain.inj hu, HierVertex.domain.inj hv⟩, fun h' => absurd h' hx'⟩
    | _ => simp at hu hv
  | clusterDomain hx hz =>
    cases he' with
    | clusterDomain hx' hz' =>
      exact .inr ⟨⟨hz.symm.trans hz', HierVertex.domain.inj hv⟩, fun h' => absurd h' hx'⟩
    | _ => simp at hu hv
  | nodeDomain hx hz =>
    cases he' with
    | nodeDomain hx' hz' =>
      exact .inr ⟨⟨(Prod.mk.inj (hz.symm.trans hz')).1, HierVertex.domain.inj hv⟩,
        fun h' => absurd h' hx'⟩
    | _ => simp at hu hv

theorem HierComplete.insert (hI : HierComplete h r links) (hs : src.Valid h)
    (hfin : cost ≠ infinity) (hr : r.hierInsert h src dst cost = .ok r') :
    HierComplete h r' ((src, dst) :: links) := by
  have hset := linkSet_hierInsert hs hr
  intro l hl z hz u v he
  obtain hc | hc := hset.range (h.place z.1 z.2) (h.edgePlace z u v)
  · exact hc.trans_ne hfin
  · obtain rfl | hl := List.mem_cons.mp hl
    · exact (hset.on z hz u v he).trans_ne hfin
    · exact hc.trans_ne (hI l hl z hz u v he)

theorem HierComplete.reset (hI : HierComplete h r links) (hv : HierSound h B r links)
    (hs : src.Valid h) (hd : dst.Valid h)
    (hsep : ∀ l ∈ links, JoinsAlike l.1 l.2 src dst → l = (src, dst))
    (hr : r.hierReset h src dst = .ok r') :
    HierComplete h r' (links.filter fun l => l ≠ (src, dst)) := by
  have hset := linkSet_hierReset hs hr
  intro l hl z hz u v he
  obtain ⟨hl, hne⟩ := List.mem_filter.mp hl
  have hne : l ≠ (src, dst) := of_decide_eq_true hne
  refine (hset.off z hz _ fun u' v' he' hk => hne ?_).trans_ne (hI l hl z hz u v he)
  obtain ⟨hls, hld, -⟩ := hv.valid l hl
  have hhas := hls.edge_has hld he
  have hhas' := hs.edge_has hd he'
  obtain ⟨hu, hv⟩ := (edgePlace_inj hz hhas.1 hhas.2 hhas'.1 hhas'.2).mp hk
  obtain ⟨hl₁, hl₂⟩ | hl' := he.joinsAlike he' hu hv
  · exact Prod.ext hl₁ hl₂
  · exact hsep l hl hl'

theorem HierComplete.compute (hI : HierComplete h r links) {memory : ℕ → ℕ → ℚ}
    (hr : r.hierCompute h memory = .ok r') : HierComplete h r' links := by
  obtain ⟨hsize, hadj, -⟩ := hierCompute_keeps hr
  intro l hl z hz u v he
  rw [cell, hsize, hadj]
  exact hI l hl z hz u v he

theorem separateRuns_invariant (hB : ∀ z ∈ h.clusters, (h.vertices z - 1 : ℕ) * B < infinity) :
    (separateRuns h B).Invariant fun p => HierSound h B p.1 p.2 ∧ HierComplete h p.1 p.2 := by
  refine Machine.Invariant.under (hierRuns_invariant hB).restrict (fun p hp l hl => ?_)
    (fun p x p' hS hI he hs => ?_)
  · rw [hp.2] at hl
    exact absurd hl List.not_mem_nil
  · obtain ⟨hr, hl⟩ := (Machine.withHistory_step_iff []).mp hs
    rw [hl]
    cases x with
    | insert src dst cost =>
      obtain ⟨hs, hd, -, h1, hcB⟩ := he.1
      exact hI.insert hs (hcB.trans_lt (lt_infinity hB hs (by omega))).ne hr
    | reset src dst => exact hI.reset hS he.1.1 he.1.2.1 he.2.1 hr
    | compute memory => exact hI.compute hr

end Separate

end Ns2XPass
