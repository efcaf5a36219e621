import Ns2XPass.Routing.RouteLogic

/-! # Hierarchical routes

Nodes are in clusters, and clusters are in domains. Every cluster has a matrix with the costs of
the links between its nodes, the clusters of its domain and the domains, in one numbering,
and a table with the addresses that the links of its nodes to other clusters and
domains lead to. A matrix is allocated when the first link in it is set.
-/

namespace Ns2XPass

/-- The numbers of an address start at 1, and 0 stands for those that are not positive. -/
structure HierAddress where
  domain : ℕ
  cluster : ℕ
  node : ℕ
  deriving DecidableEq

/-- The address as it is printed, with numbers from 0 on. -/
def HierAddress.printed (a : HierAddress) : HierAddress := ⟨a.domain - 1, a.cluster - 1, a.node - 1⟩

/-- `D_` and `C_`, the numbers of domains and of clusters, plus one, and `cluster_size_` by the
places of the clusters. -/
structure Hierarchy where
  D : ℕ
  C : ℕ → ℕ
  clusterSize : ℕ → ℕ

namespace Hierarchy

variable (h : Hierarchy)

/-- The loop of `hier_init` for `Cmax_`. -/
def Cmax : ℕ := (List.range' 1 (h.D - 1)).foldl (fun m i => if m < h.C i then h.C i else m) 0

/-- `INDEX` of a cluster. -/
def place (x y : ℕ) : ℕ := RouteLogic.index x y h.Cmax

/-- The clusters of a domain in the order of the loops. -/
def clustersOf (x : ℕ) : List ℕ := List.range' 1 (h.C x - 1)

/-- The clusters of all domains in the order of the nested loops. -/
def clusters : List (ℕ × ℕ) :=
  (List.range' 1 (h.D - 1)).flatMap fun x => (h.clustersOf x).map fun y => (x, y)

/-- The number of rows of the matrix of a cluster that are used. -/
def stride (x y : ℕ) : ℕ := h.clusterSize (h.place x y) + h.C x + h.D

end Hierarchy

/-- `N_N_INDEX` -/
def nnIndex (i j a b c : ℕ) : ℕ := i * (a + b + c) + j

/-- `N_C_INDEX` -/
def ncIndex (i j a b c : ℕ) : ℕ := i * (a + b + c) + (a + j)

/-- `N_D_INDEX` -/
def ndIndex (i j a b c : ℕ) : ℕ := i * (a + b + c) + (a + (b - 1) + j)

/-- `C_C_INDEX` -/
def ccIndex (i j a b c : ℕ) : ℕ := (a + i) * (a + b + c) + (a + j)

/-- `C_D_INDEX` -/
def cdIndex (i j a b c : ℕ) : ℕ := (a + i) * (a + b + c) + (a + (b - 1) + j)

/-- `D_D_INDEX` -/
def ddIndex (i j a b c : ℕ) : ℕ := (a + (b - 1) + i) * (a + b + c) + (a + (b - 1) + j)

/-- The arrays by the places of the clusters. `hsize` is also the length of the cluster's arrays,
and 0 if they have not been allocated. -/
structure HierRoutes where
  hsize : ℕ → ℕ
  hadj : ℕ → ℕ → ℤ
  hroute : ℕ → ℕ → ℕ
  hconnect : ℕ → ℕ → Option HierAddress

inductive HierFault
  | overflow
  | outside
  | uninitialised
  | tclError (text : String)
  deriving DecidableEq

namespace HierRoutes

variable (h : Hierarchy) (r : HierRoutes)

/-- `INFINITY` -/
def infinity : ℤ := 0x3fff

/-- The number of cells of a new matrix is an `int`. -/
def hierAlloc (i : ℕ) : Except HierFault HierRoutes :=
  let hsize := (h.clusterSize i + h.Cmax + h.D) * (h.clusterSize i + h.Cmax + h.D)
  if hsize < 2 ^ 31 then
    .ok {
      hsize := Function.update r.hsize i hsize
      hadj := Function.update r.hadj i fun _ => infinity
      hroute := Function.update r.hroute i fun _ => 0x3fff
      hconnect := Function.update r.hconnect i fun _ => none }
  else .error .overflow

def hierCheck (i : ℕ) : Except HierFault HierRoutes :=
  if 0 < r.hsize i then .ok r else r.hierAlloc h i

/-- The length of `hconnect_[i]`. -/
def connectSize (i : ℕ) : ℕ :=
  if 0 < r.hsize i then (h.Cmax + h.D) * (h.clusterSize i + 1) else 0

def setAdj (i k : ℕ) (cost : ℤ) : Except HierFault HierRoutes :=
  if k < r.hsize i then
    .ok { r with hadj := Function.update r.hadj i (Function.update (r.hadj i) k cost) }
  else .error .outside

def setConnect (i k : ℕ) (address : HierAddress) : Except HierFault HierRoutes :=
  if k < r.connectSize h i then
    .ok { r with
      hconnect := Function.update r.hconnect i
        (Function.update (r.hconnect i) k (some address)) }
  else .error .outside

def hierInsert (src dst : HierAddress) (cost : ℤ) : Except HierFault HierRoutes :=
  if src.domain = dst.domain then
    if src.cluster = dst.cluster then do
      let i := h.place src.domain src.cluster
      let r ← r.hierCheck h i
      r.setAdj i (nnIndex src.node dst.node (h.clusterSize i) (h.C src.domain) h.D) cost
    else
      (h.clustersOf src.domain).foldlM (fun (r : HierRoutes) (y : ℕ) => do
        let i := h.place src.domain y
        let n := h.clusterSize i
        let r ← r.hierCheck h i
        let r ← r.setAdj i (ccIndex src.cluster dst.cluster n (h.C src.domain) h.D) cost
        if y = src.cluster then
          let r ← r.setAdj i (ncIndex src.node dst.cluster n (h.C src.domain) h.D) cost
          r.setConnect h i (src.node * (h.C src.domain + h.D) + dst.cluster) dst.printed
        else return r) r
  else do
    let r ← h.clusters.foldlM (fun (r : HierRoutes) (z : ℕ × ℕ) => do
      let i := h.place z.1 z.2
      let r ← r.hierCheck h i
      r.setAdj i (ddIndex src.domain dst.domain (h.clusterSize i) (h.C z.1) h.D) cost) r
    let r ← (h.clustersOf src.domain).foldlM (fun (r : HierRoutes) (y : ℕ) => do
      let i := h.place src.domain y
      let r ← r.hierCheck h i
      r.setAdj i (cdIndex src.cluster dst.domain (h.clusterSize i) (h.C src.domain) h.D) cost) r
    let i := h.place src.domain src.cluster
    let r ← r.setAdj i (ndIndex src.node dst.domain (h.clusterSize i) (h.C src.domain) h.D) cost
    r.setConnect h i (src.node * (h.C src.domain + h.D) + (h.C src.domain - 1 + dst.domain))
      dst.printed

def hierReset (src dst : HierAddress) : Except HierFault HierRoutes :=
  if src.domain = dst.domain then
    if src.cluster = dst.cluster then
      let i := h.place src.domain src.cluster
      r.setAdj i (nnIndex src.node dst.node (h.clusterSize i) (h.C src.domain) h.D) infinity
    else
      (h.clustersOf src.domain).foldlM (fun (r : HierRoutes) (y : ℕ) => do
        let i := h.place src.domain y
        let n := h.clusterSize i
        let r ← r.setAdj i (ccIndex src.cluster dst.cluster n (h.C src.domain) h.D) infinity
        if y = src.cluster then
          r.setAdj i (ncIndex src.node dst.cluster n (h.C src.domain) h.D) infinity
        else return r) r
  else
    h.clusters.foldlM (fun (r : HierRoutes) (z : ℕ × ℕ) => do
      let i := h.place z.1 z.2
      let n := h.clusterSize i
      let r ← r.setAdj i (ddIndex src.domain dst.domain n (h.C z.1) h.D) infinity
      if z.1 = src.domain then
        let r ← r.setAdj i (cdIndex src.cluster dst.domain n (h.C z.1) h.D) infinity
        if z.2 = src.cluster then
          r.setAdj i (ndIndex src.node dst.domain n (h.C z.1) h.D) infinity
        else return r
      else return r) r

/-! ## The routes -/

/-- The matrix of a cluster as `hier_compute` copies it for `hier_compute_routes`, which searches
it as `compute_routes` does. -/
def matrix (x y : ℕ) : RouteLogic Unit where
  size := h.stride x y
  adj k := ⟨r.hadj (h.place x y) k, none⟩
  route := none

/-- The next hops that a search has found. -/
def nextHop (s : RouteLogic Unit) (k : ℕ) : ℕ :=
  match s.route with
  | some route => (route k).nextHop
  | none => 0

/-- One round of the loops of `hier_compute`, with what the new array `hopcnt` holds. -/
def computeCluster (memory : ℕ → ℚ) (x y : ℕ) : Except HierFault HierRoutes :=
  let i := h.place x y
  let s := h.stride x y
  if r.hsize i < s * s then .error .outside
  else
    let routes := (r.matrix h x y).computeRoutes memory
    .ok { r with
      hroute := Function.update r.hroute i fun k =>
        if k < s * s then nextHop routes k else r.hroute i k }

def hierCompute (memory : ℕ → ℕ → ℚ) : Except HierFault HierRoutes :=
  h.clusters.foldlM (fun (r : HierRoutes) (z : ℕ × ℕ) =>
    r.computeCluster h (memory (h.place z.1 z.2)) z.1 z.2) r

/-- An entry of `hconnect_`. -/
def connected (i k : ℕ) : Except HierFault HierAddress :=
  if k < r.connectSize h i then
    match r.hconnect i k with
    | some address => .ok address
    | none => .error .uninitialised
  else .error .outside

def getAddress (next i d size : ℕ) (src : HierAddress) : Except HierFault HierAddress :=
  if next ≤ size then .ok ⟨src.domain - 1, src.cluster - 1, next - 1⟩
  else if next < size + h.C d then
    let temp := next - size
    r.connected h i (src.node * (h.C d + h.D) + temp)
  else
    let temp := next - size - (h.C d - 1)
    r.connected h i (src.node * (h.C d + h.D) + (h.C d - 1 + temp))

/-- An entry of `hroute_`. -/
def routed (i k : ℕ) : Except HierFault ℕ :=
  if k < r.hsize i then .ok (r.hroute i k) else .error .outside

/-- `lookup_hier`, without an address for -1. -/
def lookupHier (src dst : HierAddress) : Except HierFault (Option HierAddress) :=
  if src.domain = 0 ∨ src.cluster = 0 ∨ src.node = 0 then
    .error (.tclError "negative src node number")
  else if dst.domain = 0 then .error (.tclError "negative dst domain number")
  else
    let d := src.domain
    let i := h.place src.domain src.cluster
    let size := h.clusterSize i
    if r.hsize i = 0 then .error (.tclError "Routes not computed")
    else if ¬ (src.domain < h.D ∨ dst.domain < h.D) then .error (.tclError "node out of range")
    else do
      let next ← r.routed i <|
        if dst.cluster = 0 ∧ dst.node = 0 ∨ src.domain ≠ dst.domain then
          ndIndex src.node dst.domain size (h.C d) h.D
        else if dst.node = 0 ∨ src.cluster ≠ dst.cluster then
          ncIndex src.node dst.cluster size (h.C d) h.D
        else nnIndex src.node dst.node size (h.C d) h.D
      if 0 < next then
        let address ← r.getAddress h next i d size src
        return some address
      else return none

end HierRoutes

end Ns2XPass
