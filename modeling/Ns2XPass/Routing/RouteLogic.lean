import Mathlib.Data.Rat.Defs
import Mathlib.Algebra.Order.Ring.Rat
import Mathlib.Data.List.ProdSigma
import Mathlib.Logic.Function.Basic

/-! # Static routes

The costs of the links are kept in a square matrix that grows with the numbers of
the nodes, which start at 1. For every node the routes are computed by searching
the nearest node that has no route yet, over and over. Node 0 stands for none.
-/

namespace Ns2XPass

structure AdjEntry (ε : Type) where
  cost : ℚ
  entry : Option ε

/-- `next_hop` 0 is no route. -/
structure RouteEntry (ε : Type) where
  nextHop : ℕ := 0
  entry : Option ε := none

structure RouteLogic (ε : Type) where
  size : ℕ
  adj : ℕ → AdjEntry ε
  route : Option (ℕ → RouteEntry ε)

/-- What `compute_routes` works on: its arrays `parent` and `hopcnt`, and the routes. -/
structure RouteSearch (ε : Type) where
  parent : ℕ → ℕ
  hopcnt : ℕ → ℚ
  route : ℕ → RouteEntry ε

namespace RouteLogic

variable {ε : Type} (r : RouteLogic ε)

/-- `INFINITY`. -/
def infinity : ℚ := 0x3fff

/-- `INDEX`, the place of a row and a column in a matrix. -/
def index (i j size : ℕ) : ℕ := size * i + j

def empty (ε : Type) : RouteLogic ε := ⟨0, fun _ => ⟨infinity, none⟩, none⟩

/-! ## The matrix of the links -/

def alloc (n : ℕ) : RouteLogic ε := { r with size := n, adj := fun _ => ⟨infinity, none⟩ }

/-- The loop that doubles the size until a number fits. A bound on its steps comes first. -/
def widen (n : ℕ) : ℕ → ℕ → ℕ
  | 0, m => m
  | fuel + 1, m => if m ≤ n then widen n fuel (2 * m) else m

def setCost (i : ℕ) (cost : ℚ) : RouteLogic ε :=
  { r with adj := Function.update r.adj i ⟨cost, (r.adj i).entry⟩ }

/-- The cost at one place of the old matrix goes to its place in the new one. -/
def copyCost (new : RouteLogic ε) (p : ℕ × ℕ) : RouteLogic ε :=
  new.setCost (index p.1 p.2 new.size) (r.adj (index p.1 p.2 r.size)).cost

def check (n : ℕ) : RouteLogic ε :=
  if n < r.size then r
  else
    let m := widen n (n + 1) (if r.size = 0 then 16 else r.size)
    (List.range r.size ×ˢ List.range r.size).foldl r.copyCost (r.alloc m)

/-- `insert` without an entry. -/
def insert (src dst : ℕ) (cost : ℚ) : RouteLogic ε :=
  let r := (r.check src).check dst
  r.setCost (index src dst r.size) cost

/-- `insert` with an entry. -/
def insertEntry (src dst : ℕ) (cost : ℚ) (entry : Option ε) : RouteLogic ε :=
  let r := (r.check src).check dst
  { r with adj := Function.update r.adj (index src dst r.size) ⟨cost, entry⟩ }

/-- `reset`, which asserts that both nodes are there. -/
def reset (src dst : ℕ) : Option (RouteLogic ε) :=
  if src < r.size ∧ dst < r.size then some (r.setCost (index src dst r.size) infinity) else none

/-! ## The routes -/

/-- `ADJ`. -/
def cost (i j : ℕ) : ℚ := (r.adj (index i j r.size)).cost

/-- The nodes from 1 on. -/
def nodes : List ℕ := List.range' 1 (r.size - 1)

/-- The route of a neighbour of `k` is the link to it. -/
def setNeighbour (k : ℕ) (s : RouteSearch ε) (v : ℕ) : RouteSearch ε :=
  if s.parent v ≠ k then
    let hopcnt := Function.update s.hopcnt v (r.cost k v)
    if hopcnt v ≠ infinity then
      { s with
        hopcnt
        route := Function.update s.route (index k v r.size)
          ⟨v, (r.adj (index k v r.size)).entry⟩ }
    else { s with hopcnt }
  else s

/-- The nearest node without a route, or 0 if there is none. -/
def nearest (k : ℕ) (s : RouteSearch ε) : ℕ :=
  r.nodes.foldl (fun o w => if s.parent w ≠ k ∧ s.hopcnt w < s.hopcnt o then w else o) 0

/-- The way over `o` to a node, if it is shorter. -/
def relax (k o : ℕ) (s : RouteSearch ε) (w : ℕ) : RouteSearch ε :=
  if s.parent w ≠ k ∧ s.hopcnt o + r.cost o w < s.hopcnt w then
    { s with
      route := Function.update s.route (index k w r.size) (s.route (index k o r.size))
      hopcnt := Function.update s.hopcnt w (s.hopcnt o + r.cost o w) }
  else s

def visit (k : ℕ) (s : RouteSearch ε) : RouteSearch ε :=
  let s := { s with hopcnt := Function.update s.hopcnt 0 infinity }
  let o := r.nearest k s
  let s := { s with parent := Function.update s.parent o k }
  if o = 0 then s else r.nodes.foldl (r.relax k o) s

/-- The routes of one source. The hop counts of the source before are still there. -/
def fromSource (s : RouteSearch ε) (k : ℕ) : RouteSearch ε :=
  let s := { s with parent := id }
  let s := r.nodes.foldl (r.setNeighbour k) s
  r.nodes.foldl (fun s _ => r.visit k s) s

/-- `compute_routes`, where `memory` is what the new array `hopcnt` holds. -/
def computeRoutes (memory : ℕ → ℚ) : RouteLogic ε :=
  let s := r.nodes.foldl r.fromSource ⟨id, memory, fun _ => {}⟩
  { r with route := some (r.nodes.foldl
      (fun route k => Function.update route (index k k r.size) ⟨k, none⟩) s.route) }

/-- `lookup_flat` by two node numbers, which start at 0. -/
def lookupFlat (sid did : ℕ) : ℤ :=
  let src := sid + 1
  let dst := did + 1
  match r.route with
  | none => -1
  | some route =>
    if r.size ≤ src ∨ r.size ≤ dst then -2 else (route (index src dst r.size)).nextHop - 1

/-- The nodes that a packet for `did` visits, when every node asks its own table. -/
def forward (r : RouteLogic ε) (did : ℕ) : ℕ → ℕ → Option (List ℕ)
  | 0, _ => none
  | fuel + 1, sid =>
    if sid = did then some [did]
    else if 0 ≤ r.lookupFlat sid did then
      (forward r did fuel (r.lookupFlat sid did).toNat).map (sid :: ·)
    else none

end RouteLogic

end Ns2XPass
