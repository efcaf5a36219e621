import Mathlib.Algebra.Order.Ring.Int
import Mathlib.Data.List.Basic
import Ns2XPass.Common.Numeric

/-! # The routes of the link-state protocol

The paths under way are kept in a map from destinations to a cost and a list of
next hops. The shortest path is taken from it one next hop at a time, becomes a
path of the result, and its node offers its links to the map again.
-/

namespace Ns2XPass

/-- Maps by node numbers, in the order of the numbers. -/
abbrev LsMap (α : Type) := Std.TreeMap ℤ α

inductive LsStatus
  | down | up
  deriving DecidableEq, Repr

structure LsLinkState where
  neighborId : ℤ
  status : LsStatus
  cost : ℤ
  deriving DecidableEq, Repr

/-- The link-state database: the links of each node that has a record. -/
abbrev LsTopoMap := LsMap (List LsLinkState)

/-- `LS_INVALID_NODE_ID`. -/
def lsInvalidNodeId : ℤ := 65535

/-- `LS_INVALID_COST`. -/
def lsInvalidCost : ℤ := 65535

/-- `LS_MAX_COST`. -/
def lsMaxCost : ℤ := 65534

structure LsPath where
  destination : ℤ := lsInvalidNodeId
  cost : ℤ := 0
  nextHop : ℤ := 0
  deriving DecidableEq, Repr

def LsPath.isValid (p : LsPath) : Bool :=
  p.destination ≠ lsInvalidNodeId && p.cost ≠ lsInvalidCost && p.nextHop ≠ lsInvalidCost

structure LsEqualPaths where
  cost : ℤ
  nextHopList : List ℤ
  deriving DecidableEq, Repr

abbrev LsPaths := LsMap LsEqualPaths

/-- What ends in `ls_error`, or has not ended yet. -/
inductive LsError
  | noNextHops | popFailed | running
  deriving DecidableEq, Repr

/-- `LsNodeIdList::appendUnique`. -/
def appendUnique (l x : List ℤ) : List ℤ := x.foldl (fun l n => if n ∈ l then l else l ++ [n]) l

namespace LsPaths

variable (paths : LsPaths)

def lookupCost (destId : ℤ) : ℤ :=
  match paths[destId]? with
  | none => lsMaxCost + 1
  | some ep => ep.cost

def insertPath (destId cost nextHop : ℤ) : LsPaths :=
  match paths[destId]? with
  | none => paths.insert destId ⟨cost, [nextHop]⟩
  | some ep =>
    if ep.cost < cost then paths
    else if cost < ep.cost then paths.insert destId ⟨cost, [nextHop]⟩
    else if nextHop ∈ ep.nextHopList then paths
    else paths.insert destId ⟨ep.cost, ep.nextHopList ++ [nextHop]⟩

def insertNextHopList (destId cost : ℤ) (nextHopList : List ℤ) : LsPaths :=
  match paths[destId]? with
  | none => paths.insert destId ⟨cost, nextHopList⟩
  | some ep =>
    if ep.cost < cost then paths
    else if cost < ep.cost then paths.insert destId ⟨cost, nextHopList⟩
    else paths.insert destId ⟨ep.cost, appendUnique ep.nextHopList nextHopList⟩

/-- One iteration of `findMinEqualPaths`, with `minCost` and `minCostIterator`. -/
def findMin (best : ℤ × Option (ℤ × LsEqualPaths)) (dest : ℤ) (ep : LsEqualPaths) :
    ℤ × Option (ℤ × LsEqualPaths) :=
  if ep.cost < best.1 ∧ ep.nextHopList ≠ [] then (ep.cost, some (dest, ep)) else best

def findMinEqualPaths : Option (ℤ × LsEqualPaths) :=
  (paths.foldl findMin (lsMaxCost + 1, none)).2

/-- The first next hop of the entry of least cost. The path is invalid if there is no entry. -/
def popShortestPath : LsPath × LsPaths :=
  match paths.findMinEqualPaths with
  | none => ({}, paths)
  | some (dest, ep) =>
    match ep.nextHopList with
    | [] => ({}, paths)
    | nextHop :: rest =>
      (⟨dest, ep.cost, nextHop⟩,
        if rest = [] then paths.erase dest else paths.insert dest ⟨ep.cost, rest⟩)

end LsPaths

namespace LsRouting

/-- One link of a new node is offered to the paths under way. -/
def expandLink (myNodeId : ℤ) (paths : LsPaths) (newNodeId : ℤ) (nhl : List ℤ)
    (tentative : LsPaths) (link : LsLinkState) : LsPaths :=
  if link.status ≠ .up then tentative
  else
    let pathCost := wrap32 (link.cost + paths.lookupCost newNodeId)
    if paths.lookupCost link.neighborId < pathCost then tentative
    else tentative.insertNextHopList link.neighborId pathCost
      (if newNodeId = myNodeId then [link.neighborId] else nhl)

/-- The links of a new node are offered, with the next hops to it. -/
def expand (myNodeId : ℤ) (paths : LsPaths) (newNodeId : ℤ) (links : List LsLinkState)
    (tentative : LsPaths) : Except LsError LsPaths :=
  if newNodeId = myNodeId then
    .ok (links.foldl (expandLink myNodeId paths newNodeId []) tentative)
  else
    match paths[newNodeId]? with
    | none => .error .noNextHops
    | some ep =>
      .ok (links.foldl (expandLink myNodeId paths newNodeId ep.nextHopList) tentative)

/-- The inner loop: paths are popped and installed until one leads to a node with a record. -/
def popUntilRecord (db : LsTopoMap) : ℕ → LsPaths → LsPaths →
    Except LsError (Option (ℤ × List LsLinkState) × LsPaths × LsPaths)
  | 0, _, _ => .error .running
  | fuel + 1, paths, tentative =>
    if tentative.isEmpty then .ok (none, paths, tentative)
    else
      let (sp, tentative) := tentative.popShortestPath
      if !sp.isValid then .error .popFailed
      else
        let paths := paths.insertPath sp.destination sp.cost sp.nextHop
        match db[sp.destination]? with
        | some links => .ok (some (sp.destination, links), paths, tentative)
        | none => popUntilRecord db fuel paths tentative

/-- The outer loop, from a node that has just been put in the paths. -/
def computeFrom (db : LsTopoMap) (myNodeId : ℤ) : ℕ → LsPaths → LsPaths → ℤ →
    List LsLinkState → Except LsError LsPaths
  | 0, _, _, _, _ => .error .running
  | fuel + 1, paths, tentative, newNodeId, links => do
    let tentative ← expand myNodeId paths newNodeId links tentative
    let (next, paths, tentative) ← popUntilRecord db (fuel + 1) paths tentative
    match next with
    | none => return paths
    | some (newNodeId, links) => computeFrom db myNodeId fuel paths tentative newNodeId links

/-- `LsRouting::_computeRoutes`, with a bound on the iterations of its loops. -/
def computeRoutes (db : LsTopoMap) (myNodeId : ℤ) (fuel : ℕ) : Except LsError LsPaths :=
  let paths : LsPaths := (∅ : LsPaths).insert myNodeId ⟨0, [myNodeId]⟩
  match db[myNodeId]? with
  | none => .ok paths
  | some links => computeFrom db myNodeId fuel paths ∅ myNodeId links

end LsRouting

end Ns2XPass
