import Mathlib.Algebra.Order.Ring.Unbundled.Rat
import Mathlib.Data.List.Basic
import Mathlib.Logic.Function.Basic
import Ns2XPass.Library.Machine

/-! # The distance vector protocol

`Agent/rtProto/DV` stores the metrics of its peers, and computes the next hops
of every destination from them. `rtObject` chooses between the protocols of a
node, and installs the routes.
-/

namespace Ns2XPass

/-- `unreach_` and `maxpref_` of `rtObject`. -/
def rtUnreach : ℚ := -1
def rtMaxpref : ℤ := 255

/-- What a protocol knows about a destination. -/
structure RtEntry (I : Type) where
  rtpref : ℤ
  metric : ℚ
  nextHop : List I

structure DvRoute (N I : Type) extends RtEntry I where
  nextHopPeer : List N

/-- The members that do not change. The names of an array come in any order. -/
structure DvConfig (N I : Type) where
  infinity : ℚ
  preference : ℤ
  multiPath : Bool
  nodes : List N
  peers : List N
  ifs : N → I
  addr : N → ℕ
  cost : I → ℚ
  arrayNames : List (I × N) → List (I × N)

/-- The metrics and preferences of the peers are named by the peer and the destination. -/
structure Dv (N I : Type) where
  peerMetric : N → N → ℚ
  peerPref : N → N → ℤ
  ifstat : N → Bool
  ifsUp : List N
  route : N → DvRoute N I
  rtsChanged : ℕ

inductive DvError
  | unknownPeer
  | largeUpdate

/-- The best metric of a scan, and the array `nh` of interfaces and peers. -/
structure DvScan (N I : Type) where
  pf : ℤ
  mt : ℚ
  nh : List (I × N)

variable {N I : Type} [DecidableEq N] [DecidableEq I] (cfg : DvConfig N I)

namespace Dv

/-- An agent that has been set up. -/
def new (ifstat : N → Bool) : Dv N I where
  peerMetric _ _ := cfg.infinity
  peerPref _ _ := cfg.preference
  ifstat := ifstat
  ifsUp := []
  route _ :=
    { rtpref := cfg.preference, metric := rtUnreach, nextHop := [], nextHopPeer := [] }
  rtsChanged := 0

variable (d : Dv N I)

/-- Set one element of the array `nh`. -/
def setNh (nh : List (I × N)) (i : I) (p : N) : List (I × N) :=
  if nh.any (·.1 = i) then nh.map fun e => if e.1 = i then (i, p) else e else nh ++ [(i, p)]

/-- What the scan makes of the next peer. The first metric that is valid unsets what `nh` still
holds of another destination. -/
def scanPeer (dst : N) (s : DvScan N I) (nbr : N) : DvScan N I :=
  let pmt := d.peerMetric nbr dst
  let ppf := d.peerPref nbr dst
  if pmt < 0 ∨ cfg.infinity ≤ pmt ∨ s.pf < ppf ∨ s.mt < pmt then s
  else
    let s := if ppf < s.pf ∨ pmt < s.mt then { pf := ppf, mt := pmt, nh := [] } else s
    { s with nh := setNh s.nh (cfg.ifs nbr) nbr }

def scan (dst : N) : DvScan N I :=
  cfg.peers.foldl (d.scanPeer cfg dst) { pf := rtMaxpref, mt := cfg.infinity, nh := [] }

/-- The metric is that of the first next hop. -/
def refresh (dst : N) (r : DvRoute N I) : DvRoute N I :=
  match r.nextHopPeer.head? with
  | none => r
  | some p => { r with metric := d.peerMetric p dst, rtpref := d.peerPref p dst }

/-- The next hops that are still in `nh`, and what is left of it. -/
def keep : List I → List (I × N) → List (I × N) × List (I × N)
  | [], nh => ([], nh)
  | rt :: rts, nh =>
    match nh.find? (·.1 = rt) with
    | none => keep rts nh
    | some e =>
      let r := keep rts (nh.filter (·.1 ≠ rt))
      (e :: r.1, r.2)

/-- All elements of `nh`, or only the first one. -/
def chosen (nh : List (I × N)) : List (I × N) :=
  if cfg.multiPath then cfg.arrayNames nh else (cfg.arrayNames nh).take 1

def withHops (pf : ℤ) (mt : ℚ) (hops : List (I × N)) : DvRoute N I :=
  { rtpref := pf, metric := mt, nextHop := hops.map Prod.fst, nextHopPeer := hops.map Prod.snd }

/-- The body of the loop of `compute-routes`, which also tells whether the route has changed. -/
def computeRoute (dst : N) (r : DvRoute N I) : DvRoute N I × Bool :=
  let r := d.refresh dst r
  let s := d.scan cfg dst
  if s.pf = rtMaxpref ∧ s.mt = cfg.infinity then (r, false)
  else if r.rtpref < s.pf ∨ (0 ≤ r.metric ∧ r.metric < s.mt) then (r, false)
  else
    let mt := if cfg.infinity ≤ s.mt then rtUnreach else s.mt
    if s.pf < r.rtpref ∨ mt < r.metric then (withHops s.pf mt (chosen cfg s.nh), true)
    else
      let (kept, nh) := keep r.nextHop s.nh
      let hops := if cfg.multiPath || kept.isEmpty then kept ++ chosen cfg nh else kept
      (withHops s.pf mt hops, true)

def computeStep (d : Dv N I) (dst : N) : Dv N I :=
  let r := d.computeRoute cfg dst (d.route dst)
  { d with
    route := Function.update d.route dst r.1
    rtsChanged := d.rtsChanged + if r.2 then 1 else 0 }

def computeRoutes : Dv N I := cfg.nodes.foldl (computeStep cfg) { d with rtsChanged := 0 }

def setMetric (nbr dst : N) (metric : ℚ) : Dv N I :=
  { d with peerMetric :=
      Function.update d.peerMetric nbr (Function.update (d.peerMetric nbr) dst metric) }

/-- The loop of `recv-update`, which counts the metrics that change. -/
def readMetric (nbr : N) (p : Dv N I × ℕ) (entry : N × ℚ) : Dv N I × ℕ :=
  let metric := min (entry.2 + cfg.cost (cfg.ifs nbr)) cfg.infinity
  if metric = p.1.peerMetric nbr entry.1 then p
  else (p.1.setMetric nbr entry.1 metric, p.2 + 1)

def recvUpdate (peerAddr : ℕ) (metrics : List (N × ℚ)) : Except DvError (Dv N I) :=
  match cfg.peers.find? (cfg.addr · = peerAddr) with
  | none => .error .unknownPeer
  | some nbr =>
    if cfg.nodes.length < metrics.length then .error .largeUpdate
    else
      let (d, metricsChanged) := metrics.foldl (readMetric cfg nbr) (d, 0)
      if 0 < metricsChanged then
        let d := d.computeRoutes cfg
        .ok { d with rtsChanged := d.rtsChanged + metricsChanged }
      else .ok d

/-- The loop of `intf-changed`. -/
def readInterface (up : N → Bool) (d : Dv N I) (nbr : N) : Dv N I :=
  if up nbr = d.ifstat nbr then d
  else
    let d := { d with ifstat := Function.update d.ifstat nbr (up nbr) }
    if up nbr then { d with ifsUp := d.ifsUp ++ [nbr] }
    else cfg.nodes.foldl (fun d dst => d.setMetric nbr dst cfg.infinity) d

/-- `intf-changed` of `rtObject`, as far as this protocol goes. -/
def intfChanged (up : N → Bool) : Dv N I :=
  (cfg.peers.foldl (readInterface cfg up) { d with ifsUp := [] }).computeRoutes cfg

end Dv

inductive DvEvent (N : Type)
  | recvUpdate (peerAddr : ℕ) (metrics : List (N × ℚ))
  | intfChanged (up : N → Bool)

/-- An update names nodes only. -/
def dvMachine : Machine (Dv N I) (DvEvent N) DvError where
  Init d := ∃ ifstat, d = .new cfg ifstat
  Enabled _
    | .recvUpdate _ metrics => ∀ entry ∈ metrics, entry.1 ∈ cfg.nodes
    | .intfChanged _ => True
  step d
    | .recvUpdate peerAddr metrics => d.recvUpdate cfg peerAddr metrics
    | .intfChanged up => .ok (d.intfChanged cfg up)

/-! ### The routes of a node -/

inductive RtProtoName
  | direct | dv
  deriving DecidableEq

/-- A route of `rtObject`, with the protocol that it comes from. -/
structure RtRoute (I : Type) extends RtEntry I where
  rtVia : Option RtProtoName

inductive NodeCall (N I : Type)
  | addRoutes (dst : N) (ifs : List I)
  | deleteRoutes (dst : N) (ifs : List I)

namespace RtRoute

variable (tables : RtProtoName → N → RtEntry I)

/-- The best route of all protocols, which come in the order of `array names`. -/
def best (protos : List RtProtoName) (dst : N) : RtRoute I :=
  protos.foldl (fun b p =>
    let e := tables p dst
    if e.nextHop = [] then b
    else if e.rtpref < b.rtpref ∨ (e.rtpref = b.rtpref ∧ e.metric < b.metric) ∨ b.metric < 0 then
      { e with rtVia := some p }
    else b) { rtpref := rtMaxpref, metric := rtUnreach, nextHop := [], rtVia := none }

/-- The body of the loop of `compute-routes`, with the calls of the node. -/
def compute (protos : List RtProtoName) (dst : N) (r : RtRoute I) :
    RtRoute I × List (NodeCall N I) :=
  let b := best tables protos dst
  if b.nextHop = [] then
    if r.nextHop ≠ [] then (b, [.deleteRoutes dst r.nextHop]) else (r, [])
  else if b.rtVia = r.rtVia then
    ({ b with rtVia := r.rtVia },
      if b.nextHop ≠ r.nextHop then [.deleteRoutes dst r.nextHop, .addRoutes dst b.nextHop] else [])
  else
    let r := match r.rtVia with
      | none => r
      | some p => { tables p dst with rtVia := some p }
    if r.rtpref ≠ b.rtpref ∨ r.metric ≠ b.metric then
      (b, [.deleteRoutes dst r.nextHop, .addRoutes dst b.nextHop])
    else (r, [])

end RtRoute

/-- `compute-routes` of `rtObject`, which does nothing if no protocol has changed. -/
def rtComputeRoutes (tables : RtProtoName → N → RtEntry I) (protos : List RtProtoName) (node : N)
    (changed : Bool) (nodes : List N) (route : N → RtRoute I) :
    (N → RtRoute I) × List (NodeCall N I) :=
  if changed then
    nodes.foldl (fun p dst =>
      if dst = node then p
      else
        let r := RtRoute.compute tables protos dst (p.1 dst)
        (Function.update p.1 dst r.1, p.2 ++ r.2)) (route, [])
  else (route, [])

end Ns2XPass
