import Mathlib.Algebra.Ring.Int.Defs
import Mathlib.Data.List.Basic
import Mathlib.Logic.Function.Basic
import Ns2XPass.Dccp.Options

/-! # Feature negotiation of DCCP

The features under negotiation are kept in four arrays, one entry each. The next
packet announces them by Change options, and a Confirm option from the peer ends
a negotiation. Features are named by their number and by the end they belong to.
-/

namespace Ns2XPass

inductive DccpPacketType
  | request | response | data | ack | dataAck | closeReq | close | reset
  deriving DecidableEq, Repr

inductive FeatureLocation
  | locLocal | locRemote
  deriving DecidableEq, Repr

/-- The feature variables of an agent. -/
structure FeatureValues where
  ccid : ℤ := 254
  useEcnLocal : ℤ := 1
  useEcnRemote : ℤ := 1
  ackRatioLocal : ℤ := 2
  ackRatioRemote : ℤ := 2
  useAckvLocal : ℤ := 0
  useAckvRemote : ℤ := 0
  qScheme : ℤ := 0
  qLocal : ℤ := 0
  qRemote : ℤ := 0

inductive FeatureError
  | unknown | notPrefered | errSize | errTest
  deriving DecidableEq, Repr

inductive FeatureType
  | sp | nn | unknown
  deriving DecidableEq

inductive FeatureOptionType
  | changeL | confirmL | changeR | confirmR
  deriving DecidableEq, Repr

structure FeatureOption where
  type : FeatureOptionType
  num : UInt8
  data : List UInt8
  deriving DecidableEq, Repr

abbrev Feature := UInt8 × FeatureLocation

namespace FeatureValues

variable (v : FeatureValues)

/-- The two ends agree on a feature that is used or not. -/
def agrees (use : ℤ) (data : UInt8) : Bool :=
  use ≠ 0 && data ≠ 0 || !(use ≠ 0 || data ≠ 0)

/-- A number of 16 bits from the two bytes that hold it, the low one first. -/
def ofBytes (lo hi : UInt8) : ℤ := lo.toNat + 256 * hi.toNat

def toBytes (n : ℤ) : List UInt8 := [UInt8.ofInt n, UInt8.ofInt (n / 256)]

def getFeature (num : UInt8) (loc : FeatureLocation) (maxSize : ℕ) :
    Except FeatureError (List UInt8) :=
  let one (n : ℤ) : Except FeatureError (List UInt8) :=
    if 0 < maxSize then .ok [UInt8.ofInt n] else .error .errSize
  match num, loc with
  | 1, _ => one v.ccid
  | 2, .locLocal => one v.useEcnLocal
  | 2, .locRemote => one v.useEcnRemote
  | 3, .locLocal => if 1 < maxSize then .ok (toBytes v.ackRatioLocal) else .error .errSize
  | 3, .locRemote => if 1 < maxSize then .ok (toBytes v.ackRatioRemote) else .error .errSize
  | 4, .locLocal => one v.useAckvLocal
  | 4, .locRemote => one v.useAckvRemote
  | 126, _ => one v.qScheme
  | 127, .locLocal => one v.qLocal
  | 127, .locRemote => one v.qRemote
  | _, _ => .error .unknown

def setFeature (num : UInt8) (loc : FeatureLocation) (data : List UInt8) (testSet : Bool) :
    Except FeatureError FeatureValues :=
  let prefered (b : Bool) : Except FeatureError FeatureValues :=
    if b then .ok v else .error .notPrefered
  let flag (d : UInt8) : ℤ := if 0 < d then 1 else 0
  match num, loc, data with
  | 1, _, [d] => prefered (v.ccid = d.toNat)
  | 2, .locLocal, [d] => prefered (agrees v.useEcnLocal d)
  | 2, .locRemote, [d] => prefered (agrees v.useEcnRemote d)
  | 3, .locLocal, [lo, hi] =>
    if testSet then if v.ackRatioLocal ≠ ofBytes lo hi then .error .errTest else .ok v
    else .ok { v with ackRatioLocal := ofBytes lo hi }
  | 3, .locRemote, [lo, hi] =>
    if testSet then if v.ackRatioRemote ≠ ofBytes lo hi then .error .errTest else .ok v
    else .ok { v with ackRatioRemote := ofBytes lo hi }
  | 4, .locLocal, [d] => prefered (agrees v.useAckvLocal d)
  -- At this end the values are compared as numbers.
  | 4, .locRemote, [d] =>
    prefered (v.useAckvRemote = d.toNat || !(v.useAckvRemote ≠ 0 || d ≠ 0))
  | 126, _, [d] => prefered (v.qScheme = d.toNat)
  -- The test is not made for this feature.
  | 127, .locLocal, [d] => .ok { v with qLocal := flag d }
  | 127, .locRemote, [d] => .ok { v with qRemote := flag d }
  | 1, _, _ | 2, _, _ | 3, _, _ | 4, _, _ | 126, _, _ | 127, _, _ => .error .errSize
  | _, _, _ => .error .unknown

def getFeatureType (num : UInt8) : FeatureType :=
  match num with
  | 1 | 2 | 4 | 126 => .sp
  | 3 | 127 => .nn
  | _ => .unknown

end FeatureValues

/-- The arrays `feat_list_num_`, `feat_list_loc_`, `feat_list_seq_num_` and `feat_list_first_`, and
the number of their entries in use. -/
structure FeatureList where
  num : ℕ → UInt8
  loc : ℕ → FeatureLocation
  seqNum : ℕ → ℕ
  first : ℕ → Bool
  used : ℕ

/-- What else of an agent takes part in the negotiations. -/
structure FeatureContext where
  allowMultNeg : ℤ := 0
  /-- `state_` is `DCCP_STATE_OPEN`. -/
  isOpen : Bool := false
  packetRecv : Bool := false
  seqNum : ℕ := 0
  ackNumRecv : ℕ := 0
  seqLastFeatNeg : ℕ := 0
  featFirstInPkt : Bool := true
  values : FeatureValues := {}
  /-- The features to confirm, in the order of the arrays `feat_conf_num_` and `feat_conf_loc_`. -/
  confirms : List Feature := []

structure FeatureAgent where
  featSize : ℕ := 24
  list : FeatureList
  ctx : FeatureContext

/-- The fields of a packet that carries options. -/
structure DccpHeader where
  type : DccpPacketType
  seqNum : ℕ
  ackNum : ℕ
  deriving DecidableEq, Repr

namespace FeatureList

variable (l : FeatureList) (num : UInt8) (loc : FeatureLocation) (i : ℕ)

def key (l : FeatureList) (i : ℕ) : Feature := (l.num i, l.loc i)

/-- `findFeatureInList`, which returns -1 when there is no such entry. -/
def findFeatureInList : Option ℕ := (List.range l.used).find? fun i => l.key i = (num, loc)

def featureIsChanging : Bool := (List.range l.used).any fun i => l.key i = (num, loc)

/-- One iteration of the loop that moves the rest of the list one step up. -/
def moveUp : FeatureList :=
  { l with
    num := Function.update l.num i (l.num (i + 1))
    loc := Function.update l.loc i (l.loc (i + 1)) }

def finishFeatureNegotiation : Bool × FeatureList :=
  match l.findFeatureInList num loc with
  | none => (false, l)
  | some walker =>
    let l := (List.range' walker (l.used - 1 - walker)).foldl moveUp l
    (true, { l with used := l.used - 1 })

end FeatureList

namespace FeatureAgent

variable (a : FeatureAgent) (num : UInt8) (loc : FeatureLocation)

/-- `changeFeature`. The number of entries is an integer of 8 bits. -/
def changeFeature : Bool × FeatureAgent :=
  let l := a.list
  let add : Bool × FeatureAgent :=
    (true, { a with list := {
      num := Function.update l.num l.used num
      loc := Function.update l.loc l.used loc
      seqNum := Function.update l.seqNum l.used 0
      first := Function.update l.first l.used true
      used := (l.used + 1) % 256 } })
  if 0 < a.ctx.allowMultNeg then
    match l.findFeatureInList num loc with
    | some pos =>
      (true, { a with list := { l with
        seqNum := Function.update l.seqNum pos a.ctx.seqNum
        first := Function.update l.first pos true } })
    | none => if l.used = a.featSize then (false, a) else add
  else if l.used = a.featSize ∨ l.featureIsChanging num loc then (false, a)
  else add

/-- The Change option for one entry, if it is due. -/
def changeOption (ctx : FeatureContext) (l : FeatureList) (i : ℕ) : Option FeatureOption :=
  if !ctx.packetRecv || l.first i || l.seqNum i ≤ ctx.ackNumRecv then
    match ctx.values.getFeature (l.num i) (l.loc i) optMaxLength with
    | .ok data => some ⟨if l.loc i = .locLocal then .changeL else .changeR, l.num i, data⟩
    | .error _ => none
  else none

/-- One iteration of the first loop of `addFeatureOptions`. -/
def announce (ctx : FeatureContext) (r : List FeatureOption × FeatureList) (i : ℕ) :
    List FeatureOption × FeatureList :=
  match changeOption ctx r.2 i with
  | none => r
  | some o =>
    (r.1 ++ [o], { r.2 with
      seqNum := Function.update r.2.seqNum i ctx.seqNum
      first := Function.update r.2.first i false })

/-- The Confirm option for a feature. -/
def confirmOption (ctx : FeatureContext) (f : Feature) : Option FeatureOption :=
  match ctx.values.getFeature f.1 f.2 optMaxLength with
  | .ok data => some ⟨if f.2 = .locLocal then .confirmL else .confirmR, f.1, data⟩
  | .error _ => none

/-- `addFeatureOptions`, with the options that it adds to the next packet. -/
def addFeatureOptions : List FeatureOption × FeatureAgent :=
  let r := (List.range a.list.used).foldl (announce a.ctx) ([], a.list)
  (r.1 ++ a.ctx.confirms.filterMap (confirmOption a.ctx),
    { a with list := r.2, ctx := { a.ctx with confirms := [] } })

/-- What becomes of a Confirm option. -/
inductive ConfirmOutcome
  | ignored
  | accepted
  | reset (e : FeatureError)
  deriving DecidableEq, Repr

/-- The branch of `processOption` for Confirm options. -/
def confirm (data : List UInt8) (pkt : DccpHeader) : ConfirmOutcome × FeatureAgent :=
  match data with
  | num :: d :: ds =>
    match a.list.findFeatureInList num loc with
    | none => (.ignored, a)
    | some pos =>
      if 0 < a.ctx.allowMultNeg ∧
          (pkt.type = .ack ∨ pkt.type = .dataAck ∨ pkt.type = .response) ∧
          pkt.ackNum < a.list.seqNum pos then
        (.ignored, a)
      else if a.ctx.values.setFeature num loc (d :: ds) true matches .error .errTest then
        (.ignored, a)
      else
        match a.ctx.values.setFeature num loc (d :: ds) false with
        | .error e => (.reset e, a)
        | .ok values =>
          (.accepted, { a with
            list := (a.list.finishFeatureNegotiation num loc).2
            ctx := { a.ctx with values := values } })
  | _ => (.reset .errSize, a)

/-- `processOption` for a Confirm option. A ConfirmR option is about a local feature. -/
def processOption (right : Bool) (data : List UInt8) (pkt : DccpHeader) :
    ConfirmOutcome × FeatureAgent :=
  let barred : FeatureType := if right then .nn else .sp
  if a.ctx.isOpen ∧ data.head?.map FeatureValues.getFeatureType = some barred then (.ignored, a)
  else if a.ctx.packetRecv ∧ a.ctx.featFirstInPkt ∧ pkt.seqNum ≤ a.ctx.seqLastFeatNeg then
    (.ignored, a)
  else
    { a with ctx := { a.ctx with seqLastFeatNeg := pkt.seqNum, featFirstInPkt := false } }.confirm
      (if right then .locLocal else .locRemote) data pkt

end FeatureAgent

end Ns2XPass
