import Mathlib.Algebra.Order.Ring.Rat
import Mathlib.Data.List.Range
import Mathlib.Logic.Function.Basic
import Ns2XPass.Common.Numeric
import Ns2XPass.Common.Packet
import Ns2XPass.Library.Machine

/-! # Class-based queueing

A `CBQueue` shares a link among classes. A class sends within its allotment, or
beyond it on behalf of a class above it in a tree of lenders. A `WRR_CBQueue`
visits the classes of a priority in a weighted round robin.
-/

namespace Ns2XPass

/-- What the scripts set of a `CBQClass`. -/
structure CBQClass (C : Type) where
  /-- `q_ != NULL`. -/
  hasQueue : Bool
  lender : Option C
  permitBorrowing : Bool
  allotment : ℚ
  maxidle : ℚ
  extradelay : ℚ
  pri : ℕ
  level : ℕ

/-- `eligible_type_`, as `algorithm` sets it. -/
inductive Eligible
  | formal | ancestors | toplevel
  deriving DecidableEq, Repr

/-- The classes with their tree of lenders, the queue's own settings and its link. A sub-queue keeps
some of its packets and a new one. -/
structure CBQConfig (C : Type) where
  cls : C → CBQClass C
  depth : C → ℕ
  depth_lt : ∀ c d, (cls c).lender = some d → depth d < depth c
  eligible : Eligible
  /-- The queue is a `WRR_CBQueue`. -/
  wrr : Bool
  bandwidth : ℚ
  maxpkt : ℤ
  enque : C → List Packet → Packet → List Packet
  enque_sublist : ∀ c ps p, List.Sublist (enque c ps p) (ps ++ [p])

inductive CBQError
  | invalidPri | invalidAllot | invalidBandwidth | invalidLevel | negativeM
  | pendingPacket | alreadyScheduled | nullPointer | outOfSteps
  deriving DecidableEq, Repr

structure CBQClassState where
  lastTime : ℚ := 0
  undertime : ℚ := 0
  avgidle : ℚ := 0
  delayed : Bool := false
  bytesAlloc : ℤ := 0

/-- The queue of a class, as `install-queue` sets it up. -/
structure SubQueue where
  packets : List Packet := []
  blocked : Bool := true
  unblockOnResume : Bool := false

/-- `active i` lists the ring of the classes at priority `i` from `active_[i]` on, and `levels i`
those at level `i`. -/
structure CBQueue (C : Type) where
  cls : C → CBQClassState := fun _ => {}
  sub : C → SubQueue := fun _ => {}
  active : ℕ → List C := fun _ => []
  levels : ℕ → List C := fun _ => []
  maxprio : ℤ := -1
  toplevel : ℕ := 32
  lastLender : Option C := none
  pendingPkt : Option Packet := none
  blocked : Bool := false
  unblockOnResume : Bool := true
  alloc : ℕ → ℚ := fun _ => 0
  M : ℕ → ℚ := fun _ => 0
  cnt : ℕ → ℤ := fun _ => 0

namespace CBQConfig

variable {C : Type} (cfg : CBQConfig C) (c : C)

def lendersFrom : ℕ → C → List C
  | 0, _ => []
  | n + 1, c =>
    match (cfg.cls c).lender with
    | none => []
    | some d => d :: lendersFrom n d

/-- The lenders above a class, the nearest first. -/
def lenders : List C := cfg.lendersFrom (cfg.depth c) c

/-- `permit_borrowing_ && lender_ != NULL`. -/
def mayBorrow : Bool := (cfg.cls c).permitBorrowing && (cfg.cls c).lender.isSome

def maxrate : ℚ := (cfg.cls c).allotment * (cfg.bandwidth / 8)

/-- `LinkDelay::txtime`. -/
def txtime (p : Packet) : ℚ := 8 * p.size / cfg.bandwidth

variable {cfg c}

theorem lendersFrom_eq {n m : ℕ} (hn : cfg.depth c ≤ n) (hm : cfg.depth c ≤ m) :
    cfg.lendersFrom n c = cfg.lendersFrom m c := by
  induction n generalizing c m with
  | zero =>
    cases hl : (cfg.cls c).lender with
    | none => cases m <;> simp [lendersFrom, hl]
    | some d =>
      have := cfg.depth_lt c d hl
      omega
  | succ n ih =>
    cases hl : (cfg.cls c).lender with
    | none => cases m <;> simp [lendersFrom, hl]
    | some d =>
      have := cfg.depth_lt c d hl
      cases m with
      | zero => omega
      | succ m =>
        simp only [lendersFrom, hl]
        rw [ih (m := m) (by omega) (by omega)]

/-- The walk up the pointers `lender_` ends at a class that has none. -/
theorem lenders_eq : cfg.lenders c =
    match (cfg.cls c).lender with
    | none => []
    | some d => d :: cfg.lenders d := by
  cases hl : (cfg.cls c).lender with
  | none => cases hd : cfg.depth c <;> simp [lenders, lendersFrom, hd, hl]
  | some d =>
    have hlt := cfg.depth_lt c d hl
    obtain ⟨n, hn⟩ : ∃ n, cfg.depth c = n + 1 := ⟨cfg.depth c - 1, by omega⟩
    simp only [lenders, hn, lendersFrom, hl]
    rw [lendersFrom_eq (m := cfg.depth d) (by omega) le_rfl]

end CBQConfig

/-- What `CBQClass::update` makes of the class `c` as it sends the packet `p`. -/
def CBQClassState.sent {C : Type} (cfg : CBQConfig C) (c : C) (now : ℚ) (p : Packet)
    (k : CBQClassState) : CBQClassState :=
  let txTime := cfg.txtime p
  let finTime := now + txTime
  let idle := finTime - k.lastTime - p.size / cfg.maxrate c
  let avgidle := k.avgidle + (idle - k.avgidle) / 16
  let avgidle :=
    if 0 ≤ (cfg.cls c).maxidle ∧ (cfg.cls c).maxidle < avgidle then (cfg.cls c).maxidle
    else avgidle
  { k with
    avgidle := avgidle
    undertime :=
      if avgidle ≤ 0 then
        finTime + txTime * (1 / (cfg.cls c).allotment - 1) + (1 - 16) * avgidle
      else k.undertime
    lastTime := finTime }

namespace CBQueue

variable {C : Type} [DecidableEq C]

section Classes

variable (cfg : CBQConfig C) (s : CBQueue C) (c : C) (now : ℚ)

def lend : CBQueue C := { s with lastLender := some c }

def setCls (f : CBQClassState → CBQClassState) : CBQueue C :=
  { s with cls := Function.update s.cls c (f (s.cls c)) }

/-- `CBQClass::demand`. -/
def demand : Bool := !(s.sub c).packets.isEmpty

/-- `CBQClass::ancestor`, on the class `p` with the lenders `ds`. -/
def ancestorFrom : C → List C → Bool
  | _, [] => false
  | p, d :: ds => (cfg.cls p).permitBorrowing && (decide (d = c) || ancestorFrom d ds)

def ancestor (p : C) : Bool := ancestorFrom cfg c p (cfg.lenders p)

def descWithDemand : Bool := (s.levels 1).any fun p => s.demand p && ancestor cfg c p

def satisfied : Bool :=
  if (cfg.cls c).level = 1 then !(decide ((s.cls c).undertime < now) && s.demand c)
  else !(decide ((s.cls c).undertime < now) && s.descWithDemand cfg c)

def eligibleFormal : Bool :=
  (List.range' 1 ((cfg.cls c).level - 1)).all fun level =>
    (s.levels level).all fun p => s.satisfied cfg p now

/-- The test of `find_lender` that the algorithm asks for. -/
def isEligible : Bool :=
  match cfg.eligible with
  | .toplevel => decide ((cfg.cls c).level ≤ s.toplevel)
  | .ancestors => true
  | .formal => s.eligibleFormal cfg c now

/-- The loop of `find_lender`. -/
def findLenderFrom : List C → Option C
  | [] => none
  | d :: ds =>
    if now < (s.cls d).undertime then
      if cfg.eligible = .toplevel ∧ s.toplevel < (cfg.cls d).level then none
      else findLenderFrom ds
    else if s.isEligible cfg d now then some d
    else findLenderFrom ds

def findLender : Option C :=
  if cfg.mayBorrow c then s.findLenderFrom cfg now (cfg.lenders c) else none

/-- `send_permitted`, with the state it leaves where it permits. -/
def sendPermitted : Option (CBQueue C) :=
  if (s.cls c).undertime < now then
    some ((s.setCls c fun k => { k with delayed := false }).lend c)
  else if (cfg.cls c).permitBorrowing then
    (s.findLender cfg c now).map s.lend
  else none

/-- `CBQClass::delayed`. -/
def delayed : CBQueue C :=
  if 0 < (s.cls c).undertime - now + (cfg.cls c).extradelay ∧ !(s.cls c).delayed then
    s.setCls c fun k => { k with
      undertime := k.undertime + (cfg.cls c).extradelay - (1 - 16) * k.avgidle
      delayed := true }
  else s

/-- `CBQClass::update` without its recursion. -/
def updateOne (p : Packet) : CBQueue C := s.setCls c fun k => k.sent cfg c now p

/-- `CBQClass::update`, for the class and all of its lenders. -/
def update (p : Packet) : CBQueue C :=
  (c :: cfg.lenders c).foldl (fun s d => s.updateOne cfg d now p) s

def toplevelDeparture : Except CBQError (CBQueue C) :=
  match s.lastLender with
  | none => .error .nullPointer
  | some d =>
    if (cfg.cls d).level ≤ s.toplevel then
      if (s.sub c).packets.length ≤ 1 ∨ now < (s.cls d).undertime then
        .ok { s with toplevel := 32 }
      else .ok { s with toplevel := (cfg.cls d).level }
    else .ok s

def toplevelArrival : CBQueue C :=
  if 1 < s.toplevel then
    if (s.cls c).undertime < now then { s with toplevel := 1 }
    else
      match (cfg.cls c).lender with
      | none => s
      | some d =>
        if 2 < s.toplevel ∧ (cfg.cls c).permitBorrowing ∧ (s.cls d).undertime < now then
          { s with toplevel := 2 }
        else s
  else s

end Classes

/-! ## Setting up -/

/-- A ring with the class behind its first one. -/
def behindFirst {C : Type} (c : C) : List C → List C
  | [] => [c]
  | a :: as => a :: c :: as

section Setup

variable (cfg : CBQConfig C) (s : CBQueue C) (c : C)

/-- The class joins the ring of its priority, behind `active_`. -/
def joinRing : CBQueue C :=
  { s with
    active := Function.update s.active (cfg.cls c).pri (behindFirst c (s.active (cfg.cls c).pri))
    maxprio := max s.maxprio (cfg.cls c).pri }

/-- `M_[i]` as `setM` computes it. -/
def ratio (i : ℕ) : ℚ :=
  if i ≤ s.maxprio then if 0 < s.alloc i then s.cnt i * cfg.maxpkt / s.alloc i else 0 else s.M i

def setM : Except CBQError (CBQueue C) :=
  if (List.range (s.maxprio + 1).toNat).all fun i => decide (0 ≤ s.ratio cfg i) then
    .ok { s with M := s.ratio cfg }
  else .error .negativeM

/-- `addallot`, which does nothing in a plain `CBQueue`. -/
def addallot (i : ℕ) (diff : ℚ) : Except CBQError (CBQueue C) :=
  if cfg.wrr then
    setM cfg { s with alloc := Function.update s.alloc i (s.alloc i + diff) }
  else .ok s

/-- The class joins the list of its level. -/
def joinLevel : CBQueue C :=
  let level := (cfg.cls c).level
  { s with levels := Function.update s.levels level (c :: s.levels level) }

/-- Only classes with a queue are scheduled. -/
def schedule : CBQueue C := if (cfg.cls c).hasQueue then s.joinRing cfg c else s

/-- `CBQueue::insert_class`. -/
def insertBase : Except CBQError (CBQueue C) :=
  if 9 < (cfg.cls c).pri then .error .invalidPri
  else if (cfg.cls c).allotment < 0 ∨ 1 < (cfg.cls c).allotment then .error .invalidAllot
  else if cfg.bandwidth ≤ 0 then .error .invalidBandwidth
  else do
    let s ← (s.schedule cfg c).addallot cfg (cfg.cls c).pri (cfg.cls c).allotment
    if (cfg.cls c).level = 0 ∨ 32 < (cfg.cls c).level then .error .invalidLevel
    else .ok (s.joinLevel cfg c)

def insertClass : Except CBQError (CBQueue C) := do
  let s ← s.insertBase cfg c
  if cfg.wrr then
    let i := (cfg.cls c).pri
    setM cfg { s with cnt := Function.update s.cnt i (s.cnt i + 1) }
  else .ok s

end Setup

/-! ## Sending -/

/-- What a scan of the classes has found: the first class that may borrow, the class to send, and
the answers that `send_permitted` has given, the last one first. -/
structure Scan (C : Type) where
  queue : CBQueue C
  first : Option C := none
  eligible : Option C := none
  asked : List (C × Bool) := []
  deficit : ℕ := 0

section Scans

variable (cfg : CBQConfig C) (now : ℚ)

/-- A class with something to send that may borrow is remembered. -/
def Scan.remember (r : Scan C) (c : C) : Scan C :=
  { r with first := r.first <|> if cfg.mayBorrow c then some c else none }

/-- `send_permitted` has refused the class. -/
def Scan.refuse (r : Scan C) (c : C) : Scan C :=
  { r with queue := r.queue.delayed cfg c now, asked := (c, false) :: r.asked }

/-- `send_permitted` has permitted the class and left the state `s`. -/
def Scan.permit (r : Scan C) (c : C) (s : CBQueue C) : Scan C :=
  { r with queue := s, asked := (c, true) :: r.asked }

/-- The body of the inner loop of `CBQueue::deque`. -/
def visit (c : C) (r : Scan C) : Scan C :=
  if r.queue.demand c then
    match r.queue.sendPermitted cfg c now with
    | some s => { (r.remember cfg c).permit c s with eligible := some c }
    | none => (r.remember cfg c).refuse cfg now c
  else r

/-- `(int)(allotment_ * M_[pri_])`. -/
def weight (s : CBQueue C) (c : C) : ℤ := toInt ((cfg.cls c).allotment * s.M (cfg.cls c).pri)

/-- The credit that a class has when it is visited. -/
def refilled (s : CBQueue C) (c : C) : ℤ :=
  if (s.cls c).bytesAlloc ≤ 0 then (s.cls c).bytesAlloc + s.weight cfg c else (s.cls c).bytesAlloc

def setBytes (s : CBQueue C) (c : C) (n : ℤ) : CBQueue C :=
  s.setCls c fun k => { k with bytesAlloc := n }

/-- `bytes_alloc_` is set to 0 as the scan leaves a class. -/
def Scan.clear (r : Scan C) (c : C) : Scan C := { r with queue := r.queue.setBytes c 0 }

/-- The credit is refilled in all but the last round. -/
def Scan.refill (r : Scan C) (c : C) : Scan C :=
  if r.deficit < 2 then { r with queue := r.queue.setBytes c (r.queue.refilled cfg c) } else r

/-- The body of the inner loop of `WRR_CBQueue::deque`. -/
def wrrVisit (c : C) (r : Scan C) : Scan C :=
  let r := r.refill cfg c
  if r.queue.demand c then
    match r.queue.sendPermitted cfg c now with
    | none => ((r.remember cfg c).refuse cfg now c).clear c
    | some s =>
      let r := (r.remember cfg c).permit c s
      if 0 < (s.cls c).bytesAlloc ∨ 1 < r.deficit then { r with eligible := some c }
      else { r with deficit := 1 }.clear c
  else r.clear c

/-- The inner loop of `deque`. It is left for `found` as a class is eligible. -/
def ringScan (body : C → Scan C → Scan C) : List C → Scan C → Scan C
  | [], r => r
  | c :: cs, r =>
    let r := body c r
    if r.eligible.isSome then r else ringScan body cs r

/-- The loop of `WRR_CBQueue::deque` that ends as `done` is set. -/
def wrrRounds (cs : List C) : ℕ → Scan C → Except CBQError (Scan C)
  | 0, _ => .error .outOfSteps
  | n + 1, r =>
    let r := ringScan (wrrVisit cfg now) cs r
    if r.eligible.isSome then .ok r
    else if r.deficit = 1 then wrrRounds cs n { r with deficit := 2 }
    else .ok r

/-- The classes of one priority are visited. Two rounds are enough. -/
def scanPrio (i : ℕ) (r : Scan C) : Except CBQError (Scan C) :=
  if cfg.wrr then wrrRounds cfg now (r.queue.active i) 2 { r with deficit := 0 }
  else .ok (ringScan (visit cfg now) (r.queue.active i) r)

/-- The loop of `deque` over the priorities. -/
def scanPrios : List ℕ → Scan C → Except CBQError (Scan C)
  | [], r => .ok r
  | i :: is, r =>
    if r.queue.active i = [] then scanPrios is r
    else do
      let r ← scanPrio cfg now i r
      if r.eligible.isSome then .ok r else scanPrios is r

def scan (s : CBQueue C) : Except CBQError (Scan C) :=
  scanPrios cfg now (List.range (s.maxprio + 1).toNat) { queue := s }

end Scans

section Sending

variable (cfg : CBQConfig C) (s : CBQueue C) (c : C) (now : ℚ)

/-- `CBQueue::recv`, called by a sub-queue. -/
def recv (p : Packet) : Except CBQError (CBQueue C) :=
  match s.pendingPkt with
  | some _ => .error .pendingPacket
  | none => .ok { s with blocked := true, pendingPkt := some p }

def setSub (f : SubQueue → SubQueue) : CBQueue C :=
  { s with sub := Function.update s.sub c (f (s.sub c)) }

/-- `Queue::resume` of a sub-queue. -/
def resumeSub : Except CBQError (CBQueue C) :=
  match (s.sub c).packets with
  | p :: ps => (s.setSub c fun q => { q with packets := ps }).recv p
  | [] => .ok (s.setSub c fun q => { q with blocked := !q.unblockOnResume })

/-- `Queue::recv` of a sub-queue. -/
def recvSub (p : Packet) : Except CBQError (CBQueue C) :=
  let s := s.setSub c fun q => { q with packets := cfg.enque c q.packets p }
  if (s.sub c).blocked then .ok s
  else
    match (s.sub c).packets with
    | p :: ps => (s.setSub c fun q => { q with packets := ps, blocked := true }).recv p
    | [] => .ok s

/-- The ring with the class behind `c` first. -/
def peersOf (as : List C) : List C := (as.dropWhile (· ≠ c)).tail ++ as.takeWhile (· ≠ c) ++ [c]

/-- The ring with the class `c` first. -/
def ringFrom (as : List C) : List C := as.dropWhile (· ≠ c) ++ as.takeWhile (· ≠ c)

def turnRing (f : List C → List C) : CBQueue C :=
  { s with active := Function.update s.active (cfg.cls c).pri (f (s.active (cfg.cls c).pri)) }

/-- The packet of the class is accounted for. -/
def account (p : Packet) : Except CBQError (CBQueue C) :=
  let s := s.update cfg c now p
  if cfg.eligible = .toplevel then s.toplevelDeparture cfg c now else .ok s

/-- The class's credit pays for its packet, if there is any. -/
def spend (p : Packet) : CBQueue C :=
  if 0 < (s.cls c).bytesAlloc then s.setBytes c ((s.cls c).bytesAlloc - p.size) else s

/-- `deque` of a plain queue after its scan: `c` sends, and is accounted for unless no class was
permitted to send. -/
def sendPlain (found : Bool) : Except CBQError (CBQueue C) := do
  let s ← (s.turnRing cfg c (peersOf c)).resumeSub c
  match s.pendingPkt, found with
  | some p, true => s.account cfg c now p
  | _, _ => .ok s

/-- The same for a `WRR_CBQueue`, where a class with credit left goes again. -/
def sendWrr (found : Bool) : Except CBQError (CBQueue C) := do
  let s ← s.resumeSub c
  match s.pendingPkt, found with
  | some p, true =>
    let s := s.spend c p
    let again := decide (0 < (s.cls c).bytesAlloc)
    let s ← s.account cfg c now p
    .ok (s.turnRing cfg c (if again then ringFrom c else peersOf c))
  | _, _ => .ok (s.turnRing cfg c (peersOf c))

/-- The class that the scan lets send: the eligible one, or else the first that may borrow. -/
def Scan.chosen (r : Scan C) : Option C := r.eligible <|> r.first

/-- `deque` after its scan. -/
def sendFrom (r : Scan C) : Except CBQError (CBQueue C) :=
  match r.chosen with
  | none => .ok r.queue
  | some c =>
    if cfg.wrr then r.queue.sendWrr cfg c now r.eligible.isSome
    else r.queue.sendPlain cfg c now r.eligible.isSome

/-- `deque` of a `CBQueue` or a `WRR_CBQueue`. -/
def deque : Except CBQError (Option Packet × CBQueue C) := do
  let r ← s.scan cfg now
  let s ← sendFrom cfg now r
  .ok (s.pendingPkt, { s with pendingPkt := none })

end Sending

end CBQueue

/-! ## The queue with its events and its link -/

/-- A `CBQueue`, its event `intr_` in the scheduler, and the packets for which the link has not
called back yet. -/
structure CBQSystem (C : Type) where
  queue : CBQueue C
  clock : ℚ := 0
  intr : Bool := false
  outstanding : ℕ := 0

inductive CBQEvent (C : Type)
  | arrival (c : C) (p : Packet)
  | intr
  | callback
  deriving DecidableEq

namespace CBQSystem

variable {C : Type} [DecidableEq C] (cfg : CBQConfig C) (s : CBQSystem C) (now : ℚ)

/-- `CBQueue::sched`. -/
def sched : Except CBQError (CBQSystem C) :=
  if s.intr then .error .alreadyScheduled
  else .ok { s with queue := { s.queue with blocked := true }, intr := true }

/-- `Queue::resume` of the `CBQueue`, with the link as its target. -/
def resume : Except CBQError (CBQSystem C) := do
  let r ← s.queue.deque cfg now
  match r.1 with
  | some _ => .ok { s with queue := r.2, outstanding := s.outstanding + 1 }
  | none => .ok { s with queue := { r.2 with blocked := !r.2.unblockOnResume } }

/-- `CBQClass::recv`. -/
def arrive (c : C) (p : Packet) : Except CBQError (CBQSystem C) := do
  let q := if cfg.eligible = .toplevel then s.queue.toplevelArrival cfg c now else s.queue
  let q ← q.recvSub cfg c p
  if q.blocked then .ok { s with queue := q } else sched { s with queue := q }

def step (x : ℚ × CBQEvent C) : Except CBQError (CBQSystem C) :=
  let s := { s with clock := x.1 }
  match x.2 with
  | .arrival c p => s.arrive cfg x.1 c p
  | .intr => resume cfg { s with intr := false } x.1
  | .callback => resume cfg { s with outstanding := s.outstanding - 1 } x.1

/-- Time does not run backwards, packets arrive at classes with a queue, the scheduler runs what is
scheduled and the link calls back for a packet that it has. -/
def Enabled (x : ℚ × CBQEvent C) : Prop :=
  s.clock ≤ x.1 ∧ match x.2 with
  | .arrival c _ => c ∈ s.queue.active (cfg.cls c).pri
  | .intr => s.intr = true
  | .callback => 0 < s.outstanding

instance : ∀ x : ℚ × CBQEvent C, Decidable (s.Enabled cfg x)
  | (t, .arrival c _) =>
    inferInstanceAs (Decidable (s.clock ≤ t ∧ c ∈ s.queue.active (cfg.cls c).pri))
  | (t, .intr) => inferInstanceAs (Decidable (s.clock ≤ t ∧ s.intr = true))
  | (t, .callback) => inferInstanceAs (Decidable (s.clock ≤ t ∧ 0 < s.outstanding))

/-- The queue after its classes have been inserted. -/
def Init (s : CBQSystem C) : Prop :=
  ∃ cs : List C, cs.Nodup ∧
    cs.foldlM (fun (q : CBQueue C) c => q.insertClass cfg c) {} = .ok s.queue ∧
    s.clock = 0 ∧ s.intr = false ∧ s.outstanding = 0

/-- The runs of a queue with its link. -/
def machine : Machine (CBQSystem C) (ℚ × CBQEvent C) CBQError where
  Init := Init cfg
  Enabled s := s.Enabled cfg
  step s := s.step cfg

end CBQSystem

end Ns2XPass
