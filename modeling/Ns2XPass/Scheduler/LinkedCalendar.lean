import Ns2XPass.Library.RingLinks
import Ns2XPass.Scheduler.Calendar

/-! # The calendar in memory

The events of a bucket are linked to a ring, and the bucket has a pointer to the
first of them. Searching, inserting and removing follow these links, and a
resize takes the old rings apart from their tails while it builds the new ones.
-/

namespace Ns2XPass

/-- A calendar of which each bucket holds no more than its `list_`, as a list of no or one event,
and the links of the events. -/
structure LinkedCalendar (η : Type) where
  cal : CalendarScheduler η
  links : RingLinks (Event η)

inductive CalendarFault
  | hang
  | abort (a : SchedulerAbort)

/-- The event that a pointer leads to. -/
def fetch {η : Type} : Option (Event η) → Except CalendarFault (Event η)
  | some e => .ok e
  | none => .error (.abort .nullEvent)

namespace LinkedCalendar

variable {η : Type} (cfg : CalendarConfig) (r : LinkedCalendar η)

/-- `list_` of a bucket. -/
def list (i : ℕ) : Option (Event η) := (r.cal.buckets i).list.head?

/-- No loop along a ring needs more rounds. -/
def bound : ℕ := r.cal.qsize.toNat + 1

/-- The loop of `insert` from an event backwards, with the number of events that it passes. -/
def searchAfter (t : ℚ) : ℕ → Event η → Except CalendarFault (Event η × ℕ)
  | 0, _ => .error .hang
  | n + 1, after =>
    if t < after.time then do
      let prev ← fetch (r.links.prev after)
      let (after, passed) ← searchAfter t n prev
      return (after, passed + 1)
    else .ok (after, 0)

/-- The loop of `insert2` from an event forwards. -/
def searchBefore (t : ℚ) : ℕ → Event η → Except CalendarFault (Event η)
  | 0, _ => .error .hang
  | n + 1, before =>
    if before.time < t then do
      let next ← fetch (r.links.next before)
      searchBefore t n next
    else .ok before

/-- The width that samples from the fullest bucket suggest. -/
def sampledWidth (newsize : ℕ) : Except CalendarFault ℚ :=
  let count := (r.cal.buckets r.cal.maxBucket).count
  if count ≤ 4 then .ok r.cal.width
  else do
    let head ← fetch (r.list r.cal.maxBucket)
    let tail ← fetch (r.links.prev head)
    let nw := tail.time - head.time
    if nw ≤ 0 then .error (.abort .assertion)
    else return nw / (min newsize count : ℤ) * 4

def newwidth (newsize : ℕ) : Except CalendarFault (ℚ × LinkedCalendar η) :=
  if cfg.adjustNewWidthInterval ≠ 0 then
    let r := { r with cal := { r.cal with timeToNewwidth := cfg.adjustNewWidthInterval } }
    if 0 < r.cal.avgGap then .ok (r.cal.avgGap * 4, r)
    else (r.sampledWidth newsize).map fun w => (w, r)
  else (r.sampledWidth newsize).map fun w => (w, r)

/-- `head` looks at no more of a bucket than its `list_`. -/
def head : Except CalendarFault (Option (Event η) × LinkedCalendar η) :=
  match r.cal.head with
  | .ok (e, cal) => .ok (e, { r with cal })
  | .error a => .error (.abort a)

section Links

variable [DecidableEq η]

/-- What `insert` does to a bucket: `list_` and the links, whether the time is new, and the number
of events that the search has looked at. -/
def place (i : ℕ) (e : Event η) :
    Except CalendarFault (Event η × RingLinks (Event η) × Bool × ℕ) :=
  match r.list i with
  | none => .ok (e, r.links.single e, true, 0)
  | some head =>
    if e.time < head.time then do
      let tail ← fetch (r.links.prev head)
      return (e, r.links.insert tail e head, true, 1)
    else do
      let tail ← fetch (r.links.prev head)
      let (after, passed) ← r.searchAfter e.time r.bound tail
      let next ← fetch (r.links.next after)
      return (head, r.links.insert after e next, decide (after.time < e.time), passed + 1)

/-- What `insert2` does to a bucket. -/
def place2 (i : ℕ) (e : Event η) :
    Except CalendarFault (Event η × RingLinks (Event η) × Bool) :=
  match r.list i with
  | none => .ok (e, r.links.single e, true)
  | some head => do
    let tail ← fetch (r.links.prev head)
    if tail.time < e.time then
      return (head, r.links.insert tail e head, decide (e ≠ head ∧ head.time ≠ e.time))
    else
      let before ← r.searchBefore e.time r.bound head
      let prev ← fetch (r.links.prev before)
      return (if before = head then e else head, r.links.insert prev e before,
        decide (e ≠ before ∧ before.time ≠ e.time))

def insert2 (e : Event η) : Except CalendarFault (LinkedCalendar η) := do
  let i := r.cal.hash e.time
  let (list, links, unique) ← r.place2 i e
  return { cal := r.cal.link i [list] unique, links }

/-- The loop of `resize` along an old ring, from its tail backwards. -/
def moveRing (tail : Event η) : ℕ → Event η → LinkedCalendar η →
    Except CalendarFault (LinkedCalendar η)
  | 0, _, _ => .error .hang
  | n + 1, e, r => do
    let ep ← fetch (r.links.prev e)
    let r ← insert2 { r with links := r.links.clear e } e
    if ep = tail then return r else moveRing tail n ep r

/-- The events of one old bucket are moved. -/
def moveBucket (bound : ℕ) : Option (Event η) → Except CalendarFault (LinkedCalendar η)
  | none => .ok r
  | some head => do
    let tail ← fetch (r.links.prev head)
    moveRing tail bound tail r

/-- `resize` from the call of `reinit` on. -/
def rebuild (newsize : ℕ) (bwidth start : ℚ) : Except CalendarFault (LinkedCalendar η) := do
  let new ← (List.range r.cal.nbuckets).foldlM
    (fun (s : LinkedCalendar η) (i : ℕ) => s.moveBucket r.bound (r.list i))
    { r with cal := r.cal.reinit newsize bwidth start }
  return { new with cal := { new.cal with headSearch := 0, insertSearch := 0, roundNum := 0 } }

def resize (newsize : ℕ) (start : ℚ) : Except CalendarFault (LinkedCalendar η) :=
  if newsize = r.cal.nbuckets then
    if r.cal.snoopyWidth cfg < cfg.minBinWidth then
      if 0 < r.cal.timeToNewwidth then
        .ok { r with cal := { r.cal with
          timeToNewwidth := r.cal.timeToNewwidth - 1
          headSearch := 0
          insertSearch := 0
          roundNum := 0 } }
      else do
        let (bwidth, r) ← r.newwidth cfg newsize
        r.rebuild newsize bwidth start
    else r.rebuild newsize (r.cal.snoopyWidth cfg) start
  else do
    let (bwidth, r) ← r.newwidth cfg newsize
    r.rebuild (if newsize < 4 then 4 else newsize) bwidth start

def insert (e : Event η) : Except CalendarFault (LinkedCalendar η) := do
  let r := { r with cal := r.cal.rewindClock e.time }
  let i := r.cal.hash e.time
  let (list, links, unique, searched) ← r.place i e
  let cal := { r.cal.link i [list] unique with insertSearch := r.cal.insertSearch + searched }
  let r : LinkedCalendar η := { cal, links }
  if cal.topThreshold < cal.statQsize then r.resize cfg (cal.nbuckets * 2) cal.calClock
  else return r

/-- The statistics of `deque`, which may resize the calendar while it holds the event. -/
def observeGap (e : Event η) : Except CalendarFault (LinkedCalendar η) :=
  let c := r.cal
  if cfg.adjustNewWidthInterval = 0 then .ok r
  else if c.lastTime < 0 then .ok { r with cal := { c with lastTime := e.time } }
  else
    let c := { c with gapNum := c.gapNum + 1 }
    if (c.gapNum : ℤ) < c.qsize then .ok { r with cal := c }
    else
      let c := { c with
        avgGap := (e.time - c.lastTime) / c.gapNum
        gapNum := 0
        lastTime := e.time
        roundNum := c.roundNum + 1 }
      if 20 < c.roundNum ∧
          (c.insertSearch * 2 < c.headSearch ∨ c.headSearch * 2 < c.insertSearch) then
        (resize cfg { r with cal := c } c.nbuckets c.calClock).map fun r =>
          { r with cal := { r.cal with roundNum := 0 } }
      else if 100 < c.roundNum then
        .ok { r with cal := { c with roundNum := 0, headSearch := 0, insertSearch := 0 } }
      else .ok { r with cal := c }

/-- An event is taken out of its ring, and `list_` of its bucket is set. -/
def unlink (i : ℕ) (e prev next : Event η) (list : Option (Event η)) (unique : Bool) :
    LinkedCalendar η where
  cal := r.cal.unlink i list.toList unique
  links := (if next = e then r.links else r.links.unlink prev e next).clear e

/-- The removal of `deque`: the event is the head of the current bucket. -/
def removeHead (e : Event η) : Except CalendarFault (LinkedCalendar η) := do
  let next ← fetch (r.links.next e)
  let prev ← fetch (r.links.prev e)
  let r := r.unlink r.cal.lastbucket e prev next (if next = e then none else some next)
    (decide (next = e ∨ next.time ≠ e.time))
  if r.cal.statQsize < r.cal.botThreshold then r.resize cfg (r.cal.nbuckets / 2) r.cal.calClock
  else return r

def deque : Except CalendarFault (Option (Event η) × LinkedCalendar η) := do
  let (o, r) ← r.head
  match o with
  | none => return (none, r)
  | some e =>
    let r ← r.observeGap cfg e
    let r ← r.removeHead cfg e
    return (some e, r)

def cancel (e : Event η) : Except CalendarFault (Event η × LinkedCalendar η) :=
  if e.uid ≤ 0 then .ok (e, r)
  else do
    let i := r.cal.hash e.time
    let prev ← fetch (r.links.prev e)
    let next ← fetch (r.links.next e)
    if r.links.next prev ≠ some e then .error (.abort .assertion)
    else if r.links.prev next ≠ some e then .error (.abort .assertion)
    else
      let unique := decide (next = e ∨ next.time ≠ e.time ∧ prev.time ≠ e.time)
      let list := if next = e then none else if r.list i = some e then some next else r.list i
      let r' := r.unlink i e prev next list unique
      if unique ∧ r'.cal.statQsize < 0 then .error (.abort .assertion)
      else if unique ∧ (r'.cal.buckets i).count < 0 then .error (.abort .assertion)
      else if next = e ∧ r.list i ≠ some e then .error (.abort .assertion)
      else if (r'.cal.buckets i).count = 0 ∧ list ≠ none then .error (.abort .assertion)
      else .ok (e.negateUid, r')

end Links

end LinkedCalendar

end Ns2XPass
