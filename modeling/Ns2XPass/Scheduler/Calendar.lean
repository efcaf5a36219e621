import Mathlib.Data.List.DropRight
import Mathlib.Data.Rat.Floor
import Ns2XPass.Scheduler.Basic

/-! # The calendar-queue scheduler

Events are hashed by time into the buckets of a year. `head` looks for an event
of the current year, bucket by bucket, and falls back on the least event.
Inserting, removing and serving events may rebuild the calendar with another
number of buckets or another width.
-/

namespace Ns2XPass

/-- The bound variables, and the square root of the C library. -/
structure CalendarConfig where
  minBinWidth : ℚ
  adjustNewWidthInterval : ℕ
  sqrt : ℚ → ℚ

/-- The circular list of a bucket from its head on, and its number of distinct times. -/
structure CalendarScheduler.Bucket (η : Type) where
  list : List (Event η) := []
  count : ℤ := 0

structure CalendarScheduler (η : Type) where
  timeToNewwidth : ℕ
  headSearch : ℕ
  insertSearch : ℕ
  roundNum : ℤ
  gapNum : ℕ
  lastTime : ℚ
  avgGap : ℚ
  width : ℚ
  diff0 : ℚ
  diff1 : ℚ
  diff2 : ℚ
  statQsize : ℤ
  nbuckets : ℕ
  lastbucket : ℕ
  topThreshold : ℤ
  botThreshold : ℤ
  buckets : ℕ → CalendarScheduler.Bucket η
  qsize : ℤ
  calClock : ℚ

namespace CalendarScheduler

variable {η : Type} (cfg : CalendarConfig) (c : CalendarScheduler η)

/-- `CALENDAR_HASH`, for a time that is not negative. -/
def hash (t : ℚ) : ℕ := ⌊t / c.width⌋₊ % c.nbuckets

/-- `current->list_` and `current->count_`, and `stat_qsize_` and `qsize_`, after the insertion of
an event into its bucket. -/
def link (i : ℕ) (list : List (Event η)) (unique : Bool) : CalendarScheduler η :=
  { c with
    buckets := Function.update c.buckets i
      { list, count := (c.buckets i).count + if unique then 1 else 0 }
    statQsize := c.statQsize + if unique then 1 else 0
    qsize := c.qsize + 1 }

/-- The place that `insert2` gives an event, before those of its time: the new list, and whether
no other event has the time. -/
def place2 (e : Event η) : List (Event η) → List (Event η) × Bool
  | [] => ([e], true)
  | list =>
    let (front, back) :=
      if list.getLast?.any (·.time < e.time) then (list, []) else list.span (·.time < e.time)
    -- the event behind the new one in the circular list
    let next := (back ++ front).head?
    (front ++ e :: back, next.any (·.time ≠ e.time))

def insert2 (e : Event η) : CalendarScheduler η :=
  let i := c.hash e.time
  let (list, unique) := place2 e (c.buckets i).list
  c.link i list unique

def reinit (nbuck : ℕ) (bwidth start : ℚ) : CalendarScheduler η :=
  { c with
    buckets := fun _ => {}
    width := bwidth
    nbuckets := nbuck
    qsize := 0
    statQsize := 0
    lastbucket := ⌊start / bwidth⌋₊ % nbuck
    diff0 := bwidth * nbuck / 2
    diff1 := bwidth * nbuck / 2 + bwidth
    diff2 := bwidth * nbuck
    botThreshold := nbuck / 2 - 2
    topThreshold := nbuck * 2 }

/-- The events in the order in which `resize` moves them: each bucket from its tail. -/
def moved : List (Event η) :=
  (List.range c.nbuckets).flatMap fun i => (c.buckets i).list.reverse

/-- `resize` from the call of `reinit` on. -/
def rebuild (newsize : ℕ) (bwidth start : ℚ) : CalendarScheduler η :=
  { c.moved.foldl insert2 (c.reinit newsize bwidth start) with
    headSearch := 0
    insertSearch := 0
    roundNum := 0 }

/-- The index of the fullest bucket. -/
def maxBucket : ℕ :=
  (List.range' 1 (c.nbuckets - 1)).foldl
    (fun m i => if (c.buckets m).count < (c.buckets i).count then i else m) 0

/-- The width that samples from the fullest bucket suggest. -/
def sampledWidth (newsize : ℕ) : Except SchedulerAbort ℚ :=
  let b := c.buckets c.maxBucket
  if b.count ≤ 4 then .ok c.width
  else
    match b.list.head?, b.list.getLast? with
    | some head, some tail =>
      let nw := tail.time - head.time
      if nw ≤ 0 then .error .assertion
      else .ok (nw / (min newsize b.count : ℤ) * 4)
    | _, _ => .error .nullEvent

def newwidth (newsize : ℕ) : Except SchedulerAbort (ℚ × CalendarScheduler η) :=
  if cfg.adjustNewWidthInterval ≠ 0 then
    let c := { c with timeToNewwidth := cfg.adjustNewWidthInterval }
    if 0 < c.avgGap then .ok (c.avgGap * 4, c)
    else (c.sampledWidth newsize).map fun w => (w, c)
  else (c.sampledWidth newsize).map fun w => (w, c)

/-- The width by which `resize` balances the lengths of the searches. -/
def snoopyWidth : ℚ :=
  let bwidth : ℚ := if c.headSearch ≠ 0 then c.headSearch else 1
  let bwidth := if c.insertSearch ≠ 0 then bwidth / c.insertSearch else bwidth
  cfg.sqrt bwidth * c.width

def resize (newsize : ℕ) (start : ℚ) : Except SchedulerAbort (CalendarScheduler η) :=
  if newsize = c.nbuckets then
    if c.snoopyWidth cfg < cfg.minBinWidth then
      if 0 < c.timeToNewwidth then
        .ok { c with
          timeToNewwidth := c.timeToNewwidth - 1
          headSearch := 0
          insertSearch := 0
          roundNum := 0 }
      else do
        let (bwidth, c) ← c.newwidth cfg newsize
        return c.rebuild newsize bwidth start
    else .ok (c.rebuild newsize (c.snoopyWidth cfg) start)
  else do
    let (bwidth, c) ← c.newwidth cfg newsize
    return c.rebuild (if newsize < 4 then 4 else newsize) bwidth start

/-- The place that `insert` gives an event, behind those of its time: the new list, whether no
other event has the time, and the number of events that the search has passed. -/
def place (e : Event η) : List (Event η) → List (Event η) × Bool × ℕ
  | [] => ([e], true, 0)
  | list@(head :: _) =>
    if e.time < head.time then (e :: list, true, 1)
    else
      -- from the tail backwards to the event `after`
      let before := list.rdropWhile (e.time < ·.time)
      let rest := list.rtakeWhile (e.time < ·.time)
      (before ++ e :: rest, before.getLast?.any (·.time < e.time), rest.length + 1)

/-- An insertion in the past moves the clock back. -/
def rewindClock (t : ℚ) : CalendarScheduler η :=
  if t < c.calClock then { c with calClock := t, lastbucket := c.hash t } else c

def insert (e : Event η) : Except SchedulerAbort (CalendarScheduler η) :=
  let c := c.rewindClock e.time
  let i := c.hash e.time
  let (list, unique, searched) := place e (c.buckets i).list
  let c := { c.link i list unique with insertSearch := c.insertSearch + searched }
  if c.topThreshold < c.statQsize then c.resize cfg (c.nbuckets * 2) c.calClock else .ok c

/-- The state of the search in `head`: the next bucket, the least event so far with its bucket,
and the number of buckets visited. -/
structure Search (η : Type) where
  i : ℕ
  min : Option (ℕ × Event η) := none
  visited : ℕ := 0

/-- `CAL_DEQUEUE`, which ends the search (as an exception) at an event within `diff`. -/
def calDequeue (diff : ℚ) (s : Search η) : Except (ℕ × Event η × ℕ) (Search η) :=
  let next := if s.i + 1 = c.nbuckets then 0 else s.i + 1
  match (c.buckets s.i).list with
  | [] => .ok { s with i := next, visited := s.visited + 1 }
  | e :: _ =>
    if e.time - c.calClock < diff then .error (s.i, e, s.visited + 1)
    else
      let min := if s.min.all (e.time < ·.2.time) then some (s.i, e) else s.min
      .ok { i := next, min, visited := s.visited + 1 }

def lastbucketDec : ℕ := if c.lastbucket ≠ 0 then c.lastbucket - 1 else c.nbuckets - 1

/-- The `for` loop of `head`, which the number of buckets bounds. -/
def searchYear : ℕ → Search η → Except (ℕ × Event η × ℕ) (Search η)
  | 0, s => .ok s
  | n + 1, s =>
    if s.i = c.lastbucketDec then .ok s
    else do
      let s ← c.calDequeue c.diff2 s
      searchYear n s

/-- The visits of `head` before the last bucket. -/
def search : Except (ℕ × Event η × ℕ) (Search η) := do
  let s ← c.calDequeue c.diff0 { i := c.lastbucket }
  let s ← c.calDequeue c.diff1 s
  c.searchYear c.nbuckets s

/-- The bucket of the event that `head` returns, the event, and the number of visits. -/
def find : Except SchedulerAbort (ℕ × Event η × ℕ) :=
  match c.search with
  | .error found => .ok found
  | .ok s =>
    match (c.buckets s.i).list, s.min with
    | [], some (l, m) => .ok (l, m, s.visited)
    | e :: _, some (l, m) =>
      if m.time < e.time then .ok (l, m, s.visited) else .ok (s.i, e, s.visited)
    | e :: _, none => .ok (s.i, e, s.visited)
    | [], none => .error .nullEvent

def head : Except SchedulerAbort (Option (Event η) × CalendarScheduler η) :=
  if c.qsize = 0 then .ok (none, c)
  else do
    let (l, e, visited) ← c.find
    return (some e,
      { c with headSearch := c.headSearch + visited, lastbucket := l, calClock := e.time })

/-- The statistics of `deque`, which may resize the calendar while it holds the event. -/
def observeGap (e : Event η) : Except SchedulerAbort (CalendarScheduler η) :=
  if cfg.adjustNewWidthInterval = 0 then .ok c
  else if c.lastTime < 0 then .ok { c with lastTime := e.time }
  else
    let c := { c with gapNum := c.gapNum + 1 }
    if (c.gapNum : ℤ) < c.qsize then .ok c
    else
      let c := { c with
        avgGap := (e.time - c.lastTime) / c.gapNum
        gapNum := 0
        lastTime := e.time
        roundNum := c.roundNum + 1 }
      if 20 < c.roundNum ∧
          (c.insertSearch * 2 < c.headSearch ∨ c.headSearch * 2 < c.insertSearch) then
        (c.resize cfg c.nbuckets c.calClock).map fun c => { c with roundNum := 0 }
      else if 100 < c.roundNum then .ok { c with roundNum := 0, headSearch := 0, insertSearch := 0 }
      else .ok c

/-- `buckets_`, `stat_qsize_` and `qsize_` after the removal of an event from its bucket. -/
def unlink (i : ℕ) (list : List (Event η)) (unique : Bool) : CalendarScheduler η :=
  { c with
    buckets := Function.update c.buckets i
      { list, count := (c.buckets i).count - if unique then 1 else 0 }
    statQsize := c.statQsize - if unique then 1 else 0
    qsize := c.qsize - 1 }

/-- The removal of `deque`: the event is the head of the current bucket. -/
def removeHead (e : Event η) : Except SchedulerAbort (CalendarScheduler η) :=
  let rest := (c.buckets c.lastbucket).list.tail
  let c := c.unlink c.lastbucket rest (rest.head?.all (·.time ≠ e.time))
  if c.statQsize < c.botThreshold then c.resize cfg (c.nbuckets / 2) c.calClock else .ok c

def deque : Except SchedulerAbort (Option (Event η) × CalendarScheduler η) := do
  let (o, c) ← c.head
  match o with
  | none => return (none, c)
  | some e =>
    let c ← c.observeGap cfg e
    let c ← c.removeHead cfg e
    return (some e, c)

def cancel [DecidableEq η] (e : Event η) :
    Except SchedulerAbort (Event η × CalendarScheduler η) :=
  if e.uid ≤ 0 then .ok (e, c)
  else
    let i := c.hash e.time
    let b := c.buckets i
    -- the other events of the circular list from the one behind `e` on
    let front := b.list.takeWhile (· ≠ e)
    let others := (b.list.dropWhile (· ≠ e)).tail ++ front
    let unique := others.head?.all (·.time ≠ e.time) && others.getLast?.all (·.time ≠ e.time)
    let c := c.unlink i (b.list.erase e) unique
    if unique ∧ c.statQsize < 0 then .error .assertion
    else if unique ∧ (c.buckets i).count < 0 then .error .assertion
    else if others = [] ∧ b.list.head? ≠ some e then .error .assertion
    else if (c.buckets i).count = 0 ∧ (c.buckets i).list ≠ [] then .error .assertion
    else .ok (e.negateUid, c)

def lookup (uid : ℤ) : Option (Event η) :=
  (List.range c.nbuckets).findSome? fun i => (c.buckets i).list.find? (·.uid = uid)

end CalendarScheduler

def calendarScheduler (η : Type) [DecidableEq η] (cfg : CalendarConfig) :
    SchedulerClass η (CalendarScheduler η) where
  insert e c := c.insert cfg e
  cancel e c := c.cancel e
  lookup u c := c.lookup u
  deque c := c.deque cfg
  head c := c.head

/-- A calendar from its constructor, which leaves the statistics as they are unless
`adjust_new_width_interval_` is set. -/
def CalendarScheduler.IsNew {η : Type} (cfg : CalendarConfig) (c : CalendarScheduler η) : Prop :=
  c = c.reinit 4 1 0 ∧ c.calClock = 0 ∧
    (cfg.adjustNewWidthInterval ≠ 0 → c.avgGap = -2 ∧ c.lastTime = -2 ∧ c.gapNum = 0 ∧
      c.headSearch = 0 ∧ c.insertSearch = 0 ∧ c.roundNum = 0 ∧
      c.timeToNewwidth = cfg.adjustNewWidthInterval)

end Ns2XPass
