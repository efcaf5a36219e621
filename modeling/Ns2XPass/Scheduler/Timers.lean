import Ns2XPass.Common.TimerHandler
import Ns2XPass.Library.Machine
import Ns2XPass.Scheduler.Basic

/-! # Timers that share a scheduler

`schedule` gives the event of a timer a fresh uid and inserts it; the uid is
negated when the event is cancelled or dispatched. While a timer expires, any
timer may be called and further events may be dispatched.
-/

namespace Ns2XPass

structure Timer (ι : Type) where
  status : TimerStatus := .idle
  event : Event ι

/-- The scheduler, the timers, and the timers whose `expire` is running, the last one first. -/
structure Simulator (ι σ : Type) where
  clock : ℚ := 0
  uid : ℤ := 1
  queue : σ
  timers : ι → Timer ι
  expiring : List ι := []

inductive SimulatorAbort
  | uidNotValid
  | uidExhausted
  | goingBackwards
  | timer (a : TimerHandler.Abort)
  | scheduler (a : SchedulerAbort)
  deriving DecidableEq, Repr

/-- `uid_++` on a signed integer of 64 bits. -/
def nextUid (uid : ℤ) : ℤ := if uid = 2 ^ 63 - 1 then -2 ^ 63 else uid + 1

variable {ι σ : Type} [DecidableEq ι]

namespace Simulator

variable (Q : SchedulerClass ι σ) (i : ι) (delay : ℚ) (s : Simulator ι σ)

def setTimer (t : Timer ι) : Simulator ι σ := { s with timers := Function.update s.timers i t }

def setStatus (status : TimerStatus) : Simulator ι σ :=
  s.setTimer i { s.timers i with status }

/-- `_sched`, with `Scheduler::schedule`. -/
def schedule : Except SimulatorAbort (Simulator ι σ) :=
  if 0 < (s.timers i).event.uid then .error .uidNotValid
  else if s.uid < 0 then .error .uidExhausted
  else
    let event : Event ι := { time := s.clock + delay, uid := s.uid, handler := i }
    match Q.insert event s.queue with
    | .error a => .error (.scheduler a)
    | .ok queue =>
      .ok ({ s with uid := nextUid s.uid, queue }.setTimer i { s.timers i with event })

/-- `_cancel`. -/
def unschedule : Except SimulatorAbort (Simulator ι σ) :=
  match Q.cancel (s.timers i).event s.queue with
  | .error a => .error (.scheduler a)
  | .ok (event, queue) => .ok ({ s with queue }.setTimer i { s.timers i with event })

def cancel : Except SimulatorAbort (Simulator ι σ) :=
  if (s.timers i).status ≠ .pending then .error (.timer .cancelNotScheduled)
  else (s.unschedule Q i).map (·.setStatus i .idle)

def sched : Except SimulatorAbort (Simulator ι σ) :=
  if (s.timers i).status ≠ .idle then .error (.timer .schedNotIdle)
  else (s.schedule Q i delay).map (·.setStatus i .pending)

def resched : Except SimulatorAbort (Simulator ι σ) := do
  let s ← if (s.timers i).status = .pending then s.unschedule Q i else .ok s
  (s.schedule Q i delay).map (·.setStatus i .pending)

def forceCancel : Except SimulatorAbort (Simulator ι σ) :=
  if (s.timers i).status = .pending then (s.unschedule Q i).map (·.setStatus i .idle) else .ok s

/-- `handle` up to its call of `expire`. -/
def beginHandle : Except SimulatorAbort (Simulator ι σ) :=
  if (s.timers i).status ≠ .pending then .error (.timer .handleNotPending)
  else .ok { s.setStatus i .handling with expiring := i :: s.expiring }

/-- `handle` from the return of `expire` on. -/
def endHandle : Simulator ι σ :=
  match s.expiring with
  | [] => s
  | i :: expiring =>
    if (s.timers i).status = .handling then { s.setStatus i .idle with expiring }
    else { s with expiring }

/-- An iteration of `run`, up to the call of `expire`. -/
def dispatch : Except SimulatorAbort (Simulator ι σ) :=
  match Q.deque s.queue with
  | .error a => .error (.scheduler a)
  | .ok (none, queue) => .ok { s with queue }
  | .ok (some p, queue) =>
    if p.time < s.clock then .error .goingBackwards
    else
      let t := s.timers p.handler
      ({ s with clock := p.time, queue }.setTimer p.handler
        { t with event := t.event.negateUid }).beginHandle p.handler

end Simulator

inductive TimerCall (ι : Type)
  | sched (i : ι) (delay : ℚ)
  | resched (i : ι) (delay : ℚ)
  | cancel (i : ι)
  | forceCancel (i : ι)
  | dispatch
  | endHandle
  deriving DecidableEq

namespace TimerCall

/-- What callers see to. -/
def Enabled (s : Simulator ι σ) : TimerCall ι → Prop
  | sched i _ => (s.timers i).status = .idle
  | cancel i => (s.timers i).status = .pending
  | endHandle => s.expiring ≠ []
  | _ => True

def step (Q : SchedulerClass ι σ) (s : Simulator ι σ) :
    TimerCall ι → Except SimulatorAbort (Simulator ι σ)
  | sched i delay => s.sched Q i delay
  | resched i delay => s.resched Q i delay
  | cancel i => s.cancel Q i
  | forceCancel i => s.forceCancel Q i
  | dispatch => s.dispatch Q
  | endHandle => .ok s.endHandle

def NonNegative : TimerCall ι → Prop
  | sched _ delay => 0 ≤ delay
  | resched _ delay => 0 ≤ delay
  | _ => True

end TimerCall

/-- Any number of timers on a scheduler, from its construction on. -/
def timerMachine (Q : SchedulerClass ι σ) (empty : σ) :
    Machine (Simulator ι σ) (TimerCall ι) SimulatorAbort where
  Init s := s.clock = 0 ∧ s.uid = 1 ∧ s.queue = empty ∧ s.expiring = [] ∧
    ∀ i, (s.timers i).status = .idle ∧ (s.timers i).event.uid = 0
  Enabled s x := x.Enabled s
  step s x := x.step Q s

section Simulation

variable {Q : SchedulerClass ι σ} {R : σ → List (Event ι) → Prop} {s : σ} {q : List (Event ι)}
  {e : Event ι}

theorem Simulates.insert (hQ : Simulates Q.call listScheduler.call LegalCall R) (hR : R s q)
    (hp : 0 < e.uid) (hu : ∀ x ∈ q, x.uid < e.uid) :
    ∃ s', Q.insert e s = .ok s' ∧ R s' (ListScheduler.insert e q) := by
  obtain ⟨o, s', q', hs, hq, hR'⟩ := hQ s q (.insert e) hR ⟨hp, hu⟩
  cases hq
  cases hi : Q.insert e s with
  | error a => simp [SchedulerClass.call, hi, Except.map] at hs
  | ok s'' =>
    obtain rfl : s'' = s' := by simpa [SchedulerClass.call, hi, Except.map] using hs
    exact ⟨_, rfl, hR'⟩

theorem Simulates.cancel (hQ : Simulates Q.call listScheduler.call LegalCall R) (hR : R s q)
    (hq : Queued q) (he : e ∈ q) :
    ∃ s', Q.cancel e s = .ok (e.negateUid, s') ∧ R s' (q.erase e) := by
  obtain ⟨o, s', q', hs, hl, hR'⟩ := hQ s q (.cancel e) hR he
  have hl' : (Except.ok (some e.negateUid, q.erase e) : Except SchedulerAbort _) = .ok (o, q') := by
    rw [← hl]
    change _ = (ListScheduler.cancel e q).map _
    rw [ListScheduler.cancel_eq hq he]
    rfl
  cases hl'
  cases hc : Q.cancel e s with
  | error a => simp [SchedulerClass.call, hc, Except.map] at hs
  | ok r =>
    obtain ⟨hr, rfl⟩ : r.1 = e.negateUid ∧ r.2 = s' := by
      simpa [SchedulerClass.call, hc, Except.map] using hs
    exact ⟨r.2, by rw [← hr], hR'⟩

theorem Simulates.deque (hQ : Simulates Q.call listScheduler.call LegalCall R) (hR : R s q) :
    ∃ s', Q.deque s = .ok (q.head?, s') ∧ R s' q.tail := by
  obtain ⟨o, s', q', hs, hq, hR'⟩ := hQ s q .deque hR trivial
  cases q with
  | nil => cases hq; exact ⟨s', hs, hR'⟩
  | cons e q => cases hq; exact ⟨s', hs, hR'⟩

end Simulation

namespace Simulator

variable {Q : SchedulerClass ι σ} {R : σ → List (Event ι) → Prop} {s s' : Simulator ι σ}
  {q : List (Event ι)} {i j : ι} {delay : ℚ} {t : Timer ι} {queue : σ}

@[simp] theorem setTimer_self : (s.setTimer i t).timers i = t := Function.update_self ..

@[simp] theorem setTimer_of_ne (h : j ≠ i) : (s.setTimer i t).timers j = s.timers j :=
  Function.update_of_ne h ..

theorem nextUid_cases (u : ℤ) : nextUid u < 0 ∨ u < nextUid u := by
  rw [nextUid]
  split_ifs
  · exact .inl (by decide)
  · exact .inr (Int.lt_succ u)

theorem setTimer_setTimer (t' : Timer ι) : (s.setTimer i t).setTimer i t' = s.setTimer i t' := by
  simp [setTimer]

/-! ## What a call does -/

/-- A timer is pending after a call. -/
def armed (s : Simulator ι σ) (i : ι) (delay : ℚ) (queue : σ) : Simulator ι σ :=
  { s with uid := nextUid s.uid, queue }.setTimer i ⟨.pending, ⟨s.clock + delay, s.uid, i⟩⟩

/-- A timer is not pending any more after a call. -/
def disarmed (s : Simulator ι σ) (i : ι) (status : TimerStatus) (queue : σ) : Simulator ι σ :=
  { s with queue }.setTimer i ⟨status, (s.timers i).event.negateUid⟩

/-- A timer is pending when its uid is positive, and then its event is in the queue. -/
structure Agree (R : σ → List (Event ι) → Prop) (s : Simulator ι σ) (q : List (Event ι)) :
    Prop where
  sim : R s.queue q
  queued : Queued q
  mem_iff : ∀ i, (s.timers i).event ∈ q ↔ 0 < (s.timers i).event.uid
  owner : ∀ e ∈ q, (s.timers e.handler).event = e
  handler : ∀ i, 0 < (s.timers i).event.uid → (s.timers i).event.handler = i
  pending : ∀ i, (s.timers i).status = .pending ↔ 0 < (s.timers i).event.uid
  fresh : s.uid < 0 ∨ 0 < s.uid ∧ ∀ e ∈ q, e.uid < s.uid

namespace Agree

variable (h : Agree R s q)

include h

omit [DecidableEq ι] in
theorem event_ne (hij : j ≠ i) (hp : 0 < (s.timers i).event.uid) :
    (s.timers j).event ≠ (s.timers i).event := fun he =>
  hij ((h.handler j (he ▸ hp)).symm.trans ((congrArg Event.handler he).trans (h.handler i hp)))

theorem disarmed {status : TimerStatus} (hp : 0 < (s.timers i).event.uid)
    (hs : status ≠ .pending) (hR : R queue (q.erase (s.timers i).event)) :
    Agree R (s.disarmed i status queue) (q.erase (s.timers i).event) := by
  have hneg : ¬ 0 < (s.timers i).event.negateUid.uid := by
    change ¬ 0 < -(s.timers i).event.uid
    omega
  have hself : (s.disarmed i status queue).timers i = ⟨status, (s.timers i).event.negateUid⟩ :=
    setTimer_self
  have hother : ∀ j, j ≠ i → (s.disarmed i status queue).timers j = s.timers j :=
    fun j hj => setTimer_of_ne hj
  have hq := h.queued.sublist (List.erase_sublist (a := (s.timers i).event))
  refine ⟨hR, hq, fun j => ?_, fun e he => ?_, fun j => ?_, fun j => ?_, ?_⟩
  · by_cases hj : j = i
    · rw [hj, hself]
      exact iff_of_false (fun hm => hneg (hq.positive _ hm)) hneg
    · rw [hother j hj, List.mem_erase_of_ne (h.event_ne hj hp), h.mem_iff]
  · obtain ⟨hne, hm⟩ := h.queued.inOrder.nodup.mem_erase_iff.mp he
    have hi : e.handler ≠ i := fun hi => hne (hi ▸ (h.owner e hm).symm)
    rw [hother _ hi, h.owner e hm]
  · by_cases hj : j = i
    · rw [hj, hself]
      exact fun hp' => absurd hp' hneg
    · rw [hother j hj]
      exact h.handler j
  · by_cases hj : j = i
    · rw [hj, hself]
      exact iff_of_false hs hneg
    · rw [hother j hj]
      exact h.pending j
  · exact h.fresh.imp_right fun ⟨hu, hlt⟩ => ⟨hu, fun e he => hlt e (List.mem_of_mem_erase he)⟩

theorem armed (hn : ¬ 0 < (s.timers i).event.uid) (hu : 0 < s.uid)
    (hR : R queue (ListScheduler.insert ⟨s.clock + delay, s.uid, i⟩ q)) :
    Agree R (s.armed i delay queue) (ListScheduler.insert ⟨s.clock + delay, s.uid, i⟩ q) := by
  have hlt := (h.fresh.resolve_left hu.not_gt).2
  have hself : (s.armed i delay queue).timers i = ⟨.pending, ⟨s.clock + delay, s.uid, i⟩⟩ :=
    setTimer_self
  have hother : ∀ j, j ≠ i → (s.armed i delay queue).timers j = s.timers j :=
    fun j hj => setTimer_of_ne hj
  refine ⟨hR, h.queued.insert hu hlt, fun j => ?_, fun e he => ?_, fun j => ?_, fun j => ?_, ?_⟩
  · rw [ListScheduler.mem_insert_iff]
    by_cases hj : j = i
    · rw [hj, hself]
      exact iff_of_true (.inl rfl) hu
    · rw [hother j hj, ← h.mem_iff j]
      refine or_iff_right fun he => ?_
      have huid : (s.timers j).event.uid = s.uid := by rw [he]
      exact (hlt _ ((h.mem_iff j).mpr (huid ▸ hu))).ne huid
  · rcases ListScheduler.mem_insert_iff.mp he with rfl | hm
    · rw [hself]
    · have hi : e.handler ≠ i := by
        rintro rfl
        exact hn ((h.owner e hm).symm ▸ h.queued.positive e hm)
      rw [hother _ hi, h.owner e hm]
  · by_cases hj : j = i
    · rw [hj, hself]
      exact fun _ => rfl
    · rw [hother j hj]
      exact h.handler j
  · by_cases hj : j = i
    · rw [hj, hself]
      exact iff_of_true rfl hu
    · rw [hother j hj]
      exact h.pending j
  · refine (nextUid_cases s.uid).imp_right fun hnext => ⟨hu.trans hnext, fun e he => ?_⟩
    rcases ListScheduler.mem_insert_iff.mp he with rfl | he
    · exact hnext
    · exact (hlt e he).trans hnext

end Agree

/-! ## Calls of the scheduler -/

section Calls

variable (hQ : Simulates Q.call listScheduler.call LegalCall R)

include hQ

theorem schedule_eq (hR : R s.queue q) (hn : ¬ 0 < (s.timers i).event.uid) (hu : 0 < s.uid)
    (hlt : ∀ e ∈ q, e.uid < s.uid) :
    ∃ queue, (s.schedule Q i delay).map (·.setStatus i .pending) = .ok (s.armed i delay queue) ∧
      R queue (ListScheduler.insert ⟨s.clock + delay, s.uid, i⟩ q) := by
  obtain ⟨queue, hi, hR'⟩ := hQ.insert (e := ⟨s.clock + delay, s.uid, i⟩) hR hu hlt
  refine ⟨queue, ?_, hR'⟩
  simp [schedule, hn, hu.not_gt, hi, Except.map, armed, setStatus, setTimer_setTimer]

theorem unschedule_eq (h : Agree R s q) (hp : 0 < (s.timers i).event.uid) :
    ∃ queue, s.unschedule Q i = .ok (s.disarmed i (s.timers i).status queue) ∧
      R queue (q.erase (s.timers i).event) := by
  obtain ⟨queue, hc, hR'⟩ := hQ.cancel h.sim h.queued ((h.mem_iff i).mpr hp)
  exact ⟨queue, by simp [unschedule, hc, disarmed], hR'⟩

end Calls

/-- What calls do to the timers and to the queue when none of them aborts. -/
inductive Outcome (s : Simulator ι σ) (q : List (Event ι)) :
    TimerCall ι → Simulator ι σ → List (Event ι) → Prop
  | sched (i : ι) (delay : ℚ) (queue : σ) : (s.timers i).status = .idle →
      Outcome s q (.sched i delay) (s.armed i delay queue)
        (ListScheduler.insert ⟨s.clock + delay, s.uid, i⟩ q)
  | resched (i : ι) (delay : ℚ) (queue : σ) :
      Outcome s q (.resched i delay) (s.armed i delay queue)
        (ListScheduler.insert ⟨s.clock + delay, s.uid, i⟩ (q.erase (s.timers i).event))
  | cancel (i : ι) (queue : σ) : (s.timers i).status = .pending →
      Outcome s q (.cancel i) (s.disarmed i .idle queue) (q.erase (s.timers i).event)
  | forceCancel (i : ι) (queue : σ) : (s.timers i).status = .pending →
      Outcome s q (.forceCancel i) (s.disarmed i .idle queue) (q.erase (s.timers i).event)
  | notPending (i : ι) : (s.timers i).status ≠ .pending → Outcome s q (.forceCancel i) s q
  | expire (i : ι) (queue : σ) : (s.timers i).status = .pending → q.head? = some (s.timers i).event →
      s.clock ≤ (s.timers i).event.time →
      Outcome s q .dispatch
        { s.disarmed i .handling queue with
          clock := (s.timers i).event.time, expiring := i :: s.expiring }
        (q.erase (s.timers i).event)
  | empty (queue : σ) : q = [] → Outcome s q .dispatch { s with queue } []
  | endHandle : Outcome s q .endHandle s.endHandle q

/-- The aborts that are left: the uids are exhausted, or a delay was negative. -/
inductive Fails (s : Simulator ι σ) (q : List (Event ι)) : TimerCall ι → SimulatorAbort → Prop
  | uidExhausted {x} : s.uid < 0 → Fails s q x .uidExhausted
  | goingBackwards {e} : e ∈ q → e.time < s.clock → Fails s q .dispatch .goingBackwards

theorem armed_disarmed {status : TimerStatus} {queue' : σ} :
    (s.disarmed i status queue).armed i delay queue' = s.armed i delay queue' := by
  simp [armed, disarmed, setTimer]

theorem Agree.setHandled (h : Agree R s q) (hs : (s.timers i).status = .handling) :
    Agree R (s.setStatus i .idle) q := by
  have hev : ∀ j, ((s.setStatus i .idle).timers j).event = (s.timers j).event := fun j => by
    by_cases hj : j = i
    · rw [hj, setStatus, setTimer_self]
    · rw [setStatus, setTimer_of_ne hj]
  refine ⟨h.sim, h.queued, fun j => ?_, fun e he => (hev _).trans (h.owner e he), fun j => ?_,
    fun j => ?_, h.fresh⟩
  · rw [hev]
    exact h.mem_iff j
  · rw [hev]
    exact h.handler j
  · rw [hev, ← h.pending]
    by_cases hj : j = i
    · rw [hj, setStatus, setTimer_self, hs]
      exact iff_of_false TimerStatus.noConfusion TimerStatus.noConfusion
    · rw [setStatus, setTimer_of_ne hj]

omit [DecidableEq ι] in
theorem Agree.setExpiring (h : Agree R s q) (expiring : List ι) (clock : ℚ) :
    Agree R { s with clock, expiring } q :=
  ⟨h.sim, h.queued, h.mem_iff, h.owner, h.handler, h.pending, h.fresh⟩

theorem Agree.endHandle (h : Agree R s q) : Agree R s.endHandle q := by
  rw [Simulator.endHandle]
  split
  · exact h
  · split_ifs with hs
    · exact (h.setHandled hs).setExpiring _ _
    · exact h.setExpiring _ _

section Step

variable (hQ : Simulates Q.call listScheduler.call LegalCall R) (h : Agree R s q)

include hQ h

theorem Agree.sched (hi : (s.timers i).status = .idle) :
    (∃ queue, s.sched Q i delay = .ok (s.armed i delay queue) ∧ Agree R (s.armed i delay queue)
      (ListScheduler.insert ⟨s.clock + delay, s.uid, i⟩ q)) ∨
      s.uid < 0 ∧ s.sched Q i delay = .error .uidExhausted := by
  have hn : ¬ 0 < (s.timers i).event.uid := by
    rw [← h.pending, hi]
    exact TimerStatus.noConfusion
  rw [Simulator.sched, if_neg (not_not.mpr hi)]
  rcases h.fresh with hu | ⟨hu, hlt⟩
  · exact .inr ⟨hu, by simp [schedule, hn, hu, Except.map]⟩
  · obtain ⟨queue, hs, hR⟩ := schedule_eq hQ h.sim hn hu hlt
    exact .inl ⟨queue, hs, h.armed hn hu hR⟩

/-- The timer is unscheduled. -/
theorem Agree.unschedule (hi : (s.timers i).status = .pending) :
    ∃ queue, s.unschedule Q i = .ok (s.disarmed i .pending queue) ∧
      ∀ status, status ≠ .pending →
        Agree R (s.disarmed i status queue) (q.erase (s.timers i).event) := by
  have hp := (h.pending i).mp hi
  obtain ⟨queue, hs, hR⟩ := unschedule_eq hQ h hp
  exact ⟨queue, hi ▸ hs, fun status hne => h.disarmed hp hne hR⟩

theorem Agree.resched :
    (∃ queue, s.resched Q i delay = .ok (s.armed i delay queue) ∧ Agree R (s.armed i delay queue)
      (ListScheduler.insert ⟨s.clock + delay, s.uid, i⟩ (q.erase (s.timers i).event))) ∨
      s.uid < 0 ∧ s.resched Q i delay = .error .uidExhausted := by
  rw [Simulator.resched]
  by_cases hi : (s.timers i).status = .pending
  · obtain ⟨queue, hs, hA⟩ := h.unschedule hQ hi
    have hidle := hA .idle TimerStatus.noConfusion
    have hn : ∀ status, ¬ 0 < ((s.disarmed i status queue).timers i).event.uid := fun status => by
      have hp := (h.pending i).mp hi
      rw [Simulator.disarmed, setTimer_self]
      change ¬ 0 < -(s.timers i).event.uid
      omega
    rw [if_pos hi, hs]
    change (∃ queue', Except.map _ ((s.disarmed i .pending queue).schedule Q i delay) = _ ∧ _) ∨
      _ ∧ Except.map _ ((s.disarmed i .pending queue).schedule Q i delay) = _
    rcases hidle.fresh with hu | ⟨hu, hlt⟩
    · have hu' : (s.disarmed i .pending queue).uid < 0 := hu
      exact .inr ⟨hu, by simp [schedule, hn, hu', Except.map]⟩
    · obtain ⟨queue', hs', hR'⟩ := schedule_eq (s := s.disarmed i .pending queue) hQ hidle.sim
        (hn .pending) hu hlt
      refine .inl ⟨queue', by rw [hs', armed_disarmed], ?_⟩
      have hA' := hidle.armed (hn .idle) hu hR'
      rwa [armed_disarmed] at hA'
  · have hn : ¬ 0 < (s.timers i).event.uid := fun hp => hi ((h.pending i).mpr hp)
    have hq : q.erase (s.timers i).event = q :=
      List.erase_of_not_mem fun hm => hn ((h.mem_iff i).mp hm)
    rw [if_neg hi, hq]
    change (∃ queue', Except.map _ (s.schedule Q i delay) = _ ∧ _) ∨
      _ ∧ Except.map _ (s.schedule Q i delay) = _
    rcases h.fresh with hu | ⟨hu, hlt⟩
    · exact .inr ⟨hu, by simp [schedule, hn, hu, Except.map]⟩
    · obtain ⟨queue, hs, hR⟩ := schedule_eq hQ h.sim hn hu hlt
      exact .inl ⟨queue, hs, h.armed hn hu hR⟩

theorem Agree.dispatch :
    (∃ s' q', s.dispatch Q = .ok s' ∧ Outcome s q .dispatch s' q' ∧ Agree R s' q') ∨
      s.dispatch Q = .error .goingBackwards ∧ ∃ e ∈ q, e.time < s.clock := by
  obtain ⟨queue, hd, hR⟩ := hQ.deque h.sim
  rw [Simulator.dispatch, hd]
  cases q with
  | nil =>
    exact .inl ⟨_, _, rfl, .empty queue rfl,
      ⟨hR, h.queued, h.mem_iff, h.owner, h.handler, h.pending, h.fresh⟩⟩
  | cons p q =>
    have hp : p ∈ p :: q := List.mem_cons_self
    have hown := h.owner p hp
    have hpos : 0 < (s.timers p.handler).event.uid := hown.symm ▸ h.queued.positive p hp
    have hi := (h.pending p.handler).mpr hpos
    change (∃ s' q', (if p.time < s.clock then _ else _) = _ ∧ _) ∨
      (if p.time < s.clock then _ else _) = _ ∧ _
    split_ifs with ht
    · exact .inr ⟨rfl, p, hp, ht⟩
    · have hq : (p :: q).erase (s.timers p.handler).event = q := by
        rw [hown, List.erase_cons_head]
      have hA : Agree R (s.disarmed p.handler .handling queue) _ :=
        h.disarmed hpos TimerStatus.noConfusion (hq.symm ▸ hR)
      refine .inl ⟨_, _, ?_, .expire p.handler queue hi (congrArg some hown.symm)
        (hown.symm ▸ not_lt.mp ht), hA.setExpiring _ _⟩
      simp [beginHandle, hi, Simulator.disarmed, setStatus, setTimer, hown]

/-- Every call does what it should, or fails for one of the two reasons. -/
theorem Agree.step {x : TimerCall ι} (he : x.Enabled s) :
    (∃ s' q', x.step Q s = .ok s' ∧ Outcome s q x s' q' ∧ Agree R s' q') ∨
      ∃ a, x.step Q s = .error a ∧ Fails s q x a := by
  cases x with
  | sched i delay =>
    rcases h.sched hQ he with ⟨queue, hs, hA⟩ | ⟨hu, hs⟩
    · exact .inl ⟨_, _, hs, .sched i delay queue he, hA⟩
    · exact .inr ⟨_, hs, .uidExhausted hu⟩
  | resched i delay =>
    rcases h.resched hQ with ⟨queue, hs, hA⟩ | ⟨hu, hs⟩
    · exact .inl ⟨_, _, hs, .resched i delay queue, hA⟩
    · exact .inr ⟨_, hs, .uidExhausted hu⟩
  | cancel i =>
    have hi : (s.timers i).status = .pending := he
    obtain ⟨queue, hs, hA⟩ := h.unschedule hQ hi
    refine .inl ⟨_, _, ?_, .cancel i queue hi, hA .idle TimerStatus.noConfusion⟩
    change s.cancel Q i = _
    rw [Simulator.cancel, if_neg (not_not.mpr hi), hs]
    simp [Except.map, setStatus, Simulator.disarmed, setTimer]
  | forceCancel i =>
    change (∃ s' q', s.forceCancel Q i = _ ∧ _) ∨ ∃ a, s.forceCancel Q i = _ ∧ _
    rw [Simulator.forceCancel]
    split_ifs with hi
    · obtain ⟨queue, hs, hA⟩ := h.unschedule hQ hi
      refine .inl ⟨_, _, ?_, .forceCancel i queue hi, hA .idle TimerStatus.noConfusion⟩
      rw [hs]
      simp [Except.map, setStatus, Simulator.disarmed, setTimer]
    · exact .inl ⟨_, _, rfl, .notPending i hi, h⟩
  | dispatch =>
    rcases h.dispatch hQ with hs | ⟨hs, e, he, ht⟩
    · exact .inl hs
    · exact .inr ⟨_, hs, .goingBackwards he ht⟩
  | endHandle => exact .inl ⟨_, _, rfl, .endHandle, h.endHandle⟩

end Step

/-- No pending event is overdue. -/
def Punctual (s : Simulator ι σ) : Prop :=
  ∀ i, (s.timers i).status = .pending → s.clock ≤ (s.timers i).event.time

theorem endHandle_pending : (s.endHandle.timers i).status = .pending ↔
    (s.timers i).status = .pending := by
  rw [endHandle]
  split
  · rfl
  · next j expiring hj =>
    split_ifs with hs
    · by_cases hi : i = j
      · rw [hi, hs]
        simp [setStatus]
      · simp [setStatus, hi]
    · rfl

theorem endHandle_clock (s : Simulator ι σ) : s.endHandle.clock = s.clock := by
  rw [endHandle]
  split
  · rfl
  · split_ifs <;> rfl

theorem endHandle_event : (s.endHandle.timers i).event = (s.timers i).event := by
  rw [endHandle]
  split
  · rfl
  · next j expiring hj =>
    split_ifs with hs
    · by_cases hi : i = j
      · rw [hi]
        simp [setStatus]
      · simp [setStatus, hi]
    · rfl

theorem Punctual.armed (h : s.Punctual) (hd : 0 ≤ delay) : (s.armed i delay queue).Punctual := by
  intro j hj
  by_cases hji : j = i
  · subst hji
    rw [Simulator.armed, setTimer_self]
    exact le_add_of_nonneg_right hd
  · rw [Simulator.armed, setTimer_of_ne hji] at hj ⊢
    exact h j hj

theorem Punctual.disarmed {status : TimerStatus} (h : s.Punctual) (hs : status ≠ .pending) :
    (s.disarmed i status queue).Punctual := by
  intro j hj
  by_cases hji : j = i
  · subst hji
    rw [Simulator.disarmed, setTimer_self] at hj
    exact absurd hj hs
  · rw [Simulator.disarmed, setTimer_of_ne hji] at hj ⊢
    exact h j hj

omit [DecidableEq ι] in
/-- The head of the queue is due first. -/
theorem Agree.time_le (h : Agree R s q) (hq : q.head? = some (s.timers i).event)
    (hj : (s.timers j).status = .pending) : (s.timers i).event.time ≤ (s.timers j).event.time := by
  have hm : (s.timers j).event ∈ q := (h.mem_iff j).mpr ((h.pending j).mp hj)
  cases q with
  | nil => cases hm
  | cons p q =>
    obtain rfl : p = (s.timers i).event := Option.some.inj hq
    rcases List.mem_cons.mp hm with he | hm
    · rw [he]
    · exact Event.time_le_of_key ((inOrder_cons.mp h.queued.inOrder).1 _ hm).le

theorem Punctual.outcome {x : TimerCall ι} {q' : List (Event ι)} (hP : s.Punctual)
    (h : Agree R s q) (ho : Outcome s q x s' q') (hx : x.NonNegative) : s'.Punctual := by
  cases ho with
  | sched i delay queue hi => exact hP.armed hx
  | resched i delay queue => exact hP.armed hx
  | cancel i queue hi => exact hP.disarmed TimerStatus.noConfusion
  | forceCancel i queue hi => exact hP.disarmed TimerStatus.noConfusion
  | notPending i hi => exact hP
  | expire i queue hi hq ht =>
    intro j hj
    change ((s.disarmed i .handling queue).timers j).status = .pending at hj
    change (s.timers i).event.time ≤ ((s.disarmed i .handling queue).timers j).event.time
    by_cases hji : j = i
    · subst hji
      rw [Simulator.disarmed, setTimer_self] at hj
      exact TimerStatus.noConfusion hj
    · rw [Simulator.disarmed, setTimer_of_ne hji] at hj ⊢
      exact h.time_le hq hj
  | empty queue hq => exact hP
  | endHandle =>
    intro j hj
    rw [endHandle_event]
    exact (endHandle_clock s).symm ▸ hP j (endHandle_pending.mp hj)

end Simulator

/-! ## What has happened to the timers -/

inductive TimerEvent (ι : Type)
  | scheduled (i : ι) (time : ℚ)
  | cancelled (i : ι)
  | expired (i : ι) (time : ℚ)
  deriving DecidableEq

def TimerEvent.timer : TimerEvent ι → ι
  | scheduled i _ => i
  | cancelled i => i
  | expired i _ => i

/-- The timers that begin to expire in a step. -/
def Simulator.begun (s s' : Simulator ι σ) : List ι :=
  s'.expiring.take (s'.expiring.length - s.expiring.length)

def TimerCall.record (s : Simulator ι σ) (x : TimerCall ι) (s' : Simulator ι σ)
    (log : List (TimerEvent ι)) : List (TimerEvent ι) :=
  match x with
  | sched i _ => log ++ [.scheduled i (s'.timers i).event.time]
  | resched i _ => log ++ [.scheduled i (s'.timers i).event.time]
  | cancel i => log ++ [.cancelled i]
  | forceCancel i => if (s.timers i).status = .pending then log ++ [.cancelled i] else log
  | dispatch => log ++ (s.begun s').map fun i => .expired i s'.clock
  | endHandle => log

def lastOf (i : ι) (log : List (TimerEvent ι)) : Option (TimerEvent ι) :=
  (log.filter (·.timer = i)).getLast?

/-- A timer expires only at the time for which it was scheduled last, and not when it has been
cancelled since or has expired already. -/
def ExpiresAsScheduled (log : List (TimerEvent ι)) : Prop :=
  ∀ pre i time, pre ++ [.expired i time] <+: log → lastOf i pre = some (.scheduled i time)

section Log

variable {log : List (TimerEvent ι)} {o : TimerEvent ι} {i : ι}

theorem lastOf_append_self (h : o.timer = i) : lastOf i (log ++ [o]) = some o := by
  simp [lastOf, List.filter_append, h]

theorem lastOf_append_of_ne (h : o.timer ≠ i) : lastOf i (log ++ [o]) = lastOf i log := by
  simp [lastOf, List.filter_append, h]

theorem ExpiresAsScheduled.append (h : ExpiresAsScheduled log)
    (ho : ∀ i time, o = .expired i time → lastOf i log = some (.scheduled i time)) :
    ExpiresAsScheduled (log ++ [o]) := by
  intro pre i time hp
  rcases List.prefix_concat_iff.mp hp with heq | hp
  · obtain ⟨rfl, he⟩ := List.append_inj' heq rfl
    exact ho i time (List.singleton_inj.mp he).symm
  · exact h pre i time hp

end Log

namespace Simulator

variable {Q : SchedulerClass ι σ} {R : σ → List (Event ι) → Prop} {s s' : Simulator ι σ}
  {q q' : List (Event ι)} {i : ι} {log : List (TimerEvent ι)} {queue : σ}

/-- The last that happened to a pending timer is that it was scheduled. -/
structure Logged (s : Simulator ι σ) (log : List (TimerEvent ι)) : Prop where
  expires : ExpiresAsScheduled log
  pending : ∀ i, (s.timers i).status = .pending →
    lastOf i log = some (.scheduled i (s.timers i).event.time)

theorem Logged.armed {delay : ℚ} (h : s.Logged log) :
    (s.armed i delay queue).Logged (log ++ [.scheduled i (s.clock + delay)]) := by
  refine ⟨h.expires.append (fun j t ho => by cases ho), fun j hj => ?_⟩
  by_cases hji : j = i
  · subst hji
    rw [Simulator.armed, setTimer_self]
    exact lastOf_append_self rfl
  · rw [Simulator.armed, setTimer_of_ne hji] at hj ⊢
    rw [lastOf_append_of_ne (Ne.symm hji)]
    exact h.pending j hj

theorem Logged.disarmed {status : TimerStatus} {o : TimerEvent ι} (h : s.Logged log)
    (hs : status ≠ .pending) (hi : o.timer = i)
    (ho : ∀ i time, o = .expired i time → lastOf i log = some (.scheduled i time)) :
    (s.disarmed i status queue).Logged (log ++ [o]) := by
  refine ⟨h.expires.append ho, fun j hj => ?_⟩
  by_cases hji : j = i
  · subst hji
    rw [Simulator.disarmed, setTimer_self] at hj
    exact absurd hj hs
  · rw [Simulator.disarmed, setTimer_of_ne hji] at hj ⊢
    rw [lastOf_append_of_ne (hi.trans_ne (Ne.symm hji))]
    exact h.pending j hj

theorem Logged.outcome {x : TimerCall ι} (h : s.Logged log) (ho : Outcome s q x s' q') :
    s'.Logged (x.record s s' log) := by
  cases ho with
  | sched i delay queue hi =>
    have hl : (s.armed i delay queue).Logged (log ++ [.scheduled i (s.clock + delay)]) := h.armed
    rwa [TimerCall.record, Simulator.armed, setTimer_self]
  | resched i delay queue =>
    rw [TimerCall.record, Simulator.armed, setTimer_self]
    exact h.armed
  | cancel i queue hi =>
    exact h.disarmed TimerStatus.noConfusion rfl fun j t ho => by cases ho
  | forceCancel i queue hi =>
    rw [TimerCall.record, if_pos hi]
    exact h.disarmed TimerStatus.noConfusion rfl fun j t ho => by cases ho
  | notPending i hi => rwa [TimerCall.record, if_neg hi]
  | expire i queue hi hq ht =>
    have hl : (s.disarmed i .handling queue).Logged
        (log ++ [.expired i (s.timers i).event.time]) :=
      h.disarmed TimerStatus.noConfusion rfl fun j t ho => by cases ho; exact h.pending i hi
    have hb : begun s { s.disarmed i .handling queue with
        clock := (s.timers i).event.time, expiring := i :: s.expiring } = [i] := by simp [begun]
    rw [TimerCall.record, hb]
    exact ⟨hl.expires, hl.pending⟩
  | empty queue hq =>
    have hb : begun s { s with queue } = [] := by simp [begun]
    rw [TimerCall.record, hb, List.map_nil, List.append_nil]
    exact ⟨h.expires, h.pending⟩
  | endHandle =>
    refine ⟨h.expires, fun j hj => ?_⟩
    rw [endHandle_event]
    exact h.pending j (endHandle_pending.mp hj)

end Simulator

section Runs

variable {Q : SchedulerClass ι σ} {R : σ → List (Event ι) → Prop} {empty : σ}

/-- The timers, and what has happened to them. -/
def loggedTimers (Q : SchedulerClass ι σ) (empty : σ) :
    Machine (Simulator ι σ × List (TimerEvent ι)) (TimerCall ι) SimulatorAbort :=
  (timerMachine Q empty).withHistory [] fun s x s' log => x.record s s' log

theorem agree_invariant (hQ : Simulates Q.call listScheduler.call LegalCall R) (h₀ : R empty []) :
    (timerMachine Q empty).Invariant fun s => ∃ q, s.Agree R q where
  init s hs := by
    obtain ⟨-, hu, hq, -, ht⟩ := hs
    refine ⟨[], hq ▸ h₀, queued_nil, fun i => ?_, fun e he => absurd he List.not_mem_nil,
      fun i hi => ?_, fun i => ?_, .inr ⟨hu ▸ Int.one_pos, fun e he => absurd he List.not_mem_nil⟩⟩
    · rw [(ht i).2]
      exact iff_of_false List.not_mem_nil (lt_irrefl 0)
    · exact absurd ((ht i).2 ▸ hi) (lt_irrefl 0)
    · rw [(ht i).1, (ht i).2]
      exact iff_of_false TimerStatus.noConfusion (lt_irrefl 0)
  step s x s' := by
    rintro ⟨q, hA⟩ he hs
    rcases hA.step hQ he with ⟨t, q', ht, -, hA'⟩ | ⟨a, ha, -⟩
    · obtain rfl : s' = t := Except.ok.inj (hs.symm.trans ht)
      exact ⟨q', hA'⟩
    · exact absurd (hs.symm.trans ha) (by simp)

theorem loggedTimers_step {p p' : Simulator ι σ × List (TimerEvent ι)} {x : TimerCall ι}
    (hs : (loggedTimers Q empty).step p x = .ok p') :
    x.step Q p.1 = .ok p'.1 ∧ p'.2 = x.record p.1 p'.1 p.2 :=
  (Machine.withHistory_step_iff (M := timerMachine Q empty) _).mp hs

theorem loggedTimers_invariant (hQ : Simulates Q.call listScheduler.call LegalCall R)
    (h₀ : R empty []) :
    (loggedTimers Q empty).Invariant fun p => (∃ q, p.1.Agree R q) ∧ p.1.Logged p.2 := by
  refine (agree_invariant hQ h₀).withHistory.under ?_ ?_
  · rintro p ⟨⟨-, -, -, -, ht⟩, hlog⟩
    refine ⟨fun pre i time hp => by simp [hlog] at hp, fun i hi => ?_⟩
    rw [(ht i).1] at hi
    exact TimerStatus.noConfusion hi
  · rintro p x p' ⟨q, hA⟩ hL he hs
    obtain ⟨hs, hlog⟩ := loggedTimers_step hs
    rcases hA.step hQ he with ⟨t, q', ht, ho, -⟩ | ⟨a, ha, -⟩
    · obtain rfl : p'.1 = t := Except.ok.inj (hs.symm.trans ht)
      exact hlog ▸ hL.outcome ho
    · exact absurd (hs.symm.trans ha) (by simp)

theorem punctual_invariant (hQ : Simulates Q.call listScheduler.call LegalCall R)
    (h₀ : R empty []) :
    ((loggedTimers Q empty).restrict fun _ x => x.NonNegative).Invariant
      fun p => (∃ q, p.1.Agree R q) ∧ p.1.Punctual := by
  refine (agree_invariant hQ h₀).withHistory.restrict.under ?_ ?_
  · rintro p ⟨⟨-, -, -, -, ht⟩, -⟩ i hi
    rw [(ht i).1] at hi
    exact TimerStatus.noConfusion hi
  · rintro p x p' ⟨q, hA⟩ hP ⟨he, hx⟩ hs
    obtain ⟨hs, -⟩ := loggedTimers_step hs
    rcases hA.step hQ he with ⟨t, q', ht, ho, -⟩ | ⟨a, ha, -⟩
    · obtain rfl : p'.1 = t := Except.ok.inj (hs.symm.trans ht)
      exact hP.outcome hA ho hx
    · exact absurd (hs.symm.trans ha) (by simp)

/-- The events in the queue are those of the pending timers. -/
theorem Simulator.Agree.filter_eq {s : Simulator ι σ} {q : List (Event ι)} (h : s.Agree R q)
    (i : ι) : q.filter (·.handler = i) =
      if (s.timers i).status = .pending then [(s.timers i).event] else [] := by
  have hmem : ∀ e ∈ q.filter (·.handler = i), e = (s.timers i).event := fun e he => by
    obtain ⟨hm, hi⟩ := List.mem_filter.mp he
    rw [← of_decide_eq_true hi, h.owner e hm]
  have hnd := h.queued.inOrder.nodup.filter (fun e : Event ι => e.handler = i)
  split_ifs with hi
  · have hp := (h.pending i).mp hi
    have hm : (s.timers i).event ∈ q.filter (·.handler = i) :=
      List.mem_filter.mpr ⟨(h.mem_iff i).mpr hp, decide_eq_true (h.handler i hp)⟩
    refine List.perm_singleton.mp ((List.perm_ext_iff_of_nodup hnd (List.nodup_singleton _)).mpr
      fun e => ⟨fun he => List.mem_singleton.mpr (hmem e he), fun he => ?_⟩)
    rwa [List.mem_singleton.mp he]
  · refine List.eq_nil_iff_forall_not_mem.mpr fun e he => hi ?_
    rw [h.pending, ← h.mem_iff, ← hmem e he]
    exact (List.mem_filter.mp he).1

/-- In every state of every run a timer is pending when the uid of its event is positive, and then
its event is in the queue once. No call aborts, unless the uids are exhausted or, after a negative
delay, time goes backwards. A timer expires as it was scheduled last, unless it is cancelled. -/
theorem timers_agree (hQ : Simulates Q.call listScheduler.call LegalCall R) (h₀ : R empty [])
    {s : Simulator ι σ} {log : List (TimerEvent ι)}
    (hs : (loggedTimers Q empty).Reachable (s, log)) :
    (∃ q, R s.queue q ∧ ∀ i,
      ((s.timers i).status = .pending ↔ 0 < (s.timers i).event.uid) ∧
      (0 < (s.timers i).event.uid ↔ (s.timers i).event ∈ q) ∧
      q.filter (·.handler = i) =
        if (s.timers i).status = .pending then [(s.timers i).event] else []) ∧
    (∀ (x : TimerCall ι) a, x.Enabled s → x.step Q s = .error a →
      s.uid < 0 ∧ a = .uidExhausted ∨ x = .dispatch ∧ a = .goingBackwards) ∧
    ExpiresAsScheduled log ∧
    (((loggedTimers Q empty).restrict fun _ x => x.NonNegative).Reachable (s, log) →
      ∀ (x : TimerCall ι) a, x.Enabled s → x.step Q s = .error a → s.uid < 0 ∧ a = .uidExhausted) := by
  obtain ⟨⟨q, hA⟩, hL⟩ := (loggedTimers_invariant hQ h₀).reachable hs
  have hfail : ∀ (x : TimerCall ι) a, x.Enabled s → x.step Q s = .error a → s.Fails q x a := by
    intro x a he ha
    rcases hA.step hQ he with ⟨s', q', hs', -⟩ | ⟨a', ha', hf⟩
    · exact absurd (hs'.symm.trans ha) (by simp)
    · exact Except.error.inj (ha'.symm.trans ha) ▸ hf
  refine ⟨⟨q, hA.sim, fun i => ⟨hA.pending i, (hA.mem_iff i).symm, hA.filter_eq i⟩⟩,
    fun x a he ha => ?_, hL.expires, fun hn x a he ha => ?_⟩
  · cases hfail x a he ha with
    | uidExhausted hu => exact .inl ⟨hu, rfl⟩
    | goingBackwards hm ht => exact .inr ⟨rfl, rfl⟩
  · cases hfail x a he ha with
    | uidExhausted hu => exact ⟨hu, rfl⟩
    | @goingBackwards e hm ht =>
      obtain ⟨-, hP⟩ := (punctual_invariant hQ h₀).reachable hn
      have hown := hA.owner e hm
      have hi := (hA.pending e.handler).mpr (hown.symm ▸ hA.queued.positive e hm)
      exact absurd (hown ▸ hP e.handler hi) ht.not_ge

end Runs

section Witness

instance (Q : SchedulerClass ι σ) (empty : σ) (s : Simulator ι σ) :
    ∀ x, Decidable ((timerMachine Q empty).Enabled s x)
  | .sched i _ => inferInstanceAs (Decidable ((s.timers i).status = .idle))
  | .cancel i => inferInstanceAs (Decidable ((s.timers i).status = .pending))
  | .endHandle => inferInstanceAs (Decidable (s.expiring ≠ []))
  | .resched _ _ => .isTrue trivial
  | .forceCancel _ => .isTrue trivial
  | .dispatch => .isTrue trivial

instance (Q : SchedulerClass ι σ) (empty : σ) (p : Simulator ι σ × List (TimerEvent ι))
    (x : TimerCall ι) : Decidable ((loggedTimers Q empty).Enabled p x) :=
  inferInstanceAs (Decidable ((timerMachine Q empty).Enabled p.1 x))

theorem listScheduler_simulates :
    Simulates listScheduler.call listScheduler.call LegalCall
      (Eq : List (Event ι) → List (Event ι) → Prop) := by
  rintro q _ x rfl hx
  cases x with
  | insert e => exact ⟨_, _, _, rfl, rfl, rfl⟩
  | cancel e =>
    change ∃ o s' t', (ListScheduler.cancel e q).map _ = _ ∧ (ListScheduler.cancel e q).map _ = _ ∧ _
    rw [ListScheduler.cancel]
    split_ifs
    · exact ⟨_, _, _, rfl, rfl, rfl⟩
    · rw [ListScheduler.remove_eq hx]
      exact ⟨_, _, _, rfl, rfl, rfl⟩
  | lookup u => exact ⟨_, _, _, rfl, rfl, rfl⟩
  | deque => exact ⟨_, _, _, rfl, rfl, rfl⟩
  | head => exact ⟨_, _, _, rfl, rfl, rfl⟩

/-- Two timers; one is rescheduled and the other cancelled while the first expires. -/
def reentrantCalls : List (TimerCall Bool) :=
  [.sched true 3, .sched false 1, .dispatch, .resched false 1, .cancel true, .endHandle,
    .dispatch, .sched true 5, .endHandle]

theorem timers_agree_reentrant : ∃ (s : Simulator Bool (List (Event Bool))) (log : _),
    (loggedTimers listScheduler []).Reachable (s, log) ∧
    log = [.scheduled true 3, .scheduled false 1, .expired false 1, .scheduled false 2,
      .cancelled true, .expired false 2, .scheduled true 7] ∧
    ExpiresAsScheduled log ∧ s.queue.filter (·.handler = true) = [⟨7, 4, true⟩] := by
  have hstart : (loggedTimers listScheduler []).Reachable
      ((⟨0, 1, [], fun i => ⟨.idle, ⟨0, 0, i⟩⟩, []⟩ : Simulator Bool _), []) :=
    .init ⟨⟨rfl, rfl, rfl, rfl, fun _ => ⟨rfl, rfl⟩⟩, rfl⟩
  obtain ⟨⟨s, log⟩, hs, hp⟩ := hstart.exists_of_exec reentrantCalls
    (fun p => p.2 = [.scheduled true 3, .scheduled false 1, .expired false 1, .scheduled false 2,
      .cancelled true, .expired false 2, .scheduled true 7] ∧
      (p.1.timers true).status = .pending ∧ (p.1.timers true).event = ⟨7, 4, true⟩)
    (by decide +kernel)
  obtain ⟨hlog, hi, he⟩ := of_decide_eq_true hp
  obtain ⟨⟨q, rfl, hq⟩, -, hexp, -⟩ := timers_agree listScheduler_simulates rfl hs
  refine ⟨s, log, hs, hlog, hexp, ?_⟩
  rw [(hq true).2.2, if_pos hi, he]

end Witness

/-! ## The timers of the agents -/

section Handlers

variable {s s' : Simulator ι σ} {q q' : List (Event ι)}

/-- A timer as its owner sees it. -/
def Simulator.handler (s : Simulator ι σ) (i : ι) : TimerHandler :=
  ⟨(s.timers i).status, ((s.timers i).event.time : ℚ)⟩

/-- What a call is for the handler that it is about, `first` being that of the next event. -/
def TimerCall.onHandler (s : Simulator ι σ) (first : Option ι) (i : ι) (t : TimerHandler) :
    TimerCall ι → Except TimerHandler.Abort TimerHandler
  | sched j delay => if j = i then t.sched s.clock delay else .ok t
  | resched j delay => .ok (if j = i then .resched s.clock delay else t)
  | cancel j => if j = i then t.cancel else .ok t
  | forceCancel j => .ok (if j = i then t.forceCancel else t)
  | dispatch => if first = some i then t.beginHandle else .ok t
  | endHandle => .ok (if s.expiring.head? = some i then t.endHandle else t)

theorem Simulator.handler_armed (i j : ι) (delay : ℚ) (queue : σ) :
    (s.armed i delay queue).handler j =
      if i = j then .resched s.clock delay else s.handler j := by
  split_ifs with h
  · subst h
    rw [handler, armed, setTimer_self]
    rfl
  · rw [handler, armed, setTimer_of_ne (Ne.symm h), handler]

theorem Simulator.handler_disarmed (i j : ι) (status : TimerStatus) (queue : σ) :
    (s.disarmed i status queue).handler j =
      if i = j then { s.handler j with status } else s.handler j := by
  split_ifs with h
  · subst h
    rw [handler, disarmed, setTimer_self]
    rfl
  · rw [handler, disarmed, setTimer_of_ne (Ne.symm h), handler]

theorem Simulator.handler_endHandle (i : ι) : s.endHandle.handler i =
    if s.expiring.head? = some i then (s.handler i).endHandle else s.handler i := by
  rw [endHandle]
  cases he : s.expiring with
  | nil => rfl
  | cons j expiring =>
    simp only [List.head?_cons, Option.some.injEq]
    by_cases hji : j = i
    · subst hji
      rw [if_pos rfl, TimerHandler.endHandle]
      by_cases hs : (s.timers j).status = .handling
      · rw [if_pos hs, if_pos (show (s.handler j).status = .handling from hs), handler]
        simp [setStatus, handler]
      · rw [if_neg hs, if_neg (show ¬ (s.handler j).status = .handling from hs)]
        rfl
    · rw [if_neg hji]
      split_ifs
      · rw [handler]
        simp [setStatus, Ne.symm hji, handler]
      · rfl

/-- Each timer goes through what its handler does alone, and every other call leaves it alone. -/
theorem Simulator.Outcome.onHandler {R : σ → List (Event ι) → Prop} {x : TimerCall ι}
    (h : s.Agree R q) (ho : s.Outcome q x s' q') (i : ι) :
    x.onHandler s (q.head?.map Event.handler) i (s.handler i) = .ok (s'.handler i) := by
  cases ho with
  | sched j delay queue hj =>
    rw [TimerCall.onHandler, handler_armed]
    split_ifs with hji
    · exact TimerHandler.sched_eq_ok_iff.mpr ⟨hji ▸ hj, rfl⟩
    · rfl
  | resched j delay queue => rw [TimerCall.onHandler, handler_armed]
  | cancel j queue hj =>
    rw [TimerCall.onHandler, handler_disarmed]
    split_ifs with hji
    · rw [TimerHandler.cancel, if_neg (not_not.mpr (show (s.handler i).status = .pending from
        hji ▸ hj))]
    · rfl
  | forceCancel j queue hj =>
    rw [TimerCall.onHandler, handler_disarmed]
    split_ifs with hji
    · rw [TimerHandler.forceCancel, if_pos (show (s.handler i).status = .pending from hji ▸ hj)]
    · rfl
  | notPending j hj =>
    rw [TimerCall.onHandler]
    split_ifs with hji
    · rw [TimerHandler.forceCancel, if_neg (show ¬ (s.handler i).status = .pending from hji ▸ hj)]
    · rfl
  | expire j queue hj hq ht =>
    have hhead : q.head?.map Event.handler = some j := by
      rw [hq, Option.map_some, h.handler j ((h.pending j).mp hj)]
    rw [TimerCall.onHandler, hhead]
    simp only [Option.some.injEq]
    change _ = Except.ok ((s.disarmed j .handling queue).handler i)
    rw [handler_disarmed]
    split_ifs with hji
    · exact TimerHandler.beginHandle_eq_ok_iff.mpr ⟨hji ▸ hj, rfl⟩
    · rfl
  | empty queue hq => rw [hq]; rfl
  | endHandle => rw [TimerCall.onHandler, handler_endHandle]

end Handlers

end Ns2XPass
