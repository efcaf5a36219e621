import Mathlib.Algebra.Order.Monoid.WithTop
import Mathlib.Algebra.Ring.Rat
import Ns2XPass.Library.Except

/-! # Timers

A `TimerHandler` keeps its status and the time of its event. `sched` insists on
an idle timer, `cancel` and `handle` on a pending one; `resched` and
`forceCancel` accept any. A delay that is not finite leaves the event pending
for ever.
-/

namespace Ns2XPass

inductive TimerStatus | idle | pending | handling
  deriving DecidableEq, Repr

structure TimerHandler where
  status : TimerStatus := .idle
  time : WithTop ℚ := 0
  deriving DecidableEq

namespace TimerHandler

/-- The calls that abort the simulation. -/
inductive Abort | cancelNotScheduled | schedNotIdle | handleNotPending
  deriving DecidableEq, Repr

variable (now : ℚ) (delay : WithTop ℚ) (t : TimerHandler)

def cancel : Except Abort TimerHandler :=
  if t.status ≠ .pending then .error .cancelNotScheduled else .ok { t with status := .idle }

def sched : Except Abort TimerHandler :=
  if t.status ≠ .idle then .error .schedNotIdle
  else .ok { status := .pending, time := now + delay }

def resched : TimerHandler := { status := .pending, time := now + delay }

def forceCancel : TimerHandler :=
  if t.status = .pending then { t with status := .idle } else t

/-- `handle` up to its call of `expire`. -/
def beginHandle : Except Abort TimerHandler :=
  if t.status ≠ .pending then .error .handleNotPending else .ok { t with status := .handling }

/-- `handle` from the return of `expire` on. -/
def endHandle : TimerHandler :=
  if t.status = .handling then { t with status := .idle } else t

variable {now : ℚ} {delay : WithTop ℚ} {t t' : TimerHandler} {e : Abort}

theorem sched_eq_ok_iff :
    t.sched now delay = .ok t' ↔ t.status = .idle ∧ t' = resched now delay := by
  simp only [sched, resched]
  split_ifs with h <;> simp_all [eq_comm]

theorem sched_eq_error_iff :
    t.sched now delay = .error e ↔ t.status ≠ .idle ∧ e = .schedNotIdle := by
  simp only [sched]
  split_ifs with h <;> simp_all [eq_comm]

theorem beginHandle_eq_ok_iff :
    t.beginHandle = .ok t' ↔ t.status = .pending ∧ t' = { t with status := .handling } := by
  simp only [beginHandle]
  split_ifs with h <;> simp_all [eq_comm]

theorem beginHandle_eq_error_iff :
    t.beginHandle = .error e ↔ t.status ≠ .pending ∧ e = .handleNotPending := by
  simp only [beginHandle]
  split_ifs with h <;> simp_all [eq_comm]

theorem forceCancel_status (h : t.status ≠ .handling) : t.forceCancel.status = .idle := by
  cases hs : t.status <;> simp_all [forceCancel]

theorem endHandle_of_ne (h : t.status ≠ .handling) : t.endHandle = t := if_neg h

theorem forceCancel_endHandle_status : t.forceCancel.endHandle.status = .idle := by
  cases hs : t.status <;> simp [forceCancel, endHandle, hs]

/-- Between two events a timer is pending when its owner waits for it, and idle otherwise. -/
def Armed (t : TimerHandler) (P : Prop) : Prop :=
  t.status = .pending ∧ P ∨ t.status = .idle ∧ ¬ P

variable {P Q : Prop}

theorem Armed.pending_iff (h : t.Armed P) : t.status = .pending ↔ P := by
  rcases h with ⟨h, hP⟩ | ⟨h, hP⟩ <;> simp [h, hP]

theorem Armed.idle_iff (h : t.Armed P) : t.status = .idle ↔ ¬ P := by
  rcases h with ⟨h, hP⟩ | ⟨h, hP⟩ <;> simp [h, hP]

theorem Armed.ne_handling (h : t.Armed P) : t.status ≠ .handling := by
  rcases h with ⟨h, _⟩ | ⟨h, _⟩ <;> simp [h]

theorem Armed.resched (hP : P) : (resched now delay).Armed P := .inl ⟨rfl, hP⟩

theorem Armed.idle (hs : t.status = .idle) (hP : ¬ P) : t.Armed P := .inr ⟨hs, hP⟩

theorem Armed.forceCancel (h : t.Armed P) (hQ : ¬ Q) : t.forceCancel.Armed Q :=
  .inr ⟨forceCancel_status h.ne_handling, hQ⟩

end TimerHandler

end Ns2XPass
