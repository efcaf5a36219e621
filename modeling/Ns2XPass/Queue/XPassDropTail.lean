import Ns2XPass.Common.Numeric
import Ns2XPass.Common.TimerHandler
import Ns2XPass.Library.Machine
import Ns2XPass.Queue.PacketQueue

/-! # The queue of a switch port

`XPassDropTail` keeps credits and data in two queues, gives credits the rate of a
token bucket and waits for tokens with a timer. Packets arrive by `recv`, the
link asks for the next one by `resume`, and the timer expires.
-/

namespace Ns2XPass

/-- The bound variables of a queue, with the defaults of `ns-default.tcl`. -/
structure QueueConfig where
  creditQLimit : ℤ := 840
  dataQLimit : ℤ := 153800
  maxTokens : ℤ := 840
  tokenRefreshRate : ℚ := 64734895
  unblockOnResume : Bool := true

structure XPassDropTail where
  dataQ : PacketQueue := {}
  creditQ : PacketQueue := {}
  tokens : ℤ := 0
  tokenBucketClock : ℚ := 0
  creditTimer : TimerHandler := {}
  blocked : Bool := false

/-- The calls of `exit` and `abort` a queue can reach. -/
inductive QueueExit
  | timer (a : TimerHandler.Abort)
  | timerNotSet
  deriving DecidableEq

/-- A packet is handed to `target_` or dropped. -/
inductive QueueEffect
  | forward (p : Packet)
  | drop (p : Packet)
  deriving DecidableEq

namespace XPassDropTail

variable (cfg : QueueConfig) (now : ℚ)

def updateTokenBucket (q : XPassDropTail) : XPassDropTail :=
  let elapsedTime := now - q.tokenBucketClock
  if elapsedTime ≤ 0 then q
  else
    let newTokens := toInt (elapsedTime * cfg.tokenRefreshRate)
    { q with
      tokens := min (q.tokens + newTokens) cfg.maxTokens
      tokenBucketClock := q.tokenBucketClock + newTokens / cfg.tokenRefreshRate }

def enque (p : Packet) (q : XPassDropTail) : XPassDropTail × List QueueEffect :=
  if p.ptype = .xpassCredit then
    let creditQ := q.creditQ.enque p
    if cfg.creditQLimit < creditQ.byteLength then
      ({ q with creditQ := creditQ.removeTail }, [.drop p])
    else ({ q with creditQ := creditQ }, [])
  else
    let dataQ := q.dataQ.enque p
    if cfg.dataQLimit < dataQ.byteLength then ({ q with dataQ := dataQ.removeTail }, [.drop p])
    else ({ q with dataQ := dataQ }, [])

/-- The time until there are tokens for a packet, infinite when the rate is zero. -/
def creditDelay (q : XPassDropTail) (p : Packet) : WithTop ℚ :=
  if cfg.tokenRefreshRate = 0 then ⊤
  else (((p.size - q.tokens : ℤ) / cfg.tokenRefreshRate : ℚ) : WithTop ℚ)

/-- The first two statements of `deque`. -/
def refreshed (q : XPassDropTail) : XPassDropTail :=
  { q with creditTimer := q.creditTimer.forceCancel }.updateTokenBucket cfg now

def deque (q : XPassDropTail) : Except QueueExit (XPassDropTail × Option Packet) :=
  let q := q.refreshed cfg now
  match q.creditQ.head with
  | some p =>
    if p.size ≤ q.tokens then
      .ok ({ q with creditQ := q.creditQ.deque.2, tokens := q.tokens - p.size }, q.creditQ.deque.1)
    else if 0 < q.dataQ.length then .ok ({ q with dataQ := q.dataQ.deque.2 }, q.dataQ.deque.1)
    else .ok ({ q with creditTimer := .resched now (q.creditDelay cfg p) }, none)
  | none =>
    if 0 < q.dataQ.length then .ok ({ q with dataQ := q.dataQ.deque.2 }, q.dataQ.deque.1)
    else if 0 < q.creditQ.byteLength ∧ 0 < q.dataQ.byteLength then .error .timerNotSet
    else .ok (q, none)

/-- The statements that `Queue::recv` and `expire` share. -/
def forwardUnlessBlocked (q : XPassDropTail) :
    Except QueueExit (XPassDropTail × List QueueEffect) := do
  if q.blocked then pure (q, [])
  else
    let (q, p) ← q.deque cfg now
    match p with
    | some p => pure ({ q with blocked := true }, [.forward p])
    | none => pure (q, [])

def recv (p : Packet) (q : XPassDropTail) :
    Except QueueExit (XPassDropTail × List QueueEffect) := do
  let (q, dropped) := q.enque cfg p
  let (q, out) ← q.forwardUnlessBlocked cfg now
  pure (q, dropped ++ out)

def resume (q : XPassDropTail) : Except QueueExit (XPassDropTail × List QueueEffect) := do
  let (q, p) ← q.deque cfg now
  match p with
  | some p => pure (q, [.forward p])
  | none => pure ({ q with blocked := !cfg.unblockOnResume }, [])

def expire (q : XPassDropTail) : Except QueueExit (XPassDropTail × List QueueEffect) :=
  q.forwardUnlessBlocked cfg now

/-- `TimerHandler::handle` of the credit timer. -/
def handle (q : XPassDropTail) : Except QueueExit (XPassDropTail × List QueueEffect) := do
  let h ← q.creditTimer.beginHandle.mapError .timer
  let (q, out) ← { q with creditTimer := h }.expire cfg now
  pure ({ q with creditTimer := q.creditTimer.endHandle }, out)

end XPassDropTail

/-- What happens to a queue: the calls of its methods and the expiry of its timer. -/
inductive QueueAction
  | tick (t : ℚ)
  | enque (p : Packet)
  | deque
  | recv (p : Packet)
  | resume
  | expire

structure QueueState where
  queue : XPassDropTail := {}
  clock : ℚ

namespace QueueState

variable (cfg : QueueConfig) (s : QueueState)

def react : QueueAction → Except QueueExit (XPassDropTail × List QueueEffect)
  | .tick _ => .ok (s.queue, [])
  | .enque p => .ok (s.queue.enque cfg p)
  | .deque => (s.queue.deque cfg s.clock).map fun r => (r.1, r.2.toList.map .forward)
  | .recv p => s.queue.recv cfg s.clock p
  | .resume => s.queue.resume cfg s.clock
  | .expire => s.queue.handle cfg s.clock

def clockAfter : QueueAction → ℚ
  | .tick t => t
  | .enque _ | .deque | .recv _ | .resume | .expire => s.clock

def step (x : QueueAction) : Except QueueExit QueueState :=
  (s.react cfg x).map fun r => { queue := r.1, clock := s.clockAfter x }

/-- The clock does not go back, and the scheduler dispatches only events in its queue. -/
def Enabled : QueueAction → Prop
  | .tick t => s.clock ≤ t
  | .expire => s.queue.creditTimer.status = .pending
  | .enque _ | .deque | .recv _ | .resume => True

instance : DecidablePred s.Enabled
  | .tick t => inferInstanceAs (Decidable (s.clock ≤ t))
  | .expire => inferInstanceAs (Decidable (s.queue.creditTimer.status = .pending))
  | .enque _ | .deque | .recv _ | .resume => inferInstanceAs (Decidable True)

/-- What a call has forwarded or dropped. -/
def effects (x : QueueAction) : List QueueEffect :=
  match s.react cfg x with
  | .ok r => r.2
  | .error _ => []

variable {cfg s} {s' : QueueState} {x : QueueAction}

theorem step_eq_ok (h : s.step cfg x = .ok s') :
    s.react cfg x = .ok (s'.queue, s.effects cfg x) ∧ s'.clock = s.clockAfter x := by
  unfold step at h
  unfold effects
  cases hr : s.react cfg x with
  | error e => simp [hr, Except.map] at h
  | ok r =>
    simp only [hr, Except.map, Except.ok.injEq] at h
    subst h
    exact ⟨rfl, rfl⟩

theorem step_eq_error {e : QueueExit} (h : s.step cfg x = .error e) : s.react cfg x = .error e := by
  unfold step at h
  cases hr : s.react cfg x with
  | error e' => simpa [hr, Except.map] using h
  | ok r => simp [hr, Except.map] at h

end QueueState

/-- A queue that any sequence of calls may reach. -/
def queueMachine (cfg : QueueConfig) : Machine QueueState QueueAction QueueExit where
  Init s := s.queue = {} ∧ 0 ≤ s.clock
  Enabled := QueueState.Enabled
  step := QueueState.step cfg

instance (cfg : QueueConfig) (s : QueueState) (x : QueueAction) :
    Decidable ((queueMachine cfg).Enabled s x) :=
  inferInstanceAs (Decidable (s.Enabled x))

/-! ## What `deque` can do -/

namespace XPassDropTail

variable {cfg : QueueConfig} {now : ℚ} {q q' : XPassDropTail}

/-- Once refreshed, a queue forwards its first credit, forwards its first data packet, waits for
tokens or is empty. -/
inductive Dequeued (cfg : QueueConfig) (now : ℚ) (q : XPassDropTail) :
    XPassDropTail → Option Packet → Prop
  | credit {p : Packet} {rest : List Packet} : q.creditQ.packets = p :: rest → p.size ≤ q.tokens →
      Dequeued cfg now q
        { q with creditQ := q.creditQ.deque.2, tokens := q.tokens - p.size } (some p)
  | data {p : Packet} {rest : List Packet} : q.dataQ.packets = p :: rest →
      Dequeued cfg now q { q with dataQ := q.dataQ.deque.2 } (some p)
  | wait {p : Packet} {rest : List Packet} : q.creditQ.packets = p :: rest → q.tokens < p.size →
      q.dataQ.packets = [] →
      Dequeued cfg now q { q with creditTimer := .resched now (q.creditDelay cfg p) } none
  | idle : q.creditQ.packets = [] → q.dataQ.packets = [] → Dequeued cfg now q q none

/-- The fields that a refresh leaves alone. -/
theorem refreshed_eq (cfg : QueueConfig) (now : ℚ) (q : XPassDropTail) :
    ∃ n t, q.refreshed cfg now =
      { q with creditTimer := q.creditTimer.forceCancel, tokens := n, tokenBucketClock := t } := by
  unfold refreshed updateTokenBucket
  dsimp only
  split_ifs
  · exact ⟨_, _, rfl⟩
  · exact ⟨_, _, rfl⟩

@[simp] theorem refreshed_creditQ : (q.refreshed cfg now).creditQ = q.creditQ := by
  obtain ⟨_, _, h⟩ := refreshed_eq cfg now q
  rw [h]

@[simp] theorem refreshed_dataQ : (q.refreshed cfg now).dataQ = q.dataQ := by
  obtain ⟨_, _, h⟩ := refreshed_eq cfg now q
  rw [h]

@[simp] theorem refreshed_blocked : (q.refreshed cfg now).blocked = q.blocked := by
  obtain ⟨_, _, h⟩ := refreshed_eq cfg now q
  rw [h]

@[simp] theorem refreshed_creditTimer :
    (q.refreshed cfg now).creditTimer = q.creditTimer.forceCancel := by
  obtain ⟨_, _, h⟩ := refreshed_eq cfg now q
  rw [h]

theorem data_dequeued {d : Packet} {rest : List Packet} (h : q.dataQ.packets = d :: rest) :
    Dequeued cfg now q { q with dataQ := q.dataQ.deque.2 } q.dataQ.deque.1 := by
  rw [(PacketQueue.deque_of_cons h).1]
  exact .data h

/-- `deque` always returns: a queue without packets has no bytes. -/
theorem deque_dequeued (cfg : QueueConfig) (now : ℚ) (q : XPassDropTail) :
    ∃ q' p, q.deque cfg now = .ok (q', p) ∧ Dequeued cfg now (q.refreshed cfg now) q' p := by
  unfold deque
  generalize q.refreshed cfg now = r
  dsimp only
  have hdata : 0 < r.dataQ.length → ∃ d rest, r.dataQ.packets = d :: rest := fun h =>
    List.exists_cons_of_ne_nil (PacketQueue.length_pos_iff.mp h)
  have hnone : ¬ 0 < r.dataQ.length → r.dataQ.packets = [] := fun h => by
    by_contra hne
    exact h (PacketQueue.length_pos_iff.mpr hne)
  cases hc : r.creditQ.packets with
  | nil =>
    rw [PacketQueue.head_of_nil hc]
    dsimp only
    split_ifs with hlen hbytes
    · obtain ⟨d, rest, hd⟩ := hdata hlen
      exact ⟨_, _, rfl, data_dequeued hd⟩
    · rw [PacketQueue.byteLength_of_nil hc] at hbytes
      exact absurd hbytes.1 (lt_irrefl _)
    · exact ⟨_, _, rfl, .idle hc (hnone hlen)⟩
  | cons p rest =>
    rw [PacketQueue.head_of_cons hc]
    dsimp only
    split_ifs with htok hlen
    · rw [(PacketQueue.deque_of_cons hc).1]
      exact ⟨_, _, rfl, .credit hc htok⟩
    · obtain ⟨d, rest', hd⟩ := hdata hlen
      exact ⟨_, _, rfl, data_dequeued hd⟩
    · exact ⟨_, _, rfl, .wait hc (not_le.mp htok) (hnone hlen)⟩

theorem dequeued_of_deque {p : Option Packet} (h : q.deque cfg now = .ok (q', p)) :
    Dequeued cfg now (q.refreshed cfg now) q' p := by
  obtain ⟨q₁, p₁, h₁, hd⟩ := deque_dequeued cfg now q
  rw [h] at h₁
  obtain ⟨rfl, rfl⟩ := Prod.mk.inj (Except.ok.inj h₁)
  exact hd

/-! ## The entry points -/

theorem forwardUnlessBlocked_eq_ok {out : List QueueEffect}
    (h : q.forwardUnlessBlocked cfg now = .ok (q', out)) :
    q.blocked = true ∧ q' = q ∧ out = [] ∨
    q.blocked = false ∧ ∃ q₁ p, Dequeued cfg now (q.refreshed cfg now) q₁ p ∧
      q' = { q₁ with blocked := p.isSome } ∧ out = p.toList.map .forward := by
  unfold forwardUnlessBlocked at h
  split_ifs at h with hb
  · obtain ⟨rfl, rfl⟩ := Prod.mk.inj (pure_eq_ok.mp h)
    exact .inl ⟨hb, rfl, rfl⟩
  · have hb := Bool.eq_false_iff.mpr hb
    obtain ⟨⟨q₁, p⟩, hd, h⟩ := bind_eq_ok.mp h
    have hq := dequeued_of_deque hd
    refine .inr ⟨hb, q₁, p, hq, ?_⟩
    cases p with
    | some p =>
      obtain ⟨rfl, rfl⟩ := Prod.mk.inj (pure_eq_ok.mp h)
      exact ⟨rfl, rfl⟩
    | none =>
      obtain ⟨rfl, rfl⟩ := Prod.mk.inj (pure_eq_ok.mp h)
      have hb₁ : q₁.blocked = false := by cases hq <;> simp [hb]
      exact ⟨by rw [Option.isSome_none, ← hb₁], rfl⟩

theorem recv_eq_ok {p : Packet} {out : List QueueEffect} (h : q.recv cfg now p = .ok (q', out)) :
    ∃ out₁, (q.enque cfg p).1.forwardUnlessBlocked cfg now = .ok (q', out₁) ∧
      out = (q.enque cfg p).2 ++ out₁ := by
  simp only [recv, bind_eq_ok, Prod.exists, pure_eq_ok, Prod.mk.injEq] at h
  obtain ⟨_, out₁, hf, rfl, rfl⟩ := h
  exact ⟨out₁, hf, rfl⟩

theorem resume_eq_ok {out : List QueueEffect} (h : q.resume cfg now = .ok (q', out)) :
    ∃ q₁ p, Dequeued cfg now (q.refreshed cfg now) q₁ p ∧ out = p.toList.map .forward ∧
      q' = if p.isSome then q₁ else { q₁ with blocked := !cfg.unblockOnResume } := by
  obtain ⟨⟨q₁, p⟩, hd, h⟩ := bind_eq_ok.mp h
  refine ⟨q₁, p, dequeued_of_deque hd, ?_⟩
  cases p <;> obtain ⟨rfl, rfl⟩ := Prod.mk.inj (pure_eq_ok.mp h) <;> exact ⟨rfl, rfl⟩

theorem handle_eq_ok {out : List QueueEffect} (h : q.handle cfg now = .ok (q', out)) :
    q.creditTimer.status = .pending ∧ ∃ q₁,
      { q with creditTimer := { q.creditTimer with status := .handling }
        }.forwardUnlessBlocked cfg now = .ok (q₁, out) ∧
      q' = { q₁ with creditTimer := q₁.creditTimer.endHandle } := by
  simp only [handle, expire, bind_eq_ok, mapError_eq_ok, TimerHandler.beginHandle_eq_ok_iff,
    Prod.exists, pure_eq_ok, Prod.mk.injEq] at h
  obtain ⟨_, ⟨hp, rfl⟩, q₁, _, hf, rfl, rfl⟩ := h
  exact ⟨hp, q₁, hf, rfl⟩

end XPassDropTail

end Ns2XPass
