import Mathlib.Algebra.Order.BigOperators.Group.List
import Ns2XPass.Queue.XPassDropTail

/-! # Resetting a switch port

`Queue::reset` drops what `deque` returns until there is nothing. The `deque` of a
switch port holds credits back for want of tokens, and then `reset` leaves them in
the queue with the timer running.
-/

namespace Ns2XPass

/-- Nothing is left of a number behind its integral part. -/
theorem toInt_sub_toInt (x : ℚ) : toInt (x - toInt x) = 0 := by
  have hnonneg : ∀ y : ℚ, 0 ≤ y → toInt (y - toInt y) = 0 := by
    intro y hy
    rw [toInt_of_nonneg hy, toInt_of_nonneg (sub_nonneg.mpr (Int.floor_le y))]
    exact Int.floor_eq_zero_iff.mpr ⟨sub_nonneg.mpr (Int.floor_le y),
      by linarith [Int.lt_floor_add_one y]⟩
  rcases le_total 0 x with hx | hx
  · exact hnonneg x hx
  · have hneg := hnonneg (-x) (neg_nonneg.mpr hx)
    have heq : -x - ((-toInt x : ℤ) : ℚ) = -(x - toInt x) := by
      push_cast
      ring
    rw [toInt_neg, heq, toInt_neg] at hneg
    exact neg_eq_zero.mp hneg

namespace XPassDropTail

variable (cfg : QueueConfig) (now : ℚ) (q : XPassDropTail)

/-- The loop of `Queue::reset`. -/
def resetFrom : ℕ → XPassDropTail → Except QueueExit (XPassDropTail × List QueueEffect)
  | 0, q => .ok (q, [])
  | n + 1, q => do
    let (q, p) ← q.deque cfg now
    match p with
    | some p =>
      let (q, out) ← resetFrom n q
      pure (q, .drop p :: out)
    | none => pure (q, [])

def queued : ℕ := q.creditQ.packets.length + q.dataQ.packets.length

/-- `Queue::reset`. Every turn of its loop but the last removes a packet. -/
def reset : Except QueueExit (XPassDropTail × List QueueEffect) :=
  resetFrom cfg now (q.queued + 1) q

/-- Every packet is dropped once, and the timer does not run. -/
def Emptied : Prop :=
  ∃ q' out, q.reset cfg now = .ok (q', out) ∧
    q'.creditQ.packets = [] ∧ q'.dataQ.packets = [] ∧
    out.Perm ((q.creditQ.packets ++ q.dataQ.packets).map QueueEffect.drop) ∧
    q'.creditTimer.status ≠ .pending

/-- There are tokens for all of the credits. -/
def Covered (q : XPassDropTail) : Prop :=
  q.creditQ.packets = [] ∨ q.creditQ.byteLength ≤ q.tokens

instance : Decidable q.Covered := inferInstanceAs (Decidable (_ ∨ _))

variable {cfg now q} {q' : XPassDropTail} {n : ℕ}

/-- No more tokens come at this time. -/
def Still (cfg : QueueConfig) (now : ℚ) (q : XPassDropTail) : Prop :=
  now - q.tokenBucketClock ≤ 0 ∨
    toInt ((now - q.tokenBucketClock) * cfg.tokenRefreshRate) = 0 ∧ q.tokens ≤ cfg.maxTokens

theorem still_refreshed : Still cfg now (q.refreshed cfg now) := by
  unfold refreshed updateTokenBucket
  dsimp only
  split_ifs with h
  · exact .inl h
  · refine .inr ⟨?_, min_le_right _ _⟩
    rcases eq_or_ne cfg.tokenRefreshRate 0 with h0 | h0
    · rw [h0, mul_zero]
      rfl
    · have heq : (now - (q.tokenBucketClock +
          toInt ((now - q.tokenBucketClock) * cfg.tokenRefreshRate) / cfg.tokenRefreshRate)) *
          cfg.tokenRefreshRate =
          (now - q.tokenBucketClock) * cfg.tokenRefreshRate -
            toInt ((now - q.tokenBucketClock) * cfg.tokenRefreshRate) := by
        field_simp
        ring
      rw [heq, toInt_sub_toInt]

theorem Still.refreshed (h : Still cfg now q) :
    q.refreshed cfg now = { q with creditTimer := q.creditTimer.forceCancel } := by
  unfold XPassDropTail.refreshed updateTokenBucket
  dsimp only
  rcases h with h | ⟨h, hle⟩
  · rw [if_pos h]
  · split_ifs
    · rfl
    · rw [h, Int.cast_zero, zero_div, add_zero, add_zero, min_eq_left hle]

/-- What is left of a queue at the end of the loop. Credits stay if there are no tokens for all of
them, and then the timer waits. -/
structure Drained (q q' : XPassDropTail) (out : List QueueEffect) : Prop where
  data : q'.dataQ.packets = []
  dropped : (out ++ q'.creditQ.packets.map QueueEffect.drop).Perm
    ((q.creditQ.packets ++ q.dataQ.packets).map QueueEffect.drop)
  credits : q'.creditQ.packets = [] ↔ q.Covered
  timer : q'.creditTimer.status = .pending ↔ q'.creditQ.packets ≠ []

theorem forceCancel_ne_pending (t : TimerHandler) : t.forceCancel.status ≠ .pending := by
  cases hs : t.status <;> simp [TimerHandler.forceCancel, hs]

theorem covered_cons {p : Packet} {rest : List Packet} (hq : q.creditQ.packets = p :: rest) :
    q.Covered ↔ q.creditQ.byteLength ≤ q.tokens := by
  unfold Covered
  rw [hq]
  exact or_iff_right (List.cons_ne_nil _ _)

/-- A credit that is dropped takes its tokens. -/
theorem covered_spend {p : Packet} {rest : List Packet} (hq : q.creditQ.packets = p :: rest)
    (hp : p.size ≤ q.tokens) (ht : q'.tokens = q.tokens - p.size)
    (hc : q'.creditQ = q.creditQ.deque.2) : q'.Covered ↔ q.Covered := by
  have hbytes : q.creditQ.byteLength = p.size + (rest.map (·.size)).sum := by
    rw [q.creditQ.byteLength_eq, hq]
    rfl
  have hrest : q'.creditQ.packets = rest := by
    rw [hc, (PacketQueue.deque_of_cons hq).2]
  have hbytes' : q'.creditQ.byteLength = (rest.map (·.size)).sum := by
    rw [q'.creditQ.byteLength_eq, hrest]
  rw [covered_cons hq, Covered, hbytes, hbytes', hrest, ht]
  constructor
  · rintro (rfl | h)
    · simpa using hp
    · omega
  · intro h
    exact .inr (by omega)

theorem resetFrom_some {p : Packet} {q₁ : XPassDropTail} {out : List QueueEffect}
    (hd : q.deque cfg now = .ok (q₁, some p)) (hr : resetFrom cfg now n q₁ = .ok (q', out)) :
    resetFrom cfg now (n + 1) q = .ok (q', .drop p :: out) := by
  unfold resetFrom
  rw [hd]
  change (resetFrom cfg now n q₁ >>= fun r => pure (r.1, QueueEffect.drop p :: r.2)) = _
  rw [hr]
  rfl

theorem resetFrom_none {q₁ : XPassDropTail} (hd : q.deque cfg now = .ok (q₁, none)) :
    resetFrom cfg now (n + 1) q = .ok (q₁, []) := by
  unfold resetFrom
  rw [hd]
  rfl

theorem resetFrom_drained (hs : Still cfg now q) (hsize : ∀ p ∈ q.creditQ.packets, 0 ≤ p.size)
    (hn : q.queued < n) :
    ∃ q' out, resetFrom cfg now n q = .ok (q', out) ∧ Drained q q' out := by
  induction n generalizing q with
  | zero => exact absurd hn (Nat.not_lt_zero _)
  | succ n ih =>
    obtain ⟨q₁, p, hdeque, hd⟩ := deque_dequeued cfg now q
    rw [hs.refreshed] at hd
    have hcancel := forceCancel_ne_pending q.creditTimer
    cases hd with
    | @credit p rest hq hp =>
      have hq : q.creditQ.packets = p :: rest := hq
      have hp : p.size ≤ q.tokens := hp
      have hrest := (PacketQueue.deque_of_cons hq).2
      have hpos := hsize p (by rw [hq]; exact List.mem_cons_self)
      have hlen : q.queued = rest.length + 1 + q.dataQ.packets.length := by
        rw [queued, hq, List.length_cons]
      obtain ⟨q', out, hr, h⟩ := @ih { q with
          creditTimer := q.creditTimer.forceCancel
          creditQ := q.creditQ.deque.2
          tokens := q.tokens - p.size }
        (hs.imp_right fun h => ⟨h.1, by change q.tokens - p.size ≤ _; omega⟩)
        (fun c hc => hsize c (by rw [hq]; exact List.mem_cons_of_mem _ (hrest ▸ hc)))
        (by rw [queued, hrest]; dsimp only; omega)
      refine ⟨q', .drop p :: out, resetFrom_some hdeque hr, h.data, ?_,
        h.credits.trans (covered_spend hq hp rfl rfl), h.timer⟩
      have hperm := h.dropped
      dsimp only at hperm
      rw [hrest] at hperm
      rw [hq]
      exact hperm.cons _
    | @data d rest hq =>
      have hq : q.dataQ.packets = d :: rest := hq
      have hrest := (PacketQueue.deque_of_cons hq).2
      have hlen : q.queued = q.creditQ.packets.length + (rest.length + 1) := by
        rw [queued, hq, List.length_cons]
      obtain ⟨q', out, hr, h⟩ := @ih { q with
          creditTimer := q.creditTimer.forceCancel
          dataQ := q.dataQ.deque.2 } hs hsize
        (by rw [queued, hrest]; dsimp only; omega)
      refine ⟨q', .drop d :: out, resetFrom_some hdeque hr, h.data, ?_, h.credits, h.timer⟩
      have hperm := h.dropped
      dsimp only at hperm
      rw [hrest] at hperm
      rw [hq, List.map_append]
      refine (hperm.cons _).trans ?_
      rw [List.map_append]
      exact List.perm_middle.symm
    | @wait p rest hq hp hdata =>
      have hq : q.creditQ.packets = p :: rest := hq
      have hp : q.tokens < p.size := hp
      have hdata : q.dataQ.packets = [] := hdata
      have hne : q.creditQ.packets ≠ [] := by rw [hq]; exact List.cons_ne_nil _ _
      have hsum : p.size ≤ q.creditQ.byteLength := by
        rw [q.creditQ.byteLength_eq, hq, List.map_cons, List.sum_cons, le_add_iff_nonneg_right]
        refine List.sum_nonneg ?_
        simp only [List.mem_map]
        rintro _ ⟨c, hc, rfl⟩
        exact hsize c (by rw [hq]; exact List.mem_cons_of_mem _ hc)
      refine ⟨_, [], resetFrom_none hdeque, hdata, ?_, ?_, ?_⟩
      · rw [hdata, List.append_nil]
        exact List.Perm.refl _
      · rw [covered_cons hq]
        exact iff_of_false hne (by omega)
      · exact iff_of_true rfl hne
    | idle hq hdata =>
      have hq : q.creditQ.packets = [] := hq
      have hdata : q.dataQ.packets = [] := hdata
      refine ⟨_, [], resetFrom_none hdeque, hdata, ?_, iff_of_true hq (.inl hq), ?_⟩
      · rw [hdata, List.append_nil]
        exact List.Perm.refl _
      · exact iff_of_false hcancel (not_not.mpr hq)

theorem forceCancel_forceCancel (t : TimerHandler) :
    t.forceCancel.forceCancel = t.forceCancel := if_neg (forceCancel_ne_pending t)

/-- A second `deque` at the same time finds the bucket up to date. -/
theorem deque_refreshed : (q.refreshed cfg now).deque cfg now = q.deque cfg now := by
  have hfix : (q.refreshed cfg now).refreshed cfg now = q.refreshed cfg now := by
    have htimer : (q.refreshed cfg now).creditTimer.forceCancel =
        (q.refreshed cfg now).creditTimer := by
      rw [refreshed_creditTimer, forceCancel_forceCancel]
    rw [still_refreshed.refreshed, htimer]
  unfold deque
  rw [hfix]

theorem reset_drained (hsize : ∀ p ∈ q.creditQ.packets, 0 ≤ p.size) :
    ∃ q' out, q.reset cfg now = .ok (q', out) ∧ Drained (q.refreshed cfg now) q' out := by
  have hqueued : (q.refreshed cfg now).queued = q.queued := by
    unfold queued
    rw [refreshed_creditQ, refreshed_dataQ]
  have hreset : q.reset cfg now =
      resetFrom cfg now (q.queued + 1) (q.refreshed cfg now) := by
    unfold reset resetFrom
    rw [deque_refreshed]
  rw [hreset]
  apply resetFrom_drained still_refreshed
  · rw [refreshed_creditQ]
    exact hsize
  · rw [hqueued]
    exact Nat.lt_succ_self _

/-- `reset` empties the queue exactly if the bucket, brought up to date, has tokens for all of the
credits. -/
theorem emptied_iff (hsize : ∀ p ∈ q.creditQ.packets, 0 ≤ p.size) :
    q.Emptied cfg now ↔ (q.refreshed cfg now).Covered := by
  have hdrained : ∃ q' out, q.reset cfg now = .ok (q', out) ∧
      Drained (q.refreshed cfg now) q' out := reset_drained hsize
  obtain ⟨q', out, hr, h⟩ := hdrained
  constructor
  · rintro ⟨q'', out', hr', hc, -⟩
    obtain ⟨rfl, rfl⟩ := Prod.mk.inj (Except.ok.inj (hr.symm.trans hr'))
    exact h.credits.mp hc
  · intro hcov
    have hc := h.credits.mpr hcov
    have hperm := h.dropped
    rw [hc, List.map_nil, List.append_nil, refreshed_creditQ, refreshed_dataQ] at hperm
    exact ⟨q', out, hr, hc, h.data, hperm, fun hp => h.timer.mp hp hc⟩

/-- The credits of the queue have a size. -/
def Sized (q : XPassDropTail) : Prop := ∀ p ∈ q.creditQ.packets, 0 ≤ p.size

theorem Sized.enque (h : q.Sized) {p : Packet} (hp : 0 ≤ p.size) : (q.enque cfg p).1.Sized := by
  unfold XPassDropTail.enque
  dsimp only
  split_ifs
  · rw [PacketQueue.removeTail_enque]
    exact h
  · intro c hc
    rcases List.mem_append.mp hc with hc | hc
    · exact h c hc
    · rw [List.mem_singleton.mp hc]
      exact hp
  · exact h
  · exact h

theorem Sized.dequeued (h : q.Sized) {p : Option Packet}
    (hd : Dequeued cfg now (q.refreshed cfg now) q' p) : q'.Sized := by
  have hr : (q.refreshed cfg now).Sized := by
    unfold Sized
    rw [refreshed_creditQ]
    exact h
  cases hd with
  | @credit c rest hq hp =>
    intro d hd
    rw [(PacketQueue.deque_of_cons hq).2] at hd
    exact hr d (by rw [hq]; exact List.mem_cons_of_mem _ hd)
  | data => exact hr
  | wait => exact hr
  | idle => exact hr

theorem Sized.forwardUnlessBlocked (h : q.Sized) {out : List QueueEffect}
    (hf : q.forwardUnlessBlocked cfg now = .ok (q', out)) : q'.Sized := by
  rcases forwardUnlessBlocked_eq_ok hf with ⟨-, rfl, -⟩ | ⟨-, q₁, p, hd, rfl, -⟩
  · exact h
  · have hq := h.dequeued hd
    exact hq

end XPassDropTail

open XPassDropTail

/-- The packets that arrive have a size. -/
def SizedPackets (_ : QueueState) : QueueAction → Prop
  | .enque p | .recv p => 0 ≤ p.size
  | .tick _ | .deque | .resume | .expire => True

instance (s : QueueState) : DecidablePred (SizedPackets s)
  | .enque p | .recv p => inferInstanceAs (Decidable (0 ≤ p.size))
  | .tick _ | .deque | .resume | .expire => inferInstanceAs (Decidable True)

theorem sized_invariant (cfg : QueueConfig) :
    ((queueMachine cfg).restrict SizedPackets).Invariant fun s => s.queue.Sized where
  init s hi := by
    rw [hi.1]
    exact fun p hp => absurd hp List.not_mem_nil
  step s x s' h he hs := by
    obtain ⟨hreact, -⟩ := QueueState.step_eq_ok hs
    cases x with
    | tick t =>
      rw [← (Prod.mk.inj (Except.ok.inj hreact)).1]
      exact h
    | enque p =>
      rw [← (Prod.mk.inj (Except.ok.inj hreact)).1]
      exact h.enque he.2
    | deque =>
      obtain ⟨q₁, p, hdeque, hd⟩ := deque_dequeued cfg s.clock s.queue
      simp only [QueueState.react, hdeque] at hreact
      rw [← (Prod.mk.inj (Except.ok.inj hreact)).1]
      exact h.dequeued hd
    | recv p =>
      obtain ⟨out, hf, -⟩ := recv_eq_ok hreact
      exact (h.enque he.2).forwardUnlessBlocked hf
    | resume =>
      obtain ⟨q₁, p, hd, -, hq⟩ := resume_eq_ok hreact
      have hsized := h.dequeued hd
      rw [hq]
      split_ifs
      · exact hsized
      · exact hsized
    | expire =>
      obtain ⟨-, q₁, hf, hq⟩ := handle_eq_ok hreact
      have hsized : q₁.Sized := Sized.forwardUnlessBlocked (by exact h) hf
      rw [hq]
      exact hsized

end Ns2XPass
