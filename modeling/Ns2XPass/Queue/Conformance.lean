import Ns2XPass.Library.TokenBucket
import Ns2XPass.Queue.XPassDropTail

/-! # Conformance of the credits to their rate

`updateTokenBucket` refills a token bucket, and only a `deque` that has just
called it spends tokens, on a credit. So the credits forwarded in any window of
time keep to the token rate.
-/

namespace Ns2XPass

/-- The packets that are handed to `target_`. -/
def forwarded (out : List QueueEffect) : List Packet :=
  out.filterMap fun
    | .forward p => some p
    | .drop _ => none

/-- The time and the size of each credit among the packets. -/
def creditLog (now : ℚ) (ps : List Packet) : List (ℚ × ℤ) :=
  (ps.filter (·.ptype = .xpassCredit)).map fun p => (now, p.size)

/-- The log of the credits forwarded, the latest first. -/
def recordCredits (cfg : QueueConfig) (s : QueueState) (x : QueueAction) (_ : QueueState)
    (log : List (ℚ × ℤ)) : List (ℚ × ℤ) :=
  creditLog s.clock (forwarded (s.effects cfg x)) ++ log

/-- Packets have a positive size. -/
def PositiveSize (_ : QueueState × List (ℚ × ℤ)) : QueueAction → Prop
  | .enque p => 0 < p.size
  | .recv p => 0 < p.size
  | _ => True

instance (s : QueueState × List (ℚ × ℤ)) : DecidablePred (PositiveSize s)
  | .enque p => inferInstanceAs (Decidable (0 < p.size))
  | .recv p => inferInstanceAs (Decidable (0 < p.size))
  | .tick _ | .deque | .resume | .expire => inferInstanceAs (Decidable True)

/-- Any sequence of calls with packets of positive size, with the log of the credits. -/
def creditLogMachine (cfg : QueueConfig) :
    Machine (QueueState × List (ℚ × ℤ)) QueueAction QueueExit :=
  ((queueMachine cfg).withHistory [] (recordCredits cfg)).restrict PositiveSize

namespace XPassDropTail

variable {cfg : QueueConfig} {now : ℚ} {q q' : XPassDropTail} {p : Packet} {log : List (ℚ × ℤ)}

def bucket (q : XPassDropTail) : Bucket ℚ := { tokens := q.tokens, clock := q.tokenBucketClock }

/-- `updateTokenBucket` refills the bucket, as long as its clock is not ahead. -/
theorem bucket_updateTokenBucket (hr : 0 < cfg.tokenRefreshRate) :
    (q.updateTokenBucket cfg now).bucket =
      q.bucket.refill cfg.tokenRefreshRate cfg.maxTokens now := by
  unfold updateTokenBucket Bucket.refill
  by_cases h : now ≤ q.tokenBucketClock
  · rw [if_pos (sub_nonpos.mpr h), if_pos (show now ≤ q.bucket.clock from h)]
  · have hpos : 0 ≤ (now - q.tokenBucketClock) * cfg.tokenRefreshRate :=
      mul_nonneg (sub_nonneg.mpr (not_le.mp h).le) hr.le
    rw [if_neg (by rwa [sub_nonpos]), if_neg (show ¬ now ≤ q.bucket.clock from h)]
    simp only [bucket, toInt_of_nonneg hpos]

theorem bucket_refreshed (hr : 0 < cfg.tokenRefreshRate) :
    (q.refreshed cfg now).bucket = q.bucket.refill cfg.tokenRefreshRate cfg.maxTokens now :=
  bucket_updateTokenBucket hr

/-- The bucket conforms to the rate, and the two queues hold what they are for. -/
structure Conformance (cfg : QueueConfig) (now : ℚ) (q : XPassDropTail) (log : List (ℚ × ℤ)) :
    Prop where
  bucket : Bucket.Conforms cfg.tokenRefreshRate cfg.maxTokens now q.bucket log
  credits : ∀ p ∈ q.creditQ.packets, p.ptype = .xpassCredit ∧ 0 < p.size
  data : ∀ p ∈ q.dataQ.packets, p.ptype ≠ .xpassCredit

theorem Conformance.enque (h : Conformance cfg now q log) (hp : 0 < p.size) :
    Conformance cfg now (q.enque cfg p).1 log := by
  unfold XPassDropTail.enque
  dsimp only
  split_ifs with hc
  · rw [PacketQueue.removeTail_enque]; exact h
  · refine ⟨h.bucket, ?_, h.data⟩
    intro c hmem
    rcases List.mem_append.mp hmem with hmem | hmem
    · exact h.credits c hmem
    · rw [List.mem_singleton.mp hmem]; exact ⟨hc, hp⟩
  · rw [PacketQueue.removeTail_enque]; exact h
  · refine ⟨h.bucket, h.credits, ?_⟩
    intro d hmem
    rcases List.mem_append.mp hmem with hmem | hmem
    · exact h.data d hmem
    · rw [List.mem_singleton.mp hmem]; exact hc

theorem Conformance.refreshed (hr : 0 < cfg.tokenRefreshRate) (h : Conformance cfg now q log) :
    Conformance cfg now (q.refreshed cfg now) log :=
  ⟨by rw [bucket_refreshed hr]; exact h.bucket.refill hr,
    by simpa using h.credits, by simpa using h.data⟩

theorem forwarded_append {out out' : List QueueEffect} :
    forwarded (out ++ out') = forwarded out ++ forwarded out' := by
  simp [forwarded]

theorem forwarded_map {ps : List Packet} : forwarded (ps.map .forward) = ps := by
  simp [forwarded, List.filterMap_map]

theorem forwarded_enque (cfg : QueueConfig) (q : XPassDropTail) (p : Packet) :
    forwarded (q.enque cfg p).2 = [] := by
  unfold XPassDropTail.enque
  dsimp only
  split_ifs <;> rfl

theorem Conformance.dequeued (hr : 0 < cfg.tokenRefreshRate) (h : Conformance cfg now q log)
    {p : Option Packet} (hd : Dequeued cfg now (q.refreshed cfg now) q' p) :
    Conformance cfg now q' (creditLog now p.toList ++ log) := by
  have hrefreshed := h.refreshed hr
  have hrest : (now - (q.refreshed cfg now).bucket.clock) * cfg.tokenRefreshRate < 1 := by
    rw [bucket_refreshed hr]
    exact Bucket.rest_refill_lt hr h.bucket.valid.clock_le
  cases hd with
  | @credit c rest hc htok =>
    obtain ⟨hp, hpos⟩ := hrefreshed.credits c (by rw [hc]; exact List.mem_cons_self)
    have hlog : creditLog now (some c).toList ++ log = (now, c.size) :: log := by
      simp [creditLog, hp]
    rw [hlog]
    refine ⟨hrefreshed.bucket.spend hr hrest hpos.le htok, ?_, hrefreshed.data⟩
    intro d hmem
    rw [(PacketQueue.deque_of_cons hc).2] at hmem
    exact hrefreshed.credits d (by rw [hc]; exact List.mem_cons_of_mem _ hmem)
  | @data d rest hc =>
    have hp := hrefreshed.data d (by rw [hc]; exact List.mem_cons_self)
    have hlog : creditLog now (some d).toList ++ log = log := by simp [creditLog, hp]
    rw [hlog]
    refine ⟨hrefreshed.bucket, hrefreshed.credits, ?_⟩
    intro d hmem
    rw [(PacketQueue.deque_of_cons hc).2] at hmem
    exact hrefreshed.data d (by rw [hc]; exact List.mem_cons_of_mem _ hmem)
  | wait => exact ⟨hrefreshed.bucket, hrefreshed.credits, hrefreshed.data⟩
  | idle => exact hrefreshed

theorem Conformance.of_eq (h : Conformance cfg now q log) {t : TimerHandler} {b : Bool} :
    Conformance cfg now { q with creditTimer := t, blocked := b } log :=
  ⟨h.bucket, h.credits, h.data⟩

theorem Conformance.forwardUnlessBlocked (hr : 0 < cfg.tokenRefreshRate)
    (h : Conformance cfg now q log) {out : List QueueEffect}
    (hf : q.forwardUnlessBlocked cfg now = .ok (q', out)) :
    Conformance cfg now q' (creditLog now (forwarded out) ++ log) := by
  rcases forwardUnlessBlocked_eq_ok hf with ⟨_, rfl, rfl⟩ | ⟨_, q₁, p, hd, rfl, rfl⟩
  · exact h
  · rw [forwarded_map]
    exact (h.dequeued hr hd).of_eq

end XPassDropTail

open XPassDropTail

/-- Every call keeps the conformance, with the credits it forwards in the log. -/
theorem conformance_react {cfg : QueueConfig} {s : QueueState} {x : QueueAction}
    {q' : XPassDropTail} {log : List (ℚ × ℤ)} {out : List QueueEffect}
    (hr : 0 < cfg.tokenRefreshRate) (h : s.queue.Conformance cfg s.clock log)
    (hx : PositiveSize (s, log) x) (hs : s.react cfg x = .ok (q', out)) :
    q'.Conformance cfg s.clock (creditLog s.clock (forwarded out) ++ log) := by
  cases x with
  | tick t =>
    obtain ⟨rfl, rfl⟩ := Prod.mk.inj (Except.ok.inj hs)
    exact h
  | enque p =>
    have hq : s.queue.enque cfg p = (q', out) := Except.ok.inj hs
    have hc := h.enque hx
    have hf := forwarded_enque cfg s.queue p
    rw [hq] at hc hf
    rw [hf]
    exact hc
  | deque =>
    simp only [QueueState.react] at hs
    cases hd : s.queue.deque cfg s.clock with
    | error e => simp [hd, Except.map] at hs
    | ok r =>
      rw [hd] at hs
      obtain ⟨rfl, rfl⟩ := Prod.mk.inj (Except.ok.inj hs)
      rw [forwarded_map]
      exact h.dequeued hr (dequeued_of_deque hd)
  | recv p =>
    obtain ⟨out₁, hf, rfl⟩ := recv_eq_ok hs
    rw [forwarded_append, forwarded_enque, List.nil_append]
    exact (h.enque hx).forwardUnlessBlocked hr hf
  | resume =>
    obtain ⟨q₁, p, hd, rfl, rfl⟩ := resume_eq_ok hs
    have hq := h.dequeued hr hd
    rw [forwarded_map]
    split_ifs
    · exact hq
    · exact hq.of_eq
  | expire =>
    obtain ⟨_, q₁, hf, rfl⟩ := handle_eq_ok hs
    exact (h.of_eq.forwardUnlessBlocked hr hf).of_eq

theorem conformance_invariant (cfg : QueueConfig) (hr : 0 < cfg.tokenRefreshRate)
    (hmax : 0 ≤ cfg.maxTokens) :
    (creditLogMachine cfg).Invariant fun p => p.1.queue.Conformance cfg p.1.clock p.2 where
  init p hi := by
    obtain ⟨⟨hq, hclock⟩, hlog⟩ := hi
    rw [hq, hlog]
    exact ⟨.start hr ⟨le_rfl, hmax, hclock⟩, by simp, by simp⟩
  step p x p' h he hs := by
    obtain ⟨hs, hlog⟩ := (Machine.withHistory_step_iff []).mp hs
    obtain ⟨hreact, hclock⟩ := QueueState.step_eq_ok hs
    have hc := conformance_react hr h he.2 hreact
    rw [hlog, hclock, recordCredits]
    refine ⟨hc.bucket.wait ?_, hc.credits, hc.data⟩
    cases x with
    | tick t => exact he.1
    | _ => exact le_rfl

/-- The credits forwarded in any window of time keep to the rate, up to a full bucket and one
byte. -/
theorem credits_conform (cfg : QueueConfig) (hr : 0 < cfg.tokenRefreshRate)
    (hmax : 0 ≤ cfg.maxTokens) {s : QueueState} {log : List (ℚ × ℤ)}
    (h : (creditLogMachine cfg).Reachable (s, log)) :
    (∀ t₁ t₂, t₁ ≤ t₂ → (Bucket.total t₁ t₂ log : ℚ) ≤
      cfg.maxTokens + cfg.tokenRefreshRate * (t₂ - t₁) + 1) ∧
    (0 ≤ s.queue.tokens ∧ s.queue.tokens ≤ cfg.maxTokens) ∧
    s.queue.tokenBucketClock ≤ s.clock := by
  have hc := ((conformance_invariant cfg hr hmax).reachable h).bucket
  exact ⟨hc.window, ⟨hc.valid.nonneg, hc.valid.le_cap⟩, hc.valid.clock_le⟩

theorem credits_conform_after_credit :
    ∃ s log, (creditLogMachine {}).Reachable (s, log) ∧ log = [(1 / 100000, 84)] ∧
      (Bucket.total 0 (1 / 100000) log : ℚ) ≤ 840 + 64734895 * (1 / 100000) + 1 := by
  obtain ⟨⟨s, log⟩, hr, hp⟩ := (Machine.Reachable.init (M := ((queueMachine {}).withHistory []
      (recordCredits {})).restrict PositiveSize) (s := ({ clock := 0 }, []))
      ⟨⟨rfl, le_rfl⟩, rfl⟩).exists_of_exec
    [.tick (1 / 100000), .recv { ptype := .xpassCredit, size := 84 }]
    (fun s => s.2 = [(1 / 100000, 84)]) (by decide +kernel)
  have hc := (credits_conform {} (by norm_num) (by norm_num) hr).1 0 (1 / 100000) (by norm_num)
  exact ⟨s, log, hr, of_decide_eq_true hp, by simpa using hc⟩

end Ns2XPass
