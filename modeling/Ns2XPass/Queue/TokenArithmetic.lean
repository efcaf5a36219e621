import Ns2XPass.Queue.Conformance

/-! # Tokens in the arithmetic of `int`

`updateTokenBucket` forms the tokens of the whole time since its last call before
it caps them. In an `int` that is possible only while the tokens in the bucket and
those that came since are less than `2 ^ 31`.
-/

namespace Ns2XPass

/-- A value that an `int` can hold. Any other has no conversion, and no sum. -/
def inInt (x : ℤ) : Option ℤ := if -2 ^ 31 ≤ x ∧ x < 2 ^ 31 then some x else none

theorem inInt_of_lt {x : ℤ} (h0 : 0 ≤ x) (h : x < 2 ^ 31) : inInt x = some x :=
  if_pos ⟨by omega, h⟩

theorem inInt_of_ge {x : ℤ} (h : 2 ^ 31 ≤ x) : inInt x = none :=
  if_neg fun hx => absurd h (not_le.mpr hx.2)

namespace XPassDropTail

variable (cfg : QueueConfig) (now : ℚ) (q : XPassDropTail)

/-- `updateTokenBucket` with the `int` variables of the code. -/
def intUpdateTokenBucket : Option XPassDropTail :=
  let elapsedTime := now - q.tokenBucketClock
  if elapsedTime ≤ 0 then some q
  else do
    let newTokens ← inInt (toInt (elapsedTime * cfg.tokenRefreshRate))
    let tokens ← inInt (q.tokens + newTokens)
    some { q with
      tokens := min tokens cfg.maxTokens
      tokenBucketClock := q.tokenBucketClock + newTokens / cfg.tokenRefreshRate }

/-- The statements of `deque` behind the first two. -/
def serve : Except QueueExit (XPassDropTail × Option Packet) :=
  match q.creditQ.head with
  | some p =>
    if p.size ≤ q.tokens then
      .ok ({ q with creditQ := q.creditQ.deque.2, tokens := q.tokens - p.size }, q.creditQ.deque.1)
    else if 0 < q.dataQ.length then .ok ({ q with dataQ := q.dataQ.deque.2 }, q.dataQ.deque.1)
    else .ok ({ q with creditTimer := .resched now (q.creditDelay cfg p) }, none)
  | none =>
    if 0 < q.dataQ.length then .ok ({ q with dataQ := q.dataQ.deque.2 }, q.dataQ.deque.1)
    else if 0 < q.creditQ.byteLength ∧ 0 < q.dataQ.byteLength then .error .timerNotSet
    else .ok (q, none)

theorem deque_eq_serve : q.deque cfg now = (q.refreshed cfg now).serve cfg now := rfl

/-- `deque` with the `int` variables of the code. -/
def intDeque : Option (Except QueueExit (XPassDropTail × Option Packet)) :=
  ({ q with creditTimer := q.creditTimer.forceCancel }.intUpdateTokenBucket cfg now).map
    (serve cfg now)

def forwards (r : Except QueueExit (XPassDropTail × Option Packet)) : Option Packet :=
  match r with
  | .ok r => r.2
  | .error _ => none

/-- The queue with a full bucket. -/
def filled : XPassDropTail := { q with tokens := cfg.maxTokens, tokenBucketClock := now }

/-- The tokens of the bucket and those, and the part of one, that came since its clock. -/
def level : ℚ := q.tokens + (now - q.tokenBucketClock) * cfg.tokenRefreshRate

/-- The update stays in the range of `int` and of the bucket, and once enough time has passed to
fill the bucket, the next packet is that of a queue whose bucket is full. -/
structure Refills : Prop where
  inRange : ∃ q', q.intUpdateTokenBucket cfg now = some q' ∧ 0 ≤ q'.tokens ∧
    q'.tokens ≤ cfg.maxTokens
  asFull : cfg.maxTokens ≤ q.level cfg now →
    (q.intDeque cfg now).map forwards = some (forwards ((q.filled cfg now).deque cfg now))

variable {cfg now q} {q' : XPassDropTail}

theorem level_lt_iff {n : ℤ} (hr : 0 < cfg.tokenRefreshRate)
    (hv : q.bucket.Valid cfg.maxTokens now) :
    q.level cfg now < n ↔
      q.tokens + toInt ((now - q.tokenBucketClock) * cfg.tokenRefreshRate) < n := by
  have hpos : 0 ≤ (now - q.tokenBucketClock) * cfg.tokenRefreshRate :=
    mul_nonneg (sub_nonneg.mpr hv.clock_le) hr.le
  rw [toInt_of_nonneg hpos, ← lt_sub_iff_add_lt', Int.floor_lt, level, ← lt_sub_iff_add_lt']
  push_cast
  rfl

theorem intUpdateTokenBucket_eq_some (hr : 0 < cfg.tokenRefreshRate)
    (hv : q.bucket.Valid cfg.maxTokens now) (h : q.level cfg now < (2 ^ 31 : ℤ)) :
    q.intUpdateTokenBucket cfg now = some (q.updateTokenBucket cfg now) := by
  unfold intUpdateTokenBucket updateTokenBucket
  dsimp only
  split_ifs with helapsed
  · rfl
  · have hpos : 0 ≤ (now - q.tokenBucketClock) * cfg.tokenRefreshRate :=
      mul_nonneg (sub_nonneg.mpr hv.clock_le) hr.le
    have hnew : 0 ≤ toInt ((now - q.tokenBucketClock) * cfg.tokenRefreshRate) :=
      le_toInt hpos (by exact_mod_cast hpos)
    have hsum := (level_lt_iff hr hv).mp h
    have htok : 0 ≤ q.tokens := hv.nonneg
    rw [inInt_of_lt hnew (by omega), Option.bind_eq_bind, Option.bind_some,
      inInt_of_lt (add_nonneg htok hnew) hsum]
    rfl

theorem intUpdateTokenBucket_eq_none (hr : 0 < cfg.tokenRefreshRate)
    (hmax : cfg.maxTokens < 2 ^ 31) (hv : q.bucket.Valid cfg.maxTokens now)
    (h : ¬ q.level cfg now < (2 ^ 31 : ℤ)) : q.intUpdateTokenBucket cfg now = none := by
  have hle : q.tokens ≤ cfg.maxTokens := hv.le_cap
  have helapsed : ¬ now - q.tokenBucketClock ≤ 0 := by
    intro hneg
    have hzero : now - q.tokenBucketClock = 0 := le_antisymm hneg (sub_nonneg.mpr hv.clock_le)
    refine h ?_
    rw [level, hzero, zero_mul, add_zero]
    exact_mod_cast hle.trans_lt hmax
  have hsum := not_lt.mp fun hlt => h ((level_lt_iff hr hv).mpr hlt)
  unfold intUpdateTokenBucket
  dsimp only
  rw [if_neg helapsed, Option.bind_eq_bind]
  by_cases hnew : toInt ((now - q.tokenBucketClock) * cfg.tokenRefreshRate) < 2 ^ 31
  · have hpos : 0 ≤ (now - q.tokenBucketClock) * cfg.tokenRefreshRate :=
      mul_nonneg (sub_nonneg.mpr hv.clock_le) hr.le
    rw [inInt_of_lt (le_toInt hpos (by exact_mod_cast hpos)) hnew, Option.bind_some,
      inInt_of_ge hsum]
    rfl
  · rw [inInt_of_ge (not_lt.mp hnew)]
    rfl

/-- The packet that is forwarded depends on the packets and the tokens only. -/
theorem forwards_serve_congr (hc : q.creditQ = q'.creditQ) (hd : q.dataQ = q'.dataQ)
    (ht : q.tokens = q'.tokens) : forwards (q.serve cfg now) = forwards (q'.serve cfg now) := by
  unfold serve
  rw [hc, hd, ht]
  cases q'.creditQ.head with
  | some p =>
    dsimp only
    split_ifs <;> rfl
  | none =>
    dsimp only
    split_ifs <;> rfl

theorem tokens_filled : ((q.filled cfg now).refreshed cfg now).tokens = cfg.maxTokens := by
  unfold refreshed updateTokenBucket filled
  dsimp only
  rw [sub_self, if_pos le_rfl]

/-- Enough time fills the bucket. -/
theorem tokens_updateTokenBucket (hr : 0 < cfg.tokenRefreshRate)
    (hv : q.bucket.Valid cfg.maxTokens now) (h : cfg.maxTokens ≤ q.level cfg now) :
    (q.updateTokenBucket cfg now).tokens = cfg.maxTokens := by
  have hle : q.tokens ≤ cfg.maxTokens := hv.le_cap
  unfold updateTokenBucket
  dsimp only
  split_ifs with helapsed
  · have hzero : now - q.tokenBucketClock = 0 :=
      le_antisymm helapsed (sub_nonneg.mpr hv.clock_le)
    rw [level, hzero, zero_mul, add_zero] at h
    exact le_antisymm hle (by exact_mod_cast h)
  · have hsum := not_lt.mp ((level_lt_iff hr hv).not.mp (not_lt.mpr h))
    exact min_eq_right hsum

theorem forwards_refreshed (hr : 0 < cfg.tokenRefreshRate)
    (hv : q.bucket.Valid cfg.maxTokens now) (h : cfg.maxTokens ≤ q.level cfg now) :
    forwards ((q.refreshed cfg now).serve cfg now) =
      forwards ((q.filled cfg now).deque cfg now) := by
  rw [deque_eq_serve]
  refine forwards_serve_congr ?_ ?_ ?_
  · rw [refreshed_creditQ, refreshed_creditQ]
    rfl
  · rw [refreshed_dataQ, refreshed_dataQ]
    rfl
  · rw [tokens_filled]
    exact tokens_updateTokenBucket hr hv h

theorem refills_iff_of_valid (hr : 0 < cfg.tokenRefreshRate) (hmax : cfg.maxTokens < 2 ^ 31)
    (hv : q.bucket.Valid cfg.maxTokens now) :
    q.Refills cfg now ↔ q.level cfg now < (2 ^ 31 : ℤ) := by
  constructor
  · intro hq
    by_contra h
    obtain ⟨q', hs, _⟩ := hq.inRange
    rw [intUpdateTokenBucket_eq_none hr hmax hv h] at hs
    exact absurd hs (by simp)
  · intro h
    have hvalid := Bucket.refill_valid hr hv
    rw [← bucket_updateTokenBucket hr] at hvalid
    refine ⟨⟨_, intUpdateTokenBucket_eq_some hr hv h, hvalid.nonneg, hvalid.le_cap⟩, ?_⟩
    intro hfull
    have hint : q.intDeque cfg now = some ((q.refreshed cfg now).serve cfg now) := by
      have hup : intUpdateTokenBucket cfg now { q with creditTimer := q.creditTimer.forceCancel } =
          some (q.refreshed cfg now) := intUpdateTokenBucket_eq_some hr hv h
      rw [intDeque, hup, Option.map_some]
    rw [hint, Option.map_some, forwards_refreshed hr hv hfull]

end XPassDropTail

open XPassDropTail

/-- Whatever calls a queue has seen, and however long it has been idle since: its next update
stays in range, and fills the bucket in time, exactly while the tokens of the bucket and of the
idle time are less than `2 ^ 31`. -/
theorem refills_iff (cfg : QueueConfig) (hr : 0 < cfg.tokenRefreshRate) (h0 : 0 ≤ cfg.maxTokens)
    (hmax : cfg.maxTokens < 2 ^ 31) {s : QueueState} {log : List (ℚ × ℤ)}
    (h : (creditLogMachine cfg).Reachable (s, log)) :
    s.queue.Refills cfg s.clock ↔ s.queue.level cfg s.clock < (2 ^ 31 : ℤ) :=
  refills_iff_of_valid hr hmax ((conformance_invariant cfg hr h0).reachable h).bucket.valid

theorem refills_after_second :
    ∃ s log, (creditLogMachine {}).Reachable (s, log) ∧ s.clock = 1 ∧ s.queue.Refills {} 1 := by
  have hr : (creditLogMachine {}).Reachable ({ clock := 1 }, []) :=
    .step (s := ({ clock := 0 }, [])) (x := .tick 1) (.init ⟨⟨rfl, le_rfl⟩, rfl⟩)
      ⟨by decide +kernel, trivial⟩ rfl
  exact ⟨_, _, hr, rfl, (refills_iff {} (by norm_num) (by norm_num) (by norm_num) hr).mpr
    (by decide +kernel)⟩

/-- After forty seconds without a packet the conversion fails, at the default token rate. -/
theorem no_refill_after_idle_link :
    ∃ s log, (creditLogMachine {}).Reachable (s, log) ∧ s.clock = 40 ∧
      s.queue.intUpdateTokenBucket {} 40 = none := by
  have hr : (creditLogMachine {}).Reachable ({ clock := 40 }, []) :=
    .step (s := ({ clock := 0 }, [])) (x := .tick 40) (.init ⟨⟨rfl, le_rfl⟩, rfl⟩)
      ⟨by decide +kernel, trivial⟩ rfl
  exact ⟨_, _, hr, rfl, by decide +kernel⟩

end Ns2XPass
