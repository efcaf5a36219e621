import Ns2XPass.Queue.Conformance

/-! # Progress of a switch port

The link takes one packet at a time and calls back when it is done with it. A
queue that is not blocked has nothing to send, or only credits that wait for
tokens with the timer set to the time when they are due.
-/

namespace Ns2XPass

/-- The packets the link holds still, once it has called back in a `resume`. -/
def calledBack (n : ℕ) : QueueAction → ℕ
  | .resume => n - 1
  | .tick _ | .enque _ | .deque | .recv _ | .expire => n

/-- The number of packets handed to the link that it has not called back for. -/
def recordOutstanding (cfg : QueueConfig) (s : QueueState) (x : QueueAction) (_ : QueueState)
    (n : ℕ) : ℕ :=
  calledBack n x + (forwarded (s.effects cfg x)).length

/-- Packets arrive by `recv` only, and the link calls back once for each that it was handed. -/
def Linked (s : QueueState × ℕ) : QueueAction → Prop
  | .tick _ | .recv _ | .expire => True
  | .resume => 0 < s.2
  | .enque _ | .deque => False

instance (s : QueueState × ℕ) : DecidablePred (Linked s)
  | .tick _ | .recv _ | .expire => inferInstanceAs (Decidable True)
  | .resume => inferInstanceAs (Decidable (0 < s.2))
  | .enque _ | .deque => inferInstanceAs (Decidable False)

/-- A queue before its link, with the number of packets that are outstanding. -/
def linkedMachine (cfg : QueueConfig) : Machine (QueueState × ℕ) QueueAction QueueExit :=
  ((queueMachine cfg).withHistory 0 (recordOutstanding cfg)).restrict Linked

namespace XPassDropTail

variable {cfg : QueueConfig} {now : ℚ} {q q₁ : XPassDropTail} {n : ℕ}

/-! ## No call stops the simulation -/

theorem forwardUnlessBlocked_ok (cfg : QueueConfig) (now : ℚ) (q : XPassDropTail) :
    ∃ r, q.forwardUnlessBlocked cfg now = .ok r := by
  obtain ⟨q₁, p, hd, -⟩ := deque_dequeued cfg now q
  unfold forwardUnlessBlocked
  rw [hd]
  split_ifs
  · exact ⟨_, rfl⟩
  · cases p <;> exact ⟨_, rfl⟩

theorem recv_ok (cfg : QueueConfig) (now : ℚ) (q : XPassDropTail) (p : Packet) :
    ∃ r, q.recv cfg now p = .ok r := by
  obtain ⟨r, hr⟩ := forwardUnlessBlocked_ok cfg now (q.enque cfg p).1
  exact ⟨_, bind_eq_ok.mpr ⟨r, hr, rfl⟩⟩

theorem resume_ok (cfg : QueueConfig) (now : ℚ) (q : XPassDropTail) :
    ∃ r, q.resume cfg now = .ok r := by
  obtain ⟨q₁, p, hd, -⟩ := deque_dequeued cfg now q
  unfold resume
  rw [hd]
  cases p <;> exact ⟨_, rfl⟩

theorem handle_ok (cfg : QueueConfig) (now : ℚ) (h : q.creditTimer.status = .pending) :
    ∃ r, q.handle cfg now = .ok r := by
  have hb := TimerHandler.beginHandle_eq_ok_iff.mpr ⟨h, rfl⟩
  obtain ⟨r, hr⟩ := forwardUnlessBlocked_ok cfg now
    { q with creditTimer := { q.creditTimer with status := .handling } }
  exact ⟨_, bind_eq_ok.mpr ⟨_, mapError_eq_ok.mpr hb, bind_eq_ok.mpr ⟨r, hr, rfl⟩⟩⟩

/-! ## Between two events -/

/-- The timer expires when the first credit is due. -/
structure Due (cfg : QueueConfig) (now : ℚ) (q : XPassDropTail) (p : Packet) : Prop where
  tokens_lt : q.tokens < p.size
  time : ∃ t ≤ now, q.creditTimer.time = t + q.creditDelay cfg p ∧
    (0 < cfg.tokenRefreshRate → q.tokenBucketClock ≤ t)

/-- A queue between two events, when `n` packets are outstanding. -/
structure Progress (cfg : QueueConfig) (now : ℚ) (q : XPassDropTail) (n : ℕ) : Prop where
  outstanding : n = q.blocked.toNat
  data : q.blocked = false → q.dataQ.packets = []
  timer : q.creditTimer.Armed (q.blocked = false ∧ q.creditQ.packets ≠ [])
  due : ∀ p, q.creditTimer.status = .pending → q.creditQ.head = some p → Due cfg now q p
  clock_le : 0 < cfg.tokenRefreshRate → q.tokenBucketClock ≤ now

theorem enque_eq (cfg : QueueConfig) (p : Packet) (q : XPassDropTail) :
    ∃ c d, (q.enque cfg p).1 = { q with creditQ := c, dataQ := d } := by
  unfold enque
  dsimp only
  split_ifs <;> exact ⟨_, _, rfl⟩

theorem refreshed_clock_le (h : 0 < cfg.tokenRefreshRate → q.tokenBucketClock ≤ now)
    (hr : 0 < cfg.tokenRefreshRate) : (q.refreshed cfg now).tokenBucketClock ≤ now := by
  have hb : (q.bucket.refill cfg.tokenRefreshRate cfg.maxTokens now).clock ≤ now :=
    Bucket.clock_refill_le hr (h hr)
  rwa [← bucket_refreshed hr] at hb

/-- A `deque` that forwards a packet leaves the timer idle, and one that does not leaves it
pending if there are credits. -/
theorem Dequeued.progress {p : Option Packet}
    (hd : Dequeued cfg now (q.refreshed cfg now) q₁ p)
    (hclock : 0 < cfg.tokenRefreshRate → q.tokenBucketClock ≤ now) :
    Progress cfg now { q₁ with blocked := p.isSome, creditTimer := q₁.creditTimer.endHandle }
      p.toList.length := by
  have hidle : (q.refreshed cfg now).creditTimer.endHandle.status = .idle := by
    rw [refreshed_creditTimer]
    exact TimerHandler.forceCancel_endHandle_status
  have hle := refreshed_clock_le hclock
  generalize q.refreshed cfg now = r at hidle hle hd
  cases hd with
  | credit => exact ⟨rfl, by simp, .idle hidle (by simp), by simp [hidle], hle⟩
  | data => exact ⟨rfl, by simp, .idle hidle (by simp), by simp [hidle], hle⟩
  | @wait c rest hc htok hdata =>
    refine ⟨rfl, fun _ => hdata, .resched ⟨rfl, by simp [hc]⟩, fun p _ hp => ?_, hle⟩
    obtain rfl : c = p := Option.some.inj ((PacketQueue.head_of_cons hc).symm.trans hp)
    exact ⟨htok, now, le_rfl, rfl, hle⟩
  | idle hc hdata =>
    exact ⟨rfl, fun _ => hdata, .idle hidle (by simp [hc]), by simp [hidle], hle⟩

/-- Outside its own expiry the timer is not being handled, and `endHandle` does nothing. -/
theorem Dequeued.endHandle {p : Option Packet} (hd : Dequeued cfg now (q.refreshed cfg now) q₁ p)
    (h : q.creditTimer.status ≠ .handling) :
    q₁.creditTimer.endHandle = q₁.creditTimer := by
  have hrefreshed : (q.refreshed cfg now).creditTimer.status ≠ .handling := by
    simp [TimerHandler.forceCancel_status h]
  cases hd with
  | wait => rfl
  | _ => exact TimerHandler.endHandle_of_ne hrefreshed

theorem Progress.le_one (h : Progress cfg now q n) : n ≤ 1 := by
  rw [h.outstanding]
  exact Bool.toNat_le _

theorem Progress.blocked_iff (h : Progress cfg now q n) : q.blocked = true ↔ n = 1 := by
  rw [h.outstanding]
  cases q.blocked <;> decide

theorem Progress.enque (h : Progress cfg now q n) (hb : q.blocked = true) (p : Packet) :
    Progress cfg now (q.enque cfg p).1 n := by
  have hidle : q.creditTimer.status = .idle := h.timer.idle_iff.mpr (by simp [hb])
  obtain ⟨c, d, he⟩ := enque_eq cfg p q
  rw [he]
  exact ⟨h.outstanding, by simp [hb], .idle hidle (by simp [hb]), by simp [hidle], h.clock_le⟩

theorem Progress.recv (h : Progress cfg now q n) {p : Packet} {out : List QueueEffect}
    (hs : q.recv cfg now p = .ok (q₁, out)) :
    Progress cfg now q₁ (n + (forwarded out).length) := by
  obtain ⟨out₁, hf, rfl⟩ := recv_eq_ok hs
  obtain ⟨c, d, he⟩ := enque_eq cfg p q
  rw [forwarded_append, forwarded_enque, List.nil_append]
  rcases forwardUnlessBlocked_eq_ok hf with ⟨hb, rfl, rfl⟩ | ⟨hb, q₂, o, hd, rfl, rfl⟩
  · rw [he] at hb
    exact h.enque hb p
  · rw [he] at hb hd
    have hn : n = 0 := by rw [h.outstanding, show q.blocked = false from hb]; rfl
    have hq := hd.progress h.clock_le
    rw [hd.endHandle h.timer.ne_handling] at hq
    rwa [forwarded_map, hn, Nat.zero_add]

theorem Progress.resume (hu : cfg.unblockOnResume = true) (h : Progress cfg now q n)
    (hn : 0 < n) {out : List QueueEffect} (hs : q.resume cfg now = .ok (q₁, out)) :
    Progress cfg now q₁ (n - 1 + (forwarded out).length) := by
  obtain ⟨q₂, p, hd, rfl, rfl⟩ := resume_eq_ok hs
  have hb : q.blocked = true := by
    by_contra hb
    rw [h.outstanding, Bool.eq_false_iff.mpr hb] at hn
    exact absurd hn (lt_irrefl 0)
  have hn' : n = 1 := by rw [h.outstanding, hb]; rfl
  have hb₂ : q₂.blocked = true := by cases hd <;> simpa using hb
  have hq := hd.progress h.clock_le
  rw [hd.endHandle h.timer.ne_handling] at hq
  rw [forwarded_map, hn', Nat.sub_self, Nat.zero_add]
  cases p with
  | some p =>
    rw [show (some p).isSome = q₂.blocked from hb₂.symm] at hq
    exact hq
  | none => simpa [hu] using hq

theorem Progress.handle (h : Progress cfg now q n) {out : List QueueEffect}
    (hs : q.handle cfg now = .ok (q₁, out)) :
    Progress cfg now q₁ (n + (forwarded out).length) := by
  obtain ⟨hp, q₂, hf, rfl⟩ := handle_eq_ok hs
  have hb := (h.timer.pending_iff.mp hp).1
  have hn : n = 0 := by rw [h.outstanding, hb]; rfl
  rcases forwardUnlessBlocked_eq_ok hf with ⟨hb', _, _⟩ | ⟨_, q₃, p, hd, rfl, rfl⟩
  · rw [show q.blocked = true from hb'] at hb
    contradiction
  · rw [forwarded_map, hn, Nat.zero_add]
    exact hd.progress h.clock_le

theorem Progress.tick (h : Progress cfg now q n) {t : ℚ} (ht : now ≤ t) : Progress cfg t q n where
  outstanding := h.outstanding
  data := h.data
  timer := h.timer
  due p hp hc := by
    obtain ⟨htok, t₀, h₀, htime⟩ := h.due p hp hc
    exact ⟨htok, t₀, h₀.trans ht, htime⟩
  clock_le hr := (h.clock_le hr).trans ht

end XPassDropTail

open XPassDropTail

theorem react_ok (cfg : QueueConfig) {s : QueueState} {x : QueueAction}
    (he : s.Enabled x) : ∃ r, s.react cfg x = .ok r := by
  cases x with
  | tick t => exact ⟨_, rfl⟩
  | enque p => exact ⟨_, rfl⟩
  | deque =>
    obtain ⟨q₁, p, hd, -⟩ := deque_dequeued cfg s.clock s.queue
    exact ⟨_, by rw [QueueState.react, hd]; rfl⟩
  | recv p => exact recv_ok cfg s.clock s.queue p
  | resume => exact resume_ok cfg s.clock s.queue
  | expire => exact handle_ok cfg s.clock he

/-- Every event between a queue and its link keeps the progress. -/
theorem progress_react {cfg : QueueConfig} {s : QueueState} {x : QueueAction} {n : ℕ}
    {q' : XPassDropTail} {out : List QueueEffect} (hu : cfg.unblockOnResume = true)
    (h : s.queue.Progress cfg s.clock n) (hx : Linked (s, n) x)
    (hs : s.react cfg x = .ok (q', out)) :
    q'.Progress cfg s.clock (calledBack n x + (forwarded out).length) := by
  cases x with
  | tick t =>
    obtain ⟨rfl, rfl⟩ := Prod.mk.inj (Except.ok.inj hs)
    exact h
  | enque p => exact hx.elim
  | deque => exact hx.elim
  | recv p => exact h.recv hs
  | resume => exact h.resume hu hx hs
  | expire => exact h.handle hs

theorem progress_invariant {cfg : QueueConfig} (hu : cfg.unblockOnResume = true) :
    (linkedMachine cfg).Invariant fun p => p.1.queue.Progress cfg p.1.clock p.2 where
  init p hi := by
    obtain ⟨⟨hq, hclock⟩, hn⟩ := hi
    rw [hq, hn]
    exact ⟨rfl, fun _ => rfl, .idle rfl (by simp), by simp, fun _ => hclock⟩
  step p x p' h he hs := by
    obtain ⟨hs, hn⟩ := (Machine.withHistory_step_iff 0).mp hs
    obtain ⟨hreact, hclock⟩ := QueueState.step_eq_ok hs
    have hp := progress_react hu h he.2 hreact
    rw [hn, hclock, recordOutstanding]
    apply hp.tick
    cases x with
    | tick t => exact he.1
    | _ => exact le_rfl

/-- At the time it is set to, the timer finds the tokens for the first credit. -/
theorem XPassDropTail.Due.le_tokens {cfg : QueueConfig} {now : ℚ} {q : XPassDropTail} {p : Packet}
    (h : q.Due cfg now p) (hnow : q.creditTimer.time = now) (hmax : p.size ≤ cfg.maxTokens)
    (t : TimerHandler) : p.size ≤ ({ q with creditTimer := t }.refreshed cfg now).tokens := by
  obtain ⟨htok, t₀, ht, htime, hclock⟩ := h
  rw [hnow, creditDelay] at htime
  split_ifs at htime with h0
  · simp at htime
  · have hnow : now = t₀ + (p.size - q.tokens : ℤ) / cfg.tokenRefreshRate := by exact_mod_cast htime
    have hsize : (0 : ℚ) < (p.size - q.tokens : ℤ) := by exact_mod_cast sub_pos.mpr htok
    have hr : 0 < cfg.tokenRefreshRate := by
      by_contra hneg
      have hdelay := div_neg_of_pos_of_neg hsize (lt_of_le_of_ne (not_lt.mp hneg) h0)
      linarith
    have hdue : (p.size : ℚ) ≤ q.bucket.level cfg.tokenRefreshRate now := by
      have hcame : (now - t₀) * cfg.tokenRefreshRate = (p.size - q.tokens : ℤ) := by
        rw [hnow, add_sub_cancel_left, div_mul_cancel₀ _ h0]
      have hmore := mul_le_mul_of_nonneg_right (sub_le_sub_left (hclock hr) now) hr.le
      push_cast at hcame
      simp only [Bucket.level, bucket]
      linarith
    have hrefreshed : ({ q with creditTimer := t }.refreshed cfg now).bucket =
        q.bucket.refill cfg.tokenRefreshRate cfg.maxTokens now := bucket_refreshed hr
    exact (Bucket.le_tokens_refill hr hmax htok hdue).trans_eq
      (congrArg Bucket.tokens hrefreshed).symm

theorem forwarded_expire {cfg : QueueConfig} {s : QueueState} {n : ℕ} {p : Packet}
    (h : s.queue.Progress cfg s.clock n) (hp : s.queue.creditTimer.status = .pending)
    (hnow : s.queue.creditTimer.time = s.clock) (hc : s.queue.creditQ.head = some p)
    (hmax : p.size ≤ cfg.maxTokens) : forwarded (s.effects cfg .expire) = [p] := by
  obtain ⟨⟨q', out⟩, hs⟩ := handle_ok cfg s.clock hp
  have heff : s.effects cfg .expire = out := by
    simp only [QueueState.effects, QueueState.react, hs]
  obtain ⟨-, q₁, hf, -⟩ := handle_eq_ok hs
  have hb := (h.timer.pending_iff.mp hp).1
  have htok := (h.due p hp hc).le_tokens hnow hmax { s.queue.creditTimer with status := .handling }
  rcases forwardUnlessBlocked_eq_ok hf with ⟨hb', _, _⟩ | ⟨_, q₂, o, hd, _, rfl⟩
  · rw [show s.queue.blocked = true from hb'] at hb
    contradiction
  · rw [heff, forwarded_map]
    cases hd with
    | credit hcons =>
      rw [refreshed_creditQ] at hcons
      rw [Option.some.inj ((PacketQueue.head_of_cons hcons).symm.trans hc)]
      rfl
    | data hcons =>
      rw [refreshed_dataQ, show s.queue.dataQ.packets = [] from h.data hb] at hcons
      contradiction
    | wait hcons hlt =>
      rw [refreshed_creditQ] at hcons
      rw [Option.some.inj ((PacketQueue.head_of_cons hcons).symm.trans hc)] at hlt
      exact absurd htok (not_le.mpr hlt)
    | idle hnil =>
      rw [refreshed_creditQ] at hnil
      exact absurd ((PacketQueue.head_of_nil hnil).symm.trans hc) (by simp)

end Ns2XPass
