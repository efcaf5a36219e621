import Mathlib.Algebra.Order.BigOperators.Group.Finset
import Mathlib.Algebra.Order.Ring.Int
import Ns2XPass.Library.Ahead
import Ns2XPass.Library.Path
import Ns2XPass.Queue.ActiveFlows

/-! # Stochastic fair queueing

A packet goes to the bucket that its addresses hash to, unless the queue has too
many packets for it. Each bucket on the ring is served one packet, and then the
next one is.
-/

namespace Ns2XPass

structure SFQ (α : Type*) where
  maxqueue : ℤ
  buckets : ℤ
  bucket : FlowQueues α
  ring : RingLinks ℕ := ⟨fun _ => none, fun _ => none⟩
  active : Option ℕ := none
  occupied : ℤ := 0
  fairshare : ℤ

namespace SFQ

variable {α : Type*} [DecidableEq α]

/-- The state when the first call of `enque` or `deque` has allocated the buckets. -/
def initsfq (maxqueue buckets : ℤ) (memory : PacketMemory α) : SFQ α where
  maxqueue := maxqueue
  buckets := buckets
  bucket := { memory := memory }
  fairshare := maxqueue.tdiv buckets

def hash (iph : IpHeader) : ℤ :=
  let k := iph.saddr + iph.daddr
  (k + k.sshiftRight 8 + ~~~ k.sshiftRight 4).toInt.tmod (2 ^ 20 - 1)

section Calls

variable (ip : α → IpHeader) (q : SFQ α) (p : α)

def bucketIndex : ℤ := (hash (ip p)).tmod q.buckets

def which : ℕ := (q.bucketIndex ip p).toNat

/-- The packets that a bucket with `used` packets does not take. -/
def Refuses (used : ℤ) : Prop :=
  let left := q.maxqueue - q.occupied
  left >>> (1 : ℕ) ≤ used ∨ left < q.buckets ∧ q.fairshare < used ∨ left ≤ 0

instance (used : ℤ) : Decidable (q.Refuses used) :=
  inferInstanceAs (Decidable (_ ∨ _ ∧ _ ∨ _))

/-- `enque`, with the packet that it drops. -/
def enque : Except FlowError (Option α × SFQ α) :=
  let b := q.which ip p
  if q.Refuses (q.bucket.pkts b) then .ok (some p, q)
  else
    let f := q.bucket.enque p b
    (f.join q.ring q.active b).map fun r =>
      (none, { q with bucket := f, ring := r.1, active := r.2, occupied := q.occupied + 1 })

def deque : Except FlowError (Option α × SFQ α) :=
  match q.active with
  | none => .ok (none, q)
  | some b =>
    let r := q.bucket.deque b
    let q' := { q with bucket := r.2, occupied := q.occupied - 1 }
    if r.2.pkts b = 0 then
      (PacketSFQ.idle q.ring b (some b)).map fun i =>
        (r.1, { q' with ring := i.1, active := i.2 })
    else .ok (r.1, { q' with active := q.ring.next b })

def contents (q : SFQ α) (b : ℕ) : List α := q.bucket.contents b

def step : QueueCall α → Except FlowError (SFQ α)
  | .enque p => (q.enque ip p).map (·.2)
  | .deque => q.deque.map (·.2)

/-- A packet is not enqueued again before it has left the queue, and there is a bucket for it. -/
def Enabled : QueueCall α → Prop
  | .enque p => (∀ b < q.buckets.toNat, p ∉ q.contents b) ∧ 0 ≤ q.bucketIndex ip p
  | .deque => True

instance (x : QueueCall α) : Decidable (q.Enabled ip x) :=
  match x with
  | .enque _ => inferInstanceAs (Decidable (_ ∧ _))
  | .deque => inferInstanceAs (Decidable True)

end Calls

def machine (ip : α → IpHeader) : Machine (SFQ α) (QueueCall α) FlowError where
  Init q := ∃ maxqueue buckets memory, 1 ≤ buckets ∧ q = initsfq maxqueue buckets memory
  Enabled q := q.Enabled ip
  step q := q.step ip

instance (ip : α → IpHeader) (q : SFQ α) (x : QueueCall α) :
    Decidable ((machine ip).Enabled q x) :=
  inferInstanceAs (Decidable (q.Enabled ip x))

/-! ## The packets of the buckets -/

variable {ip : α → IpHeader} {q q' : SFQ α} {p : α} {b : ℕ} {contents : ℕ → List α}
  {as : List ℕ}

structure Holds (ip : α → IpHeader) (q : SFQ α) (contents : ℕ → List α) (as : List ℕ) : Prop where
  queues : q.bucket.Holds contents
  onRing : OnRing q.ring q.active contents as
  some_bucket : 1 ≤ q.buckets
  home : ∀ b, ∀ p ∈ contents b, q.which ip p = b ∧ 0 ≤ q.bucketIndex ip p
  occupied : q.occupied = ∑ b ∈ Finset.range q.buckets.toNat, ((contents b).length : ℤ)

omit [DecidableEq α] in
theorem which_lt (hb : 1 ≤ q.buckets) :
    q.which ip p < q.buckets.toNat := by
  have hlt : q.bucketIndex ip p < q.buckets := Int.tmod_lt_of_pos _ (by omega)
  unfold which
  omega

omit [DecidableEq α] in
theorem Holds.contents_eq (h : Holds ip q contents as) : q.contents = contents :=
  h.queues.contents_eq

omit [DecidableEq α] in
theorem Holds.lt (h : Holds ip q contents as) (hb : contents b ≠ []) : b < q.buckets.toNat := by
  obtain ⟨p, hp⟩ := List.exists_mem_of_ne_nil _ hb
  obtain ⟨rfl, -⟩ := h.home b p hp
  exact which_lt h.some_bucket

omit [DecidableEq α] in
theorem holds_initsfq {maxqueue buckets : ℤ} {memory : PacketMemory α} (hb : 1 ≤ buckets) :
    Holds ip (initsfq maxqueue buckets memory) (fun _ => []) [] where
  queues := FlowQueues.holds_empty memory
  onRing := ⟨RingLinks.spells_nil, rfl, by simp⟩
  some_bucket := hb
  home _ _ h := absurd h List.not_mem_nil
  occupied := by simp [initsfq]

omit [DecidableEq α] in
/-- What a change of one bucket does to the number of packets. -/
theorem sum_update {n : ℕ} (contents : ℕ → List α) (ps : List α) (hb : b < n) :
    ∑ c ∈ Finset.range n, ((Function.update contents b ps c).length : ℤ) =
      ∑ c ∈ Finset.range n, ((contents c).length : ℤ) + ps.length - (contents b).length := by
  rw [sum_range_eq hb fun c hc => by rw [Function.update_of_ne hc], Function.update_self]

omit [DecidableEq α] in
/-- A bucket that changes keeps the packets that belong to it. -/
theorem Holds.home_update (h : Holds ip q contents as) {ps : List α}
    (hps : ∀ p ∈ ps, q.which ip p = b ∧ 0 ≤ q.bucketIndex ip p) (c : ℕ) :
    ∀ p ∈ Function.update contents b ps c, q.which ip p = c ∧ 0 ≤ q.bucketIndex ip p := by
  by_cases hc : c = b
  · subst hc
    rwa [Function.update_self]
  · rw [Function.update_of_ne hc]
    exact h.home c

/-- A packet is refused, and nothing changes, or it comes to the end of its bucket, which joins
the ring if it was empty. -/
theorem Holds.enque (h : Holds ip q contents as) (he : q.Enabled ip (.enque p)) :
    q.enque ip p = .ok (some p, q) ∨
      ∃ q', q.enque ip p = .ok (none, q') ∧ q'.buckets = q.buckets ∧
        Holds ip q' (Function.update contents (q.which ip p) (contents (q.which ip p) ++ [p]))
          (if contents (q.which ip p) = [] then as ++ [q.which ip p] else as) := by
  obtain ⟨hnew, h0⟩ := he
  unfold SFQ.enque
  by_cases hr : q.Refuses (q.bucket.pkts (q.which ip p))
  · exact .inl (if_pos hr)
  · right
    have hfresh : ∀ c, p ∉ contents c := by
      intro c hc
      rw [h.contents_eq] at hnew
      exact hnew c (h.lt (List.ne_nil_of_mem hc)) hc
    obtain ⟨hf, -⟩ := h.queues.enque (b := q.which ip p) hfresh
    obtain ⟨r, hd, hj, ho⟩ := h.onRing.join hf (by simp)
    refine ⟨{ q with
      bucket := q.bucket.enque p (q.which ip p), ring := r, active := hd,
      occupied := q.occupied + 1 }, ?_, rfl, hf, ho, h.some_bucket, ?_, ?_⟩
    · simp only [if_neg hr, hj]
      rfl
    · apply h.home_update
      simp only [List.mem_append, List.mem_singleton]
      rintro a (ha | rfl)
      · exact h.home _ a ha
      · exact ⟨rfl, h0⟩
    · rw [sum_update _ _ (which_lt h.some_bucket), ← h.occupied, List.length_append,
        List.length_singleton]
      change q.occupied + 1 = _
      omega

theorem Holds.deque_nil (h : Holds ip q contents []) : q.deque = .ok (none, q) := by
  rw [SFQ.deque, h.onRing.head]
  rfl

/-- The bucket at the head of the ring gives its first packet. It leaves the ring with its last
packet, and otherwise goes to the end. -/
theorem Holds.deque (h : Holds ip q contents (b :: as)) :
    ∃ p ps q', contents b = p :: ps ∧ q.deque = .ok (some p, q') ∧ q'.buckets = q.buckets ∧
      Holds ip q' (Function.update contents b ps) (if ps = [] then as else as ++ [b]) := by
  have hb : contents b ≠ [] := (h.onRing.mem b).mp List.mem_cons_self
  obtain ⟨p, ps, hps⟩ := List.exists_cons_of_ne_nil hb
  obtain ⟨hp, hf⟩ := h.queues.deque hps
  have hactive : q.active = some b := h.onRing.head
  have hhome : ∀ a ∈ ps, q.which ip a = b ∧ 0 ≤ q.bucketIndex ip a := fun a ha =>
    h.home b a (hps ▸ List.mem_cons_of_mem p ha)
  have hocc : q.occupied - 1 = ∑ c ∈ Finset.range q.buckets.toNat,
      ((Function.update contents b ps c).length : ℤ) := by
    rw [sum_update _ _ (h.lt hb), ← h.occupied, hps, List.length_cons]
    omega
  have hzero : (q.bucket.deque b).2.pkts b = 0 ↔ ps = [] := by
    rw [hf.pkts_eq_zero, Function.update_self]
  simp only [SFQ.deque, hactive]
  by_cases hnil : ps = []
  · obtain ⟨r, hi, hs⟩ := PacketSFQ.idle_eq h.onRing.spells
    refine ⟨p, ps, { q with
      bucket := (q.bucket.deque b).2, ring := r, active := as.head?,
      occupied := q.occupied - 1 }, hps, ?_, rfl, ?_⟩
    · rw [if_pos (hzero.mpr hnil), hi, hp]
      rfl
    rw [if_pos hnil]
    refine ⟨hf, ?_, h.some_bucket, h.home_update hhome, hocc⟩
    rw [hnil]
    have h₀ : Holds ip q contents ([] ++ b :: as) := h
    exact h₀.onRing.leave hs
  · refine ⟨p, ps, { q with
      bucket := (q.bucket.deque b).2, active := q.ring.next b,
      occupied := q.occupied - 1 }, hps, by rw [if_neg (mt hzero.mp hnil), hp], rfl, ?_⟩
    rw [if_neg hnil]
    refine ⟨hf, ?_, h.some_bucket, h.home_update hhome, hocc⟩
    refine h.onRing.turn.congr fun c => ?_
    by_cases hc : c = b
    · subst hc
      simp [hnil, hb]
    · rw [Function.update_of_ne hc]

/-! ## Whole runs -/

/-- The packets that the queue has taken and those it has given away. -/
structure Log (α : Type*) where
  arrived : List α := []
  departed : List α := []

namespace Log

variable (ip : α → IpHeader) (q : SFQ α) (x : QueueCall α) (l : Log α)

def after : Log α :=
  match x with
  | .enque p =>
    match q.enque ip p with
    | .ok (none, _) => { l with arrived := l.arrived ++ [p] }
    | _ => l
  | .deque =>
    match q.deque with
    | .ok (some p, _) => { l with departed := l.departed ++ [p] }
    | _ => l

/-- What has arrived for a bucket has departed in the same order, but for the packets that the
bucket holds. -/
def Balanced (ip : α → IpHeader) (q : SFQ α) (l : Log α) (contents : ℕ → List α) : Prop :=
  ∀ b, l.arrived.filter (q.which ip · = b) = l.departed.filter (q.which ip · = b) ++ contents b

end Log

def loggedMachine (ip : α → IpHeader) : Machine (SFQ α × Log α) (QueueCall α) FlowError :=
  (machine ip).withHistory {} fun q x _ l => l.after ip q x

instance (ip : α → IpHeader) (r : SFQ α × Log α) (x : QueueCall α) :
    Decidable ((loggedMachine ip).Enabled r x) :=
  inferInstanceAs (Decidable (r.1.Enabled ip x))

omit [DecidableEq α] in
theorem which_congr (h : q'.buckets = q.buckets) : q'.which ip = q.which ip := by
  funext p
  rw [which, bucketIndex, h, which, bucketIndex]

omit [DecidableEq α] in
theorem Log.Balanced.arrive {l : Log α} (h : l.Balanced ip q contents) (p : α) :
    ({ l with arrived := l.arrived ++ [p] } : Log α).Balanced ip q
      (Function.update contents (q.which ip p) (contents (q.which ip p) ++ [p])) := by
  intro b
  rw [List.filter_append, h b]
  by_cases hb : q.which ip p = b
  · subst hb
    simp
  · simp [hb, Function.update_of_ne (Ne.symm hb)]

omit [DecidableEq α] in
theorem Log.Balanced.depart {l : Log α} {ps : List α} (h : l.Balanced ip q contents)
    (hb : contents b = p :: ps) (hp : q.which ip p = b) :
    ({ l with departed := l.departed ++ [p] } : Log α).Balanced ip q
      (Function.update contents b ps) := by
  intro c
  rw [List.filter_append, h c]
  by_cases hc : c = b
  · subst hc
    simp [hb, hp]
  · have : q.which ip p ≠ c := fun he => hc (he.symm.trans hp)
    simp [this, Function.update_of_ne hc]

/-- What one call does, with what it means for the packets that have come and gone. -/
theorem Holds.step (h : Holds ip q contents as) {x : QueueCall α} (he : q.Enabled ip x) :
    ∃ q' contents' as', q.step ip x = .ok q' ∧ Holds ip q' contents' as' ∧
      ∀ l : Log α, l.Balanced ip q contents → (l.after ip q x).Balanced ip q' contents' := by
  cases x with
  | enque p =>
    obtain hr | ⟨q', hr, hb, h'⟩ := h.enque he
    · exact ⟨q, contents, as, by rw [SFQ.step, hr]; rfl, h, fun l hl => by simpa [Log.after, hr]⟩
    · refine ⟨q', _, _, by rw [SFQ.step, hr]; rfl, h', fun l hl => ?_⟩
      have := hl.arrive p
      simp only [Log.after, hr]
      unfold Log.Balanced at this ⊢
      rwa [which_congr hb]
  | deque =>
    cases as with
    | nil =>
      exact ⟨q, contents, [], by rw [SFQ.step, h.deque_nil]; rfl, h,
        fun l hl => by simpa [Log.after, h.deque_nil]⟩
    | cons b as =>
      obtain ⟨p, ps, q', hps, hr, hb, h'⟩ := h.deque
      refine ⟨q', _, _, by rw [SFQ.step, hr]; rfl, h', fun l hl => ?_⟩
      have := hl.depart hps (h.home b p (by simp [hps])).1
      simp only [Log.after, hr]
      unfold Log.Balanced at this ⊢
      rwa [which_congr hb]

theorem invariant_holds :
    (loggedMachine ip).Invariant fun r => ∃ contents as, Holds ip r.1 contents as ∧
      r.2.Balanced ip r.1 contents where
  init := by
    rintro ⟨q, l⟩ ⟨⟨maxqueue, buckets, memory, hb, rfl⟩, hl⟩
    exact ⟨_, _, holds_initsfq hb, by cases hl; intro b; rfl⟩
  step := by
    rintro ⟨q, l⟩ x ⟨q', l'⟩ ⟨contents, as, h, hl⟩ he hs
    obtain ⟨hs, hlog⟩ := (Machine.withHistory_step_iff _).mp hs
    change l' = l.after ip q x at hlog
    obtain ⟨q₁, contents', as', hs', h', hl'⟩ := h.step he
    obtain rfl : q₁ = q' := Except.ok.inj (hs'.symm.trans hs)
    exact ⟨contents', as', h', hlog ▸ hl' l hl⟩

/-! ## Fairness -/

/-- The bucket that a call takes a packet from. -/
def service (q : SFQ α) : QueueCall α → Option ℕ
  | .enque _ => none
  | .deque => q.active

/-- The number of packets taken from a bucket on a path. -/
def services (b : ℕ) (ts : List (SFQ α × QueueCall α)) : ℤ :=
  (ts.map fun r => if r.1.service r.2 = some b then 1 else 0).sum

/-- A bucket that was behind another one has been served once when it is ahead of it. -/
def Turn (ip : α → IpHeader) (b c : ℕ) (q : SFQ α) (n : ℤ) : Prop :=
  ∃ contents as, Holds ip q contents as ∧ (n = 0 ∧ Ahead c b as ∨ n = 1 ∧ Ahead b c as)

variable {c : ℕ} {n : ℤ}

theorem Turn.step {x : QueueCall α} (h : Turn ip b c q n) (hc : q.contents c ≠ [])
    (hb : q.service x ≠ some b) (he : q.Enabled ip x) (hs : q.step ip x = .ok q')
    (hc' : q'.contents c ≠ []) :
    Turn ip b c q' (n + if q.service x = some c then 1 else 0) := by
  obtain ⟨contents, as, h, hn⟩ := h
  cases x with
  | enque p =>
    have hno : q.service (.enque p) ≠ some c := by simp [service]
    rw [if_neg hno, add_zero]
    obtain hr | ⟨q₁, hr, -, h'⟩ := h.enque he
    · obtain rfl : q = q' := by simpa [SFQ.step, hr, Except.map] using hs
      exact ⟨contents, as, h, hn⟩
    · obtain rfl : q₁ = q' := by simpa [SFQ.step, hr, Except.map] using hs
      refine ⟨_, _, h', ?_⟩
      split
      · exact hn.imp (And.imp_right (·.append _)) (And.imp_right (·.append _))
      · exact hn
  | deque =>
    cases as with
    | nil =>
      rcases hn with ⟨-, hn⟩ | ⟨-, hn⟩ <;> exact absurd hn.mem_left List.not_mem_nil
    | cons a as =>
      have ha : q.service .deque = some a := h.onRing.head
      obtain ⟨p, ps, q₁, hps, hr, -, h'⟩ := h.deque
      obtain rfl : q₁ = q' := by simpa [SFQ.step, hr, Except.map] using hs
      have hab : a ≠ b := by
        rintro rfl
        exact hb ha
      refine ⟨_, _, h', ?_⟩
      rw [ha]
      by_cases hac : a = c
      · -- The bucket is served, keeps a packet and goes behind the other one.
        subst hac
        have hnil : ps ≠ [] := by
          rw [h'.contents_eq, Function.update_self] at hc'
          exact hc'
        rw [if_pos rfl, if_neg hnil]
        rcases hn with ⟨rfl, hn⟩ | ⟨rfl, hn⟩
        · refine .inr ⟨rfl, .last ?_⟩
          exact (List.mem_cons.mp hn.mem_right).resolve_left hab.symm
        · exact (Ahead.not_first h.onRing.spells.nodup hn).elim
      · rw [if_neg (by simpa using hac), add_zero]
        split
        · exact hn.imp (And.imp_right (·.of_cons hac)) (And.imp_right (·.of_cons hab))
        · exact hn.imp (And.imp_right (·.turn hac)) (And.imp_right (·.turn hab))

/-- Until a bucket is served, every bucket ahead of it that keeps having packets is served once. -/
theorem Holds.services_eq (h : Holds ip q contents as) (hcb : Ahead c b as)
    {ts : List (SFQ α × QueueCall α)} {t : SFQ α} (hp : (machine ip).Path q ts t)
    (hb : ∀ r ∈ ts, r.1.service r.2 ≠ some b) (ht : t.active = some b)
    (hc : Machine.Throughout (fun s => s.contents c ≠ []) ts t) : services c ts = 1 := by
  have hturn : Turn ip b c t (0 + services c ts) :=
    hp.potential hc hb ⟨contents, as, h, .inl ⟨rfl, hcb⟩⟩
      fun s x s' n hc hc' hb he hs hR => hR.step hc hb he hs hc'
  obtain ⟨contents', as', h', ⟨-, hn⟩ | ⟨hn, -⟩⟩ := hturn
  · have := h'.onRing.head
    rw [ht] at this
    obtain ⟨as', rfl⟩ := List.head?_eq_some_iff.mp this.symm
    exact (Ahead.not_first h'.onRing.spells.nodup hn).elim
  · rwa [zero_add] at hn

/-- What holds of a queue after any run. -/
structure Fair (ip : α → IpHeader) (q : SFQ α) (l : Log α) : Prop where
  conserved : l.Balanced ip q q.contents
  occupied : q.occupied = ∑ b ∈ Finset.range q.buckets.toNat, ((q.contents b).length : ℤ)
  pkts : ∀ b, q.bucket.pkts b = (q.contents b).length
  ring : ∃ as, OnRing q.ring q.active q.contents as
  enque : ∀ p, q.Enabled ip (.enque p) → ∃ r, q.enque ip p = .ok r
  deque : ∃ r, q.deque = .ok r ∧ (r.1.isSome ↔ 0 < q.occupied)
  /-- From a service of a bucket that leaves a packet there, or from the first packet of the
  bucket, to its next service. -/
  once : ∀ b c x q' ts t, b ≠ c → q.Enabled ip x → q.step ip x = .ok q' →
    (q.service x = some b ∨ q.contents b = []) → q'.contents b ≠ [] →
    (machine ip).Path q' ts t → (∀ r ∈ ts, r.1.service r.2 ≠ some b) → t.active = some b →
    Machine.Throughout (fun s => s.contents c ≠ []) ts t → services c ts = 1

/-- A bucket that is served or gets its first packet goes behind all others. -/
theorem Holds.behind (h : Holds ip q contents as) {x : QueueCall α} (hbc : b ≠ c)
    (he : q.Enabled ip x) (hs : q.step ip x = .ok q')
    (hx : q.service x = some b ∨ q.contents b = []) (hb : q'.contents b ≠ [])
    (hc : q'.contents c ≠ []) :
    ∃ contents' as', Holds ip q' contents' as' ∧ Ahead c b as' := by
  cases x with
  | enque p =>
    have hempty : contents b = [] := by
      rw [← h.contents_eq]
      exact hx.resolve_left (by simp [service])
    obtain hr | ⟨q₁, hr, -, h'⟩ := h.enque he
    · obtain rfl : q = q' := by simpa [SFQ.step, hr, Except.map] using hs
      rw [h.contents_eq] at hb
      exact absurd hempty hb
    · obtain rfl : q₁ = q' := by simpa [SFQ.step, hr, Except.map] using hs
      have hbp : q.which ip p = b := by
        by_contra hne
        rw [h'.contents_eq, Function.update_of_ne (Ne.symm hne)] at hb
        exact hb hempty
      rw [hbp, if_pos hempty] at h'
      refine ⟨_, _, h', .last ?_⟩
      rw [h'.contents_eq, Function.update_of_ne hbc.symm] at hc
      exact (h.onRing.mem c).mpr hc
  | deque =>
    cases as with
    | nil =>
      obtain rfl : q = q' := by simpa [SFQ.step, h.deque_nil, Except.map] using hs
      rw [h.contents_eq] at hc
      exact absurd ((h.onRing.mem c).mpr hc) List.not_mem_nil
    | cons a as =>
      have ha : q.service .deque = some a := h.onRing.head
      obtain ⟨p, ps, q₁, hps, hr, -, h'⟩ := h.deque
      obtain rfl : q₁ = q' := by simpa [SFQ.step, hr, Except.map] using hs
      have hab : a = b := by
        rcases hx with hx | hx
        · exact Option.some.inj (ha.symm.trans hx)
        · by_contra hne
          rw [h'.contents_eq, Function.update_of_ne (Ne.symm hne), ← h.contents_eq] at hb
          exact hb hx
      subst hab
      have hnil : ps ≠ [] := by
        rw [h'.contents_eq, Function.update_self] at hb
        exact hb
      rw [if_neg hnil] at h'
      refine ⟨_, _, h', .last ?_⟩
      have := (h'.onRing.mem c).mpr (by rwa [← h'.contents_eq])
      simpa [hbc.symm] using this

omit [DecidableEq α] in
theorem Holds.occupied_pos (h : Holds ip q contents as) : 0 < q.occupied ↔ as ≠ [] := by
  rw [h.occupied]
  constructor
  · rintro hpos rfl
    have hzero : ∀ b ∈ Finset.range q.buckets.toNat, ((contents b).length : ℤ) = 0 := by
      rintro b -
      have := (h.onRing.mem b).not.mp List.not_mem_nil
      rw [not_not.mp this]
      rfl
    rw [Finset.sum_eq_zero hzero] at hpos
    exact lt_irrefl 0 hpos
  · intro hne
    obtain ⟨b, bs, rfl⟩ := List.exists_cons_of_ne_nil hne
    have hb := (h.onRing.mem b).mp List.mem_cons_self
    apply Finset.sum_pos'
    · exact fun c _ => Int.natCast_nonneg _
    · refine ⟨b, Finset.mem_range.mpr (h.lt hb), ?_⟩
      exact Int.natCast_pos.mpr (List.length_pos_of_ne_nil hb)

end SFQ

/-- A fair queue keeps its packets and serves its buckets in turn. -/
theorem sfq_fair {α : Type*} [DecidableEq α] (ip : α → IpHeader) {q : SFQ α} {l : SFQ.Log α}
    (hr : (SFQ.loggedMachine ip).Reachable (q, l)) : SFQ.Fair ip q l := by
  obtain ⟨contents, as, h, hl⟩ := SFQ.invariant_holds.reachable hr
  have hc := h.contents_eq
  refine ⟨hc ▸ hl, hc ▸ h.occupied, hc ▸ h.queues.pkts, ⟨as, hc ▸ h.onRing⟩, ?_, ?_, ?_⟩
  · intro p he
    obtain hd | ⟨q', hd, -⟩ := h.enque he <;> exact ⟨_, hd⟩
  · rw [h.occupied_pos]
    cases as with
    | nil => exact ⟨_, h.deque_nil, by simp⟩
    | cons b as =>
      obtain ⟨p, ps, q', -, hd, -⟩ := h.deque
      exact ⟨_, hd, by simp⟩
  · intro b c x q' ts t hbc he hs hx hb hp hno ht hthrough
    obtain ⟨contents', as', h', hahead⟩ :=
      h.behind hbc he hs hx hb (hp.start_of_throughout hthrough)
    exact h'.services_eq hahead hp hno ht hthrough

/-- Packets with even numbers go to bucket 0, those with odd numbers to bucket 1. -/
def evenOdd (p : ℕ) : IpHeader := ⟨BitVec.ofNat 32 (p % 2 + 1), 0, 0⟩

/-- Packets of 1000 bytes in fresh memory. -/
def freshMemory : PacketMemory ℕ := fun _ => ⟨none, { ptype := .other 0, size := 1000 }⟩

/-- After a packet for each bucket and one service. -/
theorem sfq_fair_served : ∃ r, (SFQ.loggedMachine evenOdd).Reachable r ∧ r.2.departed = [0] ∧
    SFQ.Fair evenOdd r.1 r.2 := by
  obtain ⟨⟨q, l⟩, hr, hp⟩ := (Machine.Reachable.init (M := SFQ.loggedMachine evenOdd)
    (s := (SFQ.initsfq 40 2 freshMemory, {}))
    ⟨⟨40, 2, freshMemory, by decide, rfl⟩, rfl⟩).exists_of_exec [.enque 0, .enque 1, .deque]
      (fun r => r.2.departed = [0]) (by decide +kernel)
  exact ⟨(q, l), hr, of_decide_eq_true hp, sfq_fair evenOdd hr⟩

/-- Bucket 1 always has packets, and three of them are taken before bucket 0 is served. -/
def ServesThrice (ts : List (SFQ ℕ × QueueCall ℕ)) (t : SFQ ℕ) : Prop :=
  (∀ r ∈ ts, r.1.service r.2 ≠ some 0) ∧ t.active = some 0 ∧
    ((∀ r ∈ ts, r.1.contents 1 ≠ []) ∧ t.contents 1 ≠ []) ∧ SFQ.services 1 ts = 3

instance (ts : List (SFQ ℕ × QueueCall ℕ)) (t : SFQ ℕ) : Decidable (ServesThrice ts t) :=
  inferInstanceAs (Decidable (_ ∧ _))

/-- While a bucket has no packets, another one may be served again and again. -/
theorem sfq_served_again : ¬ ∀ (q q' t : SFQ ℕ) (b c : ℕ) (ts : List (SFQ ℕ × QueueCall ℕ)),
    (SFQ.machine evenOdd).Reachable q → b ≠ c → q.active = some b →
    q.step evenOdd .deque = .ok q' → (SFQ.machine evenOdd).Path q' ts t →
    (∀ r ∈ ts, r.1.service r.2 ≠ some b) → t.active = some b →
    q.contents c ≠ [] → Machine.Throughout (fun s => s.contents c ≠ []) ts t →
    SFQ.services c ts = 1 := by
  intro h
  obtain ⟨q, hr, hp⟩ := (Machine.Reachable.init (M := SFQ.machine evenOdd)
    (s := SFQ.initsfq 40 2 freshMemory) ⟨40, 2, freshMemory, by decide, rfl⟩).exists_of_exec
    [.enque 0, .enque 1, .enque 3, .enque 5, .enque 7]
    (fun q => q.active = some 0 ∧ q.contents 1 ≠ [] ∧ (match q.step evenOdd .deque with
      | .ok q' => ((SFQ.machine evenOdd).trace q' [.deque, .deque, .enque 2, .deque]).any
          fun r => ServesThrice r.1 r.2
      | .error _ => false) = true) (by decide +kernel)
  obtain ⟨hactive, hc, hp⟩ := of_decide_eq_true hp
  cases hs : q.step evenOdd .deque with
  | error e => simp [hs] at hp
  | ok q' =>
    rw [hs] at hp
    obtain ⟨ts, t, hpath, hp⟩ := Machine.Path.exists_of_trace q' _ (ServesThrice · ·) hp
    obtain ⟨hno, ht, hthrough, hthree⟩ := of_decide_eq_true hp
    have := h q q' t 0 1 ts hr (by decide) hactive hs hpath hno ht hc hthrough
    omega

end Ns2XPass
