import Ns2XPass.Library.Machine
import Ns2XPass.Scheduler.CalendarCalls
import Mathlib.Data.Finset.Card

/-! # The accounts of the calendar

In every run each bucket is a ring in the order of time that starts at `list_`, with the
events of its cells, its number of distinct times and their sum over all buckets. No
call fails, and the number of buckets is a power of two.
-/

namespace Ns2XPass

variable {η : Type}

inductive CalendarCall (η : Type)
  | insert (e : Event η)
  | cancel (e : Event η)
  | deque
  | head
  | resize (newsize : ℕ)

namespace CalendarScheduler

variable {cfg : CalendarConfig} {c c' : CalendarScheduler η} {n : ℕ}

/-! ### The number of buckets -/

def PowerOfTwo (c : CalendarScheduler η) : Prop := ∃ k, 2 ≤ k ∧ c.nbuckets = 2 ^ k

@[simp] theorem nbuckets_rebuild (c : CalendarScheduler η) (n : ℕ) (w start : ℚ) :
    (c.rebuild n w start).nbuckets = n := by
  have hfold : ∀ (es : List (Event η)) (d : CalendarScheduler η),
      (es.foldl insert2 d).nbuckets = d.nbuckets := by
    intro es
    induction es with
    | nil => exact fun _ => rfl
    | cons e es ih => exact fun d => ih (d.insert2 e)
  exact hfold _ _

theorem nbuckets_newwidth {w : ℚ} (h : c.newwidth cfg n = .ok (w, c')) :
    c'.nbuckets = c.nbuckets := by
  have hmap : ∀ (d : CalendarScheduler η) (x : Except SchedulerAbort ℚ),
      x.map (fun w => (w, d)) = .ok (w, c') → c' = d := by
    intro d x hx
    obtain ⟨w', -, he⟩ := map_eq_ok.mp hx
    exact (Prod.mk.inj he).2.symm
  unfold newwidth at h
  split_ifs at h with h₁
  · dsimp only at h
    split at h
    · rw [← (Prod.mk.inj (Except.ok.inj h)).2]
    · rw [hmap _ _ h]
  · rw [hmap _ _ h]

theorem PowerOfTwo.resize (h : c.PowerOfTwo) {start : ℚ} (hn : ∃ k, n = 2 ^ k)
    (hc : c.resize cfg n start = .ok c') : c'.PowerOfTwo := by
  have hlarge : ¬ n < 4 → ∃ k, 2 ≤ k ∧ n = 2 ^ k := by
    obtain ⟨k, rfl⟩ := hn
    intro hge
    refine ⟨k, ?_, rfl⟩
    by_contra hk
    have : k ≤ 1 := by omega
    have := Nat.pow_le_pow_right (n := 2) (by omega) this
    omega
  unfold CalendarScheduler.resize at hc
  split_ifs at hc with hsame hmin hleft hfew
  · rw [← Except.ok.inj hc]
    exact h
  · obtain ⟨⟨w, d⟩, hw, hd⟩ := bind_eq_ok.mp hc
    rw [← pure_eq_ok.mp hd, PowerOfTwo, nbuckets_rebuild, hsame]
    exact h
  · rw [← Except.ok.inj hc, PowerOfTwo, nbuckets_rebuild, hsame]
    exact h
  · obtain ⟨⟨w, d⟩, hw, hd⟩ := bind_eq_ok.mp hc
    rw [← pure_eq_ok.mp hd, PowerOfTwo, nbuckets_rebuild]
    exact ⟨2, le_rfl, rfl⟩
  · obtain ⟨⟨w, d⟩, hw, hd⟩ := bind_eq_ok.mp hc
    rw [← pure_eq_ok.mp hd, PowerOfTwo, nbuckets_rebuild]
    exact hlarge hfew

theorem PowerOfTwo.insert (h : c.PowerOfTwo) {e : Event η} (hc : c.insert cfg e = .ok c') :
    c'.PowerOfTwo := by
  have hr : (c.rewindClock e.time).PowerOfTwo := by
    unfold CalendarScheduler.rewindClock
    split <;> exact h
  unfold CalendarScheduler.insert at hc
  generalize c.rewindClock e.time = d at hr hc
  dsimp only at hc
  split_ifs at hc
  · obtain ⟨k, hk2, hk⟩ := hr
    have hd : (d.link (d.hash e.time) (place e (d.buckets (d.hash e.time)).list).1
        (place e (d.buckets (d.hash e.time)).list).2.1).PowerOfTwo := ⟨k, hk2, hk⟩
    refine PowerOfTwo.resize ?_ ⟨k + 1, ?_⟩ hc
    · exact hd
    · change d.nbuckets * 2 = _
      rw [hk, Nat.pow_succ]
  · rw [← Except.ok.inj hc]
    exact hr

theorem PowerOfTwo.head (h : c.PowerOfTwo) {o : Option (Event η)} (hc : c.head = .ok (o, c')) :
    c'.PowerOfTwo := by
  unfold CalendarScheduler.head at hc
  split at hc
  · rw [← (Prod.mk.inj (Except.ok.inj hc)).2]
    exact h
  · obtain ⟨⟨l, e, v⟩, -, hd⟩ := bind_eq_ok.mp hc
    rw [← (Prod.mk.inj (pure_eq_ok.mp hd)).2]
    exact h

theorem PowerOfTwo.observeGap (h : c.PowerOfTwo) {e : Event η}
    (hc : c.observeGap cfg e = .ok c') : c'.PowerOfTwo := by
  unfold CalendarScheduler.observeGap at hc
  dsimp only at hc
  split_ifs at hc
  · rw [← Except.ok.inj hc]; exact h
  · rw [← Except.ok.inj hc]; exact h
  · rw [← Except.ok.inj hc]; exact h
  · obtain ⟨f, hf, he⟩ := map_eq_ok.mp hc
    obtain ⟨k, hk2, hk⟩ := h
    have hd : PowerOfTwo { c with
        avgGap := (e.time - c.lastTime) / (c.gapNum + 1 : ℕ)
        gapNum := 0
        lastTime := e.time
        roundNum := c.roundNum + 1 } := ⟨k, hk2, hk⟩
    have hf := hd.resize ⟨k, hk⟩ hf
    rw [← he]
    exact hf
  · rw [← Except.ok.inj hc]; exact h
  · rw [← Except.ok.inj hc]; exact h

theorem PowerOfTwo.removeHead (h : c.PowerOfTwo) {e : Event η}
    (hc : c.removeHead cfg e = .ok c') : c'.PowerOfTwo := by
  obtain ⟨k, hk2, hk⟩ := h
  unfold CalendarScheduler.removeHead at hc
  dsimp only at hc
  split_ifs at hc
  · obtain ⟨j, rfl⟩ : ∃ j, k = j + 1 := ⟨k - 1, by omega⟩
    refine PowerOfTwo.resize (n := c.nbuckets / 2) ⟨j + 1, hk2, ?_⟩ ⟨j, ?_⟩ hc
    · exact hk
    · rw [hk, Nat.pow_succ, Nat.mul_div_cancel _ Nat.two_pos]
  · rw [← Except.ok.inj hc]
    exact ⟨k, hk2, hk⟩

theorem PowerOfTwo.deque (h : c.PowerOfTwo) {o : Option (Event η)}
    (hc : c.deque cfg = .ok (o, c')) : c'.PowerOfTwo := by
  obtain ⟨⟨o', d⟩, hd, hc⟩ := bind_eq_ok.mp hc
  have hsized := h.head hd
  cases o' with
  | none =>
    rw [← (Prod.mk.inj (pure_eq_ok.mp hc)).2]
    exact hsized
  | some e =>
    obtain ⟨f, hf, hc⟩ := bind_eq_ok.mp hc
    obtain ⟨g, hg, hc⟩ := bind_eq_ok.mp hc
    rw [← (Prod.mk.inj (pure_eq_ok.mp hc)).2]
    exact (hsized.observeGap hf).removeHead hg

theorem PowerOfTwo.cancel [DecidableEq η] (h : c.PowerOfTwo) {e e' : Event η}
    (hc : c.cancel e = .ok (e', c')) : c'.PowerOfTwo := by
  unfold CalendarScheduler.cancel at hc
  dsimp only at hc
  split_ifs at hc
  · rw [← (Prod.mk.inj (Except.ok.inj hc)).2]
    exact h
  · rw [← (Prod.mk.inj (Except.ok.inj hc)).2]
    exact h

/-! ### The sum of the counts -/

theorem card_eventTimes_bagOf {n : ℕ} {f : ℕ → Multiset (Event η)}
    (h : ∀ i < n, ∀ j < n, ∀ x ∈ f i, ∀ y ∈ f j, x.time = y.time → i = j) :
    ((eventTimes (bagOf n f)).card : ℤ) = ∑ i ∈ Finset.range n, ((eventTimes (f i)).card : ℤ) := by
  induction n with
  | zero => rfl
  | succ n ih =>
    have hadd : eventTimes (bagOf (n + 1) f) = eventTimes (bagOf n f) ∪ eventTimes (f n) := by
      unfold bagOf eventTimes
      rw [Finset.sum_range_succ, Multiset.map_add, Multiset.toFinset_add]
    have hdisjoint : Disjoint (eventTimes (bagOf n f)) (eventTimes (f n)) := by
      rw [Finset.disjoint_left]
      intro t ht hn
      obtain ⟨x, hx, rfl⟩ := mem_eventTimes.mp ht
      obtain ⟨i, hi, hx⟩ := mem_bagOf.mp hx
      obtain ⟨y, hy, hxy⟩ := mem_eventTimes.mp hn
      have := h i (by omega) n (Nat.lt_succ_self n) x hx y hy hxy.symm
      omega
    rw [hadd, Finset.card_union_of_disjoint hdisjoint, Finset.sum_range_succ, Nat.cast_add,
      ih fun i hi j hj => h i (by omega) j (by omega)]

theorem Valid.statQsize_eq_sum (h : c.Valid) :
    c.statQsize = ∑ i ∈ Finset.range c.nbuckets, (c.buckets i).count := by
  rw [h.statQsize, events, card_eventTimes_bagOf]
  · exact Finset.sum_congr rfl fun i hi => (h.count i (Finset.mem_range.mp hi)).symm
  · intro i hi j hj x hx y hy hxy
    rw [← h.hash_eq i hi x hx, ← h.hash_eq j hj y hy, hxy]

end CalendarScheduler

/-! ### Runs -/

/-- The calls that the simulator makes: it numbers the events upwards and cancels pending ones,
and the calendar resizes itself to a power of two. -/
def LegalCalendarCall (q : List (Event η)) : CalendarCall η → Prop
  | .insert e => 0 ≤ e.time ∧ 0 < e.uid ∧ ∀ x ∈ q, x.uid < e.uid
  | .cancel e => e ∈ q ∨ e.uid ≤ 0
  | .deque => True
  | .head => True
  | .resize newsize => ∃ k, newsize = 2 ^ k

section Accounts

variable {p : LinkedCalendar η × List (Event η)}

/-- The calendar in memory spells out a valid calendar of the pending events. -/
structure Follows (p : LinkedCalendar η × List (Event η)) (c : CalendarScheduler η) : Prop where
  spelled : p.1.Spelled c
  valid : c.Valid
  power : c.PowerOfTwo
  events : c.events = p.2
  uids : ∀ e ∈ p.2, 0 < e.uid

/-- The state of the calendar, with the lists that its links spell out. -/
structure CalendarAccounts (p : LinkedCalendar η × List (Event η))
    (lists : ℕ → List (Event η)) : Prop where
  ring : ∀ i < p.1.cal.nbuckets, p.1.links.Spells (lists i)
  list : ∀ i < p.1.cal.nbuckets, p.1.list i = (lists i).head?
  sorted : ∀ i < p.1.cal.nbuckets, (lists i).Pairwise fun a b => a.time ≤ b.time
  hash : ∀ i < p.1.cal.nbuckets, ∀ e ∈ lists i, p.1.cal.hash e.time = i
  count : ∀ i < p.1.cal.nbuckets,
    (p.1.cal.buckets i).count = ((lists i).map Event.time).toFinset.card
  statQsize : p.1.cal.statQsize =
    ∑ i ∈ Finset.range p.1.cal.nbuckets, (p.1.cal.buckets i).count
  qsize : p.1.cal.qsize = p.2.length
  pending : ∀ e, e ∈ p.2 ↔ ∃ i < p.1.cal.nbuckets, e ∈ lists i
  clock_le : ∀ e ∈ p.2, p.1.cal.calClock ≤ e.time
  nbuckets : ∃ k, 2 ≤ k ∧ p.1.cal.nbuckets = 2 ^ k

theorem Follows.accounts {c : CalendarScheduler η} (h : Follows p c) :
    CalendarAccounts p fun i => (c.buckets i).list := by
  have hv := h.valid
  have hcal := h.spelled.cal
  have hsize : p.1.cal.nbuckets = c.nbuckets := by rw [hcal]; rfl
  have hcount : ∀ i, (p.1.cal.buckets i).count = (c.buckets i).count := by
    intro i
    rw [hcal]
    rfl
  have hmem : ∀ e, e ∈ p.2 ↔ e ∈ c.events := fun e => by rw [h.events, Multiset.mem_coe]
  constructor
  · exact fun i hi => h.spelled.rings i (hsize ▸ hi)
  · exact fun i _ => h.spelled.list i
  · exact fun i hi => (hv.inOrder i (hsize ▸ hi)).imp fun hab => Event.time_le_of_key hab.le
  · intro i hi e he
    have hhash : p.1.cal.hash e.time = c.hash e.time := by rw [hcal]; rfl
    rw [hhash]
    exact hv.hash_eq i (hsize ▸ hi) e he
  · intro i hi
    rw [hcount, hv.count i (hsize ▸ hi)]
    rfl
  · have hstat : p.1.cal.statQsize = c.statQsize := by rw [hcal]; rfl
    rw [hstat, hv.statQsize_eq_sum, hsize]
    exact Finset.sum_congr rfl fun i _ => (hcount i).symm
  · have hq : p.1.cal.qsize = c.qsize := by rw [hcal]; rfl
    rw [hq, hv.qsize, h.events, Multiset.coe_card]
  · intro e
    rw [hmem, CalendarScheduler.mem_events, hsize]
  · intro e he
    have hclock : p.1.cal.calClock = c.calClock := by rw [hcal]; rfl
    rw [hclock]
    exact hv.clock_le e ((hmem e).mp he)
  · rw [hsize]
    exact h.power

end Accounts

section Runs

variable [DecidableEq η] (cfg : CalendarConfig)

def LinkedCalendar.call (r : LinkedCalendar η) :
    CalendarCall η → Except CalendarFault (Option (Event η) × LinkedCalendar η)
  | .insert e => (r.insert cfg e).map fun r => (none, r)
  | .cancel e => (r.cancel e).map fun p => (some p.1, p.2)
  | .deque => r.deque cfg
  | .head => r.head
  | .resize newsize => (r.resize cfg newsize r.cal.calClock).map fun r => (none, r)

/-- The events that are pending after a call. -/
def pendingAfter (r : LinkedCalendar η) (x : CalendarCall η) (q : List (Event η)) :
    List (Event η) :=
  match x with
  | .insert e => e :: q
  | .cancel e => if e.uid ≤ 0 then q else q.erase e
  | .deque =>
    match r.deque cfg with
    | .ok (some e, _) => q.erase e
    | _ => q
  | _ => q

/-- A calendar from its constructor, in any memory. -/
def calendarCalls : Machine (LinkedCalendar η) (CalendarCall η) CalendarFault where
  Init r := r.cal.IsNew cfg
  Enabled _ _ := True
  step r x := (r.call cfg x).map Prod.snd

def calendarRuns : Machine (LinkedCalendar η × List (Event η)) (CalendarCall η) CalendarFault :=
  ((calendarCalls cfg).withHistory [] fun r x _ q => pendingAfter cfg r x q).restrict
    fun p x => LegalCalendarCall p.2 x

variable {cfg : CalendarConfig} {r : LinkedCalendar η} {q : List (Event η)}
  {p p' : LinkedCalendar η × List (Event η)} {x : CalendarCall η}

/-- What a call does, when it is legal. -/
theorem Follows.call {c : CalendarScheduler η} (h : Follows p c)
    (hs : ∀ x, 0 < x → 0 < cfg.sqrt x) (hx : LegalCalendarCall p.2 x) :
    ∃ o r', p.1.call cfg x = .ok (o, r') ∧
      ∃ c', Follows (r', pendingAfter cfg p.1 x p.2) c' := by
  obtain ⟨r, q⟩ := p
  obtain ⟨hsp, hv, hp, hev, hu⟩ := h
  dsimp only at hsp hev hu hx ⊢
  have hmem : ∀ e, e ∈ c.events ↔ e ∈ q := fun e => by rw [hev, Multiset.mem_coe]
  have herase : ∀ {e : Event η} {c' : CalendarScheduler η}, c.events = e ::ₘ c'.events →
      c'.events = (q.erase e : List (Event η)) ∧ ∀ x ∈ q.erase e, 0 < x.uid := by
    intro e c' hc
    refine ⟨?_, fun x hx => hu x (List.mem_of_mem_erase hx)⟩
    rw [← Multiset.coe_erase, ← hev, hc, Multiset.erase_cons_head]
  cases x with
  | insert e =>
    obtain ⟨ht, hpos, hlater⟩ := hx
    have hlater' : ∀ x ∈ c.events, x.uid < e.uid := fun x hx => hlater x ((hmem x).mp hx)
    obtain ⟨c', r', hc, hr, hsp'⟩ := hsp.insert hv hs ht hlater'
    obtain ⟨c'', hc'', hv', hev'⟩ := hv.insert hs ht hlater'
    obtain rfl : c'' = c' := Except.ok.inj (hc''.symm.trans hc)
    refine ⟨none, r', map_eq_ok.mpr ⟨r', hr, rfl⟩, c'', hsp', hv', hp.insert hc, ?_, ?_⟩
    · rw [hev', hev]
      rfl
    · exact List.forall_mem_cons.mpr ⟨hpos, hu⟩
  | cancel e =>
    unfold pendingAfter
    dsimp only
    by_cases hneg : e.uid ≤ 0
    · rw [if_pos hneg]
      refine ⟨some e, r, map_eq_ok.mpr ⟨(e, r), ?_, rfl⟩, c, hsp, hv, hp, hev, hu⟩
      unfold LinkedCalendar.cancel
      rw [if_pos hneg]
    · rw [if_neg hneg]
      have he : e ∈ c.events := (hmem e).mpr (hx.resolve_right hneg)
      obtain ⟨c', r', hc, hr, hsp'⟩ := hsp.cancel hv he (not_le.mp hneg)
      obtain ⟨c'', hc'', hv', hev'⟩ := hv.cancel he (not_le.mp hneg)
      obtain rfl : c'' = c' := (Prod.mk.inj (Except.ok.inj (hc''.symm.trans hc))).2
      obtain ⟨hq, hu'⟩ := herase hev'
      exact ⟨_, r', map_eq_ok.mpr ⟨_, hr, rfl⟩, c'', hsp', hv', hp.cancel hc, hq, hu'⟩
  | deque =>
    obtain ⟨o, c', r', hc, hr, hsp'⟩ := hsp.deque hv hs
    obtain ⟨o', c'', hc'', hv', -, hev'⟩ := hv.deque hs
    obtain ⟨rfl, rfl⟩ := Prod.mk.inj (Except.ok.inj (hc''.symm.trans hc))
    refine ⟨o', r', hr, c'', ?_⟩
    unfold pendingAfter
    dsimp only
    rw [hr]
    cases o' with
    | none => exact ⟨hsp', hv', hp.deque hc, by rw [← hev, hev']; simp, hu⟩
    | some e =>
      obtain ⟨hq, hu'⟩ := herase (e := e) (hev'.trans (Multiset.singleton_add e _))
      exact ⟨hsp', hv', hp.deque hc, hq, hu'⟩
  | head =>
    rcases hv.head with ⟨-, hh⟩ | ⟨e, d, hh, hd⟩
    · obtain ⟨r', hr, hsp'⟩ := hsp.head hh
      exact ⟨none, r', hr, c, hsp', hv, hp, hev, hu⟩
    · obtain ⟨r', hr, hsp'⟩ := hsp.head hh
      exact ⟨some e, r', hr, d, hsp', hd.valid, hp.head hh, hd.events.trans hev, hu⟩
  | resize n =>
    have hn : 0 < n := by
      obtain ⟨k, rfl⟩ := hx
      exact Nat.two_pow_pos k
    have hclock : r.cal.calClock = c.calClock := by rw [hsp.cal]; rfl
    obtain ⟨c', r', hc, hr, hsp'⟩ := hsp.resize hv hs hn
    obtain ⟨c'', hc'', hreb⟩ := hv.resize hs hn
    obtain rfl : c'' = c' := Except.ok.inj (hc''.symm.trans hc)
    refine ⟨none, r', map_eq_ok.mpr ⟨r', ?_, rfl⟩, c'', hsp', hreb.valid, hp.resize hx hc,
      hreb.events.trans hev, hu⟩
    rw [hclock]
    exact hr

theorem calendarRuns_step (p : LinkedCalendar η × List (Event η)) (x : CalendarCall η) :
    (calendarRuns cfg).step p x =
      (p.1.call cfg x).map fun a => (a.2, pendingAfter cfg p.1 x p.2) := by
  change ((p.1.call cfg x).map Prod.snd).map (fun r => (r, pendingAfter cfg p.1 x p.2)) = _
  cases p.1.call cfg x <;> rfl

theorem calendarRuns_invariant (hs : ∀ x, 0 < x → 0 < cfg.sqrt x) :
    (calendarRuns cfg).Invariant fun p : LinkedCalendar η × List (Event η) =>
      ∃ c, Follows p c where
  init := by
    rintro ⟨r, q⟩ ⟨hnew, rfl⟩
    have hnew : r.cal.IsNew cfg := hnew
    obtain ⟨hv, hev⟩ := hnew.valid
    have hlists : r.cal.buckets = fun _ => {} := congrArg CalendarScheduler.buckets hnew.1
    have hsize : r.cal.nbuckets = 4 := congrArg CalendarScheduler.nbuckets hnew.1
    refine ⟨r.cal, ⟨?_, ?_⟩, hv, ⟨2, le_rfl, hsize⟩, hev, by simp⟩
    · unfold CalendarScheduler.heads
      rw [hlists]
      exact congrArg (fun b => { r.cal with buckets := b }) hlists
    · intro i _
      rw [hlists]
      exact RingLinks.spells_nil
  step := by
    rintro p x p' ⟨c, h⟩ ⟨-, hx⟩ hstep
    obtain ⟨o, r', hr, hc'⟩ := h.call hs hx
    rw [calendarRuns_step, hr] at hstep
    rw [← Except.ok.inj hstep]
    exact hc'

/-- In every run each bucket is a ring that starts at `list_`, sorted by time, with the events of its
cells; the counters are right, and no call fails. -/
theorem calendar_accounts (hs : ∀ x, 0 < x → 0 < cfg.sqrt x)
    {p : LinkedCalendar η × List (Event η)} (hp : (calendarRuns cfg).Reachable p) :
    (∃ lists, CalendarAccounts p lists) ∧
      ∀ x, LegalCalendarCall p.2 x → ∃ p', (calendarRuns cfg).step p x = .ok p' := by
  obtain ⟨c, h⟩ := (calendarRuns_invariant hs).reachable hp
  refine ⟨⟨_, h.accounts⟩, fun x hx => ?_⟩
  obtain ⟨o, r', hr, -⟩ := h.call hs hx
  rw [calendarRuns_step, hr]
  exact ⟨_, rfl⟩

end Runs

section Witness

instance (q : List (Event η)) [DecidableEq η] : ∀ x, Decidable (LegalCalendarCall q x)
  | .insert e => inferInstanceAs (Decidable (0 ≤ e.time ∧ 0 < e.uid ∧ ∀ x ∈ q, x.uid < e.uid))
  | .cancel e => inferInstanceAs (Decidable (e ∈ q ∨ e.uid ≤ 0))
  | .deque => .isTrue trivial
  | .head => .isTrue trivial
  | .resize newsize =>
    decidable_of_iff (∃ k < newsize, newsize = 2 ^ k) <| by
      constructor
      · rintro ⟨k, -, hk⟩
        exact ⟨k, hk⟩
      · rintro ⟨k, rfl⟩
        exact ⟨k, Nat.lt_two_pow_self, rfl⟩

instance (cfg : CalendarConfig) (p : LinkedCalendar ℕ × List (Event ℕ)) (x : CalendarCall ℕ) :
    Decidable ((calendarRuns cfg).Enabled p x) :=
  inferInstanceAs (Decidable (True ∧ LegalCalendarCall p.2 x))

theorem calendar_accounts_resized : ∃ p : LinkedCalendar ℕ × List (Event ℕ),
    (calendarRuns snoopyConfig).Reachable p ∧ p.1.cal.nbuckets = 8 ∧ p.1.cal.qsize = 3 ∧
    p.1.cal.statQsize = 2 ∧ ∃ lists, CalendarAccounts p lists := by
  have hnew : newCalendar.IsNew snoopyConfig :=
    ⟨rfl, rfl, fun _ => ⟨rfl, rfl, rfl, rfl, rfl, rfl, rfl⟩⟩
  have h₀ : (calendarRuns snoopyConfig).Reachable
      ((⟨newCalendar, ⟨fun _ => none, fun _ => none⟩⟩, []) :
        LinkedCalendar ℕ × List (Event ℕ)) := .init ⟨hnew, rfl⟩
  obtain ⟨p, h, hp⟩ := h₀.exists_of_exec
    [.insert ⟨3, 1, 0⟩, .insert ⟨7, 2, 0⟩, .insert ⟨3, 3, 0⟩, .insert ⟨11, 4, 0⟩, .insert ⟨11, 5, 0⟩,
      .cancel ⟨7, 2, 0⟩, .deque, .resize 8]
    (fun p => p.1.cal.nbuckets = 8 ∧ p.1.cal.qsize = 3 ∧ p.1.cal.statQsize = 2)
    (by decide +kernel)
  have hp := of_decide_eq_true hp
  exact ⟨p, h, hp.1, hp.2.1, hp.2.2, (calendar_accounts fractionSqrt_pos h).1⟩

end Witness

end Ns2XPass
