import Mathlib.Algebra.Order.Floor.Semiring
import Mathlib.Data.Finset.Card
import Mathlib.Tactic.Linarith
import Ns2XPass.Library.Bag
import Ns2XPass.Scheduler.Calendar

/-! # The buckets of the calendar

A calendar is valid when each event is in the bucket of its time, the buckets
are in order, the counters are right, and the clock is not behind an event.
Insertions, removals and rebuilding keep it so, and none of them loses an event.
-/

namespace Ns2XPass

variable {η : Type}

/-- The times of the events of a bag. -/
def eventTimes (m : Multiset (Event η)) : Finset ℚ := (m.map Event.time).toFinset

@[simp] theorem mem_eventTimes {m : Multiset (Event η)} {t : ℚ} :
    t ∈ eventTimes m ↔ ∃ e ∈ m, e.time = t := by
  simp [eventTimes]

@[simp] theorem eventTimes_cons (e : Event η) (m : Multiset (Event η)) :
    eventTimes (e ::ₘ m) = insert e.time (eventTimes m) := by
  simp [eventTimes]

theorem card_eventTimes_cons (e : Event η) (m : Multiset (Event η)) :
    ((eventTimes (e ::ₘ m)).card : ℤ) =
      (eventTimes m).card + if e.time ∉ eventTimes m then 1 else 0 := by
  rw [eventTimes_cons, Finset.card_insert_eq_ite]
  split_ifs <;> simp_all

namespace CalendarScheduler

variable {cfg : CalendarConfig} {c c' : CalendarScheduler η} {e : Event η} {i : ℕ}

def bag (b : Bucket η) : Multiset (Event η) := b.list

def events (c : CalendarScheduler η) : Multiset (Event η) := bagOf c.nbuckets (bag ∘ c.buckets)

structure Valid (c : CalendarScheduler η) : Prop where
  width_pos : 0 < c.width
  four_le : 4 ≤ c.nbuckets
  diff0 : c.diff0 = c.width * c.nbuckets / 2
  diff1 : c.diff1 = c.width * c.nbuckets / 2 + c.width
  diff2 : c.diff2 = c.width * c.nbuckets
  lastbucket : c.lastbucket = c.hash c.calClock
  clock_nonneg : 0 ≤ c.calClock
  clock_le : ∀ e ∈ c.events, c.calClock ≤ e.time
  inOrder : ∀ i < c.nbuckets, InOrder Event.key (c.buckets i).list
  hash_eq : ∀ i < c.nbuckets, ∀ e ∈ (c.buckets i).list, c.hash e.time = i
  count : ∀ i < c.nbuckets, (c.buckets i).count = (eventTimes (bag (c.buckets i))).card
  statQsize : c.statQsize = (eventTimes c.events).card
  qsize : c.qsize = c.events.card

theorem mem_events : e ∈ c.events ↔ ∃ i < c.nbuckets, e ∈ (c.buckets i).list := mem_bagOf

namespace Valid

theorem hash_lt (h : c.Valid) (t : ℚ) : c.hash t < c.nbuckets :=
  Nat.mod_lt _ (by have := h.four_le; omega)

theorem mem_iff (h : c.Valid) : e ∈ c.events ↔ e ∈ (c.buckets (c.hash e.time)).list := by
  rw [mem_events]
  constructor
  · rintro ⟨i, hi, he⟩
    rwa [h.hash_eq i hi e he]
  · intro he
    exact ⟨_, h.hash_lt e.time, he⟩

/-- Whether a time is taken can be seen from its bucket. -/
theorem mem_eventTimes_iff (h : c.Valid) {t : ℚ} :
    t ∈ eventTimes c.events ↔ t ∈ eventTimes (bag (c.buckets (c.hash t))) := by
  rw [mem_eventTimes, mem_eventTimes]
  constructor
  · rintro ⟨e, he, rfl⟩
    exact ⟨e, h.mem_iff.mp he, rfl⟩
  · rintro ⟨e, he, rfl⟩
    exact ⟨e, h.mem_iff.mpr he, rfl⟩

end Valid

theorem events_link {list : List (Event η)} (unique : Bool) (hi : i < c.nbuckets)
    (hp : list.Perm (e :: (c.buckets i).list)) :
    (c.link i list unique).events = e ::ₘ c.events := by
  have hb : (list : Multiset (Event η)) = e ::ₘ (bag ∘ c.buckets) i := Multiset.coe_eq_coe.mpr hp
  rw [events, link, Function.comp_update]
  change bagOf c.nbuckets (Function.update _ i (list : Multiset (Event η))) = _
  rw [hb, bagOf_put hi]
  rfl

theorem events_unlink {list : List (Event η)} (unique : Bool) (hi : i < c.nbuckets)
    (hp : (c.buckets i).list.Perm (e :: list)) :
    c.events = e ::ₘ (c.unlink i list unique).events := by
  have hb : (bag ∘ c.buckets) i = e ::ₘ (list : Multiset (Event η)) := Multiset.coe_eq_coe.mpr hp
  rw [events, bagOf_take hi hb, events, unlink, Function.comp_update]
  rfl

/-- A calendar with another bucket in the place of one. -/
theorem Valid.setBucket (h : c.Valid) {b : Bucket η} {stat q : ℤ}
    (he : c' = { c with buckets := Function.update c.buckets i b, statQsize := stat, qsize := q })
    (ht : ∀ x ∈ c'.events, c.calClock ≤ x.time) (ho : InOrder Event.key b.list)
    (hh : ∀ x ∈ b.list, c.hash x.time = i) (hb : b.count = (eventTimes (bag b)).card)
    (hs : stat = (eventTimes c'.events).card) (hq : q = c'.events.card) : c'.Valid := by
  subst he
  have hbuckets : ∀ j, Function.update c.buckets i b j = b ∧ j = i ∨
      Function.update c.buckets i b j = c.buckets j := by
    intro j
    by_cases hj : j = i
    · exact .inl ⟨hj ▸ Function.update_self .., hj⟩
    · exact .inr (Function.update_of_ne hj ..)
  refine ⟨h.width_pos, h.four_le, h.diff0, h.diff1, h.diff2, h.lastbucket, h.clock_nonneg, ht,
    fun j hj => ?_, fun j hj x hx => ?_, fun j hj => ?_, hs, hq⟩
  · dsimp only
    rcases hbuckets j with ⟨hu, -⟩ | hu
    · rwa [hu]
    · rw [hu]
      exact h.inOrder j hj
  · dsimp only at hx
    rcases hbuckets j with ⟨hu, rfl⟩ | hu
    · exact hh x (hu ▸ hx)
    · exact h.hash_eq j hj x (hu ▸ hx)
  · dsimp only
    rcases hbuckets j with ⟨hu, -⟩ | hu
    · rwa [hu]
    · rw [hu]
      exact h.count j hj

/-- Putting an event into its bucket. -/
theorem Valid.link (h : c.Valid) {list : List (Event η)} {unique : Bool}
    (ht : c.calClock ≤ e.time) (hi : i = c.hash e.time)
    (hp : list.Perm (e :: (c.buckets i).list)) (ho : InOrder Event.key list)
    (hu : unique = true ↔ e.time ∉ eventTimes (bag (c.buckets i))) :
    (c.link i list unique).Valid := by
  have hlt : i < c.nbuckets := hi ▸ h.hash_lt e.time
  have hev := events_link unique hlt hp
  have hbag : (list : Multiset (Event η)) = e ::ₘ bag (c.buckets i) := Multiset.coe_eq_coe.mpr hp
  have huall : unique = true ↔ e.time ∉ eventTimes c.events := by
    rw [hu, h.mem_eventTimes_iff, ← hi]
  refine h.setBucket rfl ?_ ho ?_ ?_ ?_ ?_
  · intro x hx
    rcases Multiset.mem_cons.mp (hev ▸ hx) with rfl | hx
    · exact ht
    · exact h.clock_le x hx
  · intro x hx
    rcases List.mem_cons.mp (hp.mem_iff.mp hx) with rfl | hx
    · exact hi.symm
    · exact h.hash_eq i hlt x hx
  · change (c.buckets i).count + _ = ((eventTimes (list : Multiset (Event η))).card : ℤ)
    rw [hbag, card_eventTimes_cons, h.count i hlt]
    simp only [hu]
  · rw [hev, card_eventTimes_cons, h.statQsize]
    simp only [huall]
  · rw [hev, Multiset.card_cons, h.qsize]
    rfl

/-- Taking an event out of its bucket. -/
theorem Valid.unlink (h : c.Valid) {list : List (Event η)} {unique : Bool} (hi : i < c.nbuckets)
    (hp : (c.buckets i).list.Perm (e :: list)) (ho : InOrder Event.key list)
    (hu : unique = true ↔ e.time ∉ eventTimes (list : Multiset (Event η))) :
    (c.unlink i list unique).Valid := by
  have hev := events_unlink unique hi hp
  have hbag : bag (c.buckets i) = e ::ₘ (list : Multiset (Event η)) := Multiset.coe_eq_coe.mpr hp
  have he : c.hash e.time = i := h.hash_eq i hi e (hp.mem_iff.mpr List.mem_cons_self)
  have hmem : ∀ x ∈ list, x ∈ (c.buckets i).list := fun x hx => hp.mem_iff.mpr (.tail e hx)
  have hself : ((c.unlink i list unique).buckets i).list = list := by
    simp only [CalendarScheduler.unlink, Function.update_self]
  have hlist : ∀ x ∈ (c.unlink i list unique).events, x.time = e.time → x ∈ list := by
    intro x hx hxe
    obtain ⟨j, hj, hxj⟩ := mem_events.mp hx
    by_cases hji : j = i
    · rwa [hji, hself] at hxj
    · simp only [CalendarScheduler.unlink, Function.update_of_ne hji] at hxj
      exact absurd (hxe ▸ h.hash_eq j hj x hxj) fun hj' => hji (hj'.symm.trans he)
  have huall : unique = true ↔ e.time ∉ eventTimes (c.unlink i list unique).events := by
    rw [hu, mem_eventTimes, mem_eventTimes, not_iff_not]
    constructor
    · rintro ⟨x, hx, hxe⟩
      exact ⟨x, mem_events.mpr ⟨i, hi, by rwa [hself]⟩, hxe⟩
    · rintro ⟨x, hx, hxe⟩
      exact ⟨x, hlist x hx hxe, hxe⟩
  refine h.setBucket rfl ?_ ho ?_ ?_ ?_ ?_
  · intro x hx
    exact h.clock_le x (hev ▸ Multiset.mem_cons_of_mem hx)
  · intro x hx
    exact h.hash_eq i hi x (hmem x hx)
  · change (c.buckets i).count - _ = ((eventTimes (list : Multiset (Event η))).card : ℤ)
    rw [h.count i hi, hbag, card_eventTimes_cons]
    simp only [hu]
    ring
  · rw [h.statQsize, hev, card_eventTimes_cons]
    simp only [huall]
    ring
  · rw [h.qsize, hev, Multiset.card_cons]
    simp

/-! ## Places in a bucket -/

section Places

variable {as bs l : List (Event η)}

/-- An event has its time for itself when its neighbours have others. -/
theorem time_not_mem_iff (as bs : List (Event η)) (h : InOrder Event.key (as ++ e :: bs)) :
    e.time ∉ eventTimes ((as ++ bs : List (Event η)) : Multiset (Event η)) ↔
      (∀ x ∈ as.getLast?, x.time ≠ e.time) ∧ ∀ x ∈ bs.head?, x.time ≠ e.time := by
  obtain ⟨has, hebs, hlt⟩ := inOrder_append.mp h
  obtain ⟨hlt', hbs⟩ := inOrder_cons.mp hebs
  simp only [mem_eventTimes, Multiset.mem_coe, List.mem_append, not_exists, not_and]
  constructor
  · intro hn
    exact ⟨fun x hx => hn x (.inl (List.mem_of_getLast? hx)),
      fun x hx => hn x (.inr (List.mem_of_mem_head? hx))⟩
  · rintro ⟨hl, hr⟩ x (hx | hx) hxe
    · obtain ⟨as', a, rfl⟩ := (List.eq_nil_or_concat' as).resolve_left (List.ne_nil_of_mem hx)
      have hae : a.time ≤ e.time := Event.time_le_of_key (hlt a (by simp) e (by simp)).le
      have hxa : x.time ≤ a.time := by
        rcases List.mem_append.mp hx with hx | hx
        · exact Event.time_le_of_key ((inOrder_append.mp has).2.2 x hx a (by simp)).le
        · rw [List.mem_singleton.mp hx]
      exact hl a (by simp) (hae.antisymm (hxe ▸ hxa))
    · cases bs with
      | nil => cases hx
      | cons b bs =>
        have heb : e.time ≤ b.time := Event.time_le_of_key (hlt' b (by simp)).le
        have hbx : b.time ≤ x.time := by
          rcases List.mem_cons.mp hx with rfl | hx
          · exact le_rfl
          · exact Event.time_le_of_key ((inOrder_cons.mp hbs).1 x hx).le
        exact hr b rfl ((hxe ▸ hbx).antisymm heb)

/-- The place of an event in a list: where it is put, and whether its time is new. -/
structure IsPlace (e : Event η) (l l' : List (Event η)) (unique : Bool) : Prop where
  perm : l'.Perm (e :: l)
  inOrder : InOrder Event.key l'
  unique_iff : unique = true ↔ e.time ∉ eventTimes (l : Multiset (Event η))

theorem isPlace_of_fits (as bs : List (Event η)) {unique : Bool}
    (h : InOrder Event.key (as ++ bs))
    (ha : ∀ x ∈ as.getLast?, x.key < e.key) (hb : ∀ x ∈ bs.head?, e.key < x.key)
    (hu : unique = true ↔
      (∀ x ∈ as.getLast?, x.time ≠ e.time) ∧ ∀ x ∈ bs.head?, x.time ≠ e.time) :
    IsPlace e (as ++ bs) (as ++ e :: bs) unique :=
  have ho := h.insert ha hb
  ⟨List.perm_middle, ho, hu.trans (time_not_mem_iff as bs ho).symm⟩

/-- The search from the tail stops at the last event that is due no later. -/
theorem exists_rdropWhile (p : Event η → Bool) (l : List (Event η)) :
    ∃ as bs, l.rdropWhile p = as ∧ l.rtakeWhile p = bs ∧ l = as ++ bs ∧
      (∀ x ∈ as.getLast?, p x = false) ∧ ∀ x ∈ bs, p x = true := by
  refine ⟨_, _, rfl, rfl, List.rdropWhile_append_rtakeWhile.symm, fun x hx => ?_,
    fun x hx => List.mem_rtakeWhile_imp hx⟩
  obtain ⟨hne, rfl⟩ := List.mem_getLast?_eq_getLast hx
  simpa using List.rdropWhile_last_not p l hne

theorem place_spec (h : InOrder Event.key l) (hu : ∀ x ∈ l, x.uid < e.uid) :
    IsPlace e l (place e l).1 (place e l).2.1 := by
  cases l with
  | nil => exact isPlace_of_fits [] [] h (by simp) (by simp) (by simp [place])
  | cons head l =>
    rw [place]
    split_ifs with ht
    · exact isPlace_of_fits [] _ h (by simp)
        (by simpa using Event.key_lt_iff.mpr (.inl ht)) (by simpa using ht.ne')
    · dsimp only
      obtain ⟨as, bs, has, hbs, hl, hlast, hall⟩ :=
        exists_rdropWhile (e.time < ·.time) (head :: l)
      rw [has, hbs]
      rw [hl] at h hu ⊢
      have hne : as ≠ [] := by
        rintro rfl
        have hm : head ∈ bs := by
          rw [List.nil_append] at hl
          exact hl ▸ List.mem_cons_self
        exact ht (by simpa using hall head hm)
      obtain ⟨as, a, rfl⟩ := (List.eq_nil_or_concat' as).resolve_left hne
      have hae : a.time ≤ e.time := by simpa using hlast a (by simp)
      have hlater : ∀ x ∈ bs.head?, e.time < x.time := fun x hx => by
        simpa using hall x (List.mem_of_mem_head? hx)
      refine isPlace_of_fits _ bs h (fun x hx => ?_) (fun x hx => ?_) ?_
      · obtain rfl : a = x := by simpa using hx
        exact Event.key_lt_of_time hae (hu a (by simp))
      · exact Event.key_lt_iff.mpr (.inl (hlater x hx))
      · constructor
        · intro hlt
          have hlt : a.time < e.time := by simpa using hlt
          exact ⟨by simpa using hlt.ne, fun x hx => (hlater x hx).ne'⟩
        · rintro ⟨hn, -⟩
          simpa using lt_of_le_of_ne hae (by simpa using hn)

theorem time_head_le (h : InOrder Event.key (as ++ [e])) :
    ∀ x ∈ (as ++ [e]).head?, x.time ≤ e.time := by
  intro x hx
  cases as with
  | nil => exact (Option.some.inj hx).symm ▸ le_rfl
  | cons a as =>
    obtain rfl : a = x := Option.some.inj hx
    exact Event.time_le_of_key ((inOrder_append.mp h).2.2 a (by simp) e (by simp)).le

theorem isPlace_before (as bs : List (Event η)) (h : InOrder Event.key (as ++ bs))
    (hne : as ++ bs ≠ [])
    (ha : ∀ x ∈ as.getLast?, x.time < e.time) (hb : ∀ x ∈ bs.head?, e.time ≤ x.time)
    (hu : ∀ x ∈ as ++ bs, x.time = e.time → e.uid < x.uid) :
    IsPlace e (as ++ bs) (as ++ e :: bs) ((bs ++ as).head?.any (·.time ≠ e.time)) := by
  refine isPlace_of_fits as bs h (fun x hx => Event.key_lt_iff.mpr (.inl (ha x hx)))
    (fun x hx => ?_) ?_
  · have hm : x ∈ as ++ bs := List.mem_append_right as (List.mem_of_mem_head? hx)
    rcases (hb x hx).lt_or_eq with hlt | heq
    · exact Event.key_lt_iff.mpr (.inl hlt)
    · exact Event.key_lt_iff.mpr (.inr ⟨heq, hu x hm heq.symm⟩)
  · have hlast : ∀ x ∈ as.getLast?, x.time ≠ e.time := fun x hx => (ha x hx).ne
    cases bs with
    | cons b bs =>
      constructor
      · intro hn
        exact ⟨hlast, by simpa using hn⟩
      · rintro ⟨-, hn⟩
        simpa using hn
    | nil =>
      obtain ⟨as, a, rfl⟩ := (List.eq_nil_or_concat' as).resolve_left (by simpa using hne)
      rw [List.append_nil] at h
      have hlt : a.time < e.time := ha a (by simp)
      constructor
      · intro _
        exact ⟨hlast, by simp⟩
      · rintro -
        cases hh : (as ++ [a]).head? with
        | none => simp at hh
        | some x =>
          have hx := time_head_le h x hh
          simpa [hh] using (hx.trans_lt hlt).ne

theorem place2_spec (h : InOrder Event.key l)
    (hu : ∀ x ∈ l, x.time = e.time → e.uid < x.uid) :
    IsPlace e l (place2 e l).1 (place2 e l).2 := by
  cases l with
  | nil => exact isPlace_of_fits [] [] h (by simp) (by simp) (by simp [place2])
  | cons head l =>
    rw [place2]
    · split_ifs with ht
      · have hlast : ∀ x ∈ (head :: l).getLast?, x.time < e.time := fun x hx => by
          simpa [Option.mem_def.mp hx] using ht
        have hp := isPlace_before (head :: l) [] (by simpa using h) (by simp) hlast (by simp)
          (by simpa using hu)
        simpa using hp
      · rw [List.span_eq_takeWhile_dropWhile]
        have hs : (head :: l).takeWhile (·.time < e.time) ++
            (head :: l).dropWhile (·.time < e.time) = head :: l := List.takeWhile_append_dropWhile
        have hp := isPlace_before _ _ (by rwa [hs]) (by rw [hs]; simp) (fun x hx => ?_)
          (fun x hx => ?_) (by rwa [hs])
        · rwa [hs] at hp
        · simpa using List.mem_takeWhile_imp (List.mem_of_getLast? hx)
        · have hd := List.head?_dropWhile_not (fun x : Event η => x.time < e.time) (head :: l)
          rw [Option.mem_def.mp hx] at hd
          simpa using hd
    · simp

end Places

/-- Putting an event where it belongs. -/
theorem Valid.link_place (h : c.Valid) {list : List (Event η)} {unique : Bool}
    (ht : c.calClock ≤ e.time) (hp : IsPlace e (c.buckets (c.hash e.time)).list list unique) :
    (c.link (c.hash e.time) list unique).Valid ∧
      (c.link (c.hash e.time) list unique).events = e ::ₘ c.events :=
  ⟨h.link ht rfl hp.perm hp.inOrder hp.unique_iff, events_link _ (h.hash_lt e.time) hp.perm⟩

theorem Valid.insert2 (h : c.Valid) (ht : c.calClock ≤ e.time)
    (hu : ∀ x ∈ c.events, x.time = e.time → e.uid < x.uid) :
    (c.insert2 e).Valid ∧ (c.insert2 e).events = e ::ₘ c.events := by
  have ho := h.inOrder _ (h.hash_lt e.time)
  have hmem : ∀ x ∈ (c.buckets (c.hash e.time)).list, x ∈ c.events := fun x hx =>
    mem_events.mpr ⟨_, h.hash_lt e.time, hx⟩
  exact h.link_place ht (place2_spec ho fun x hx => hu x (hmem x hx))

/-! ## Rebuilding -/

/-- A calendar with the statistics of another one. -/
def withStats (c d : CalendarScheduler η) : CalendarScheduler η :=
  { c with
    timeToNewwidth := d.timeToNewwidth
    headSearch := d.headSearch
    insertSearch := d.insertSearch
    roundNum := d.roundNum
    gapNum := d.gapNum
    lastTime := d.lastTime
    avgGap := d.avgGap }

theorem Valid.withStats (h : c.Valid) (d : CalendarScheduler η) : (c.withStats d).Valid :=
  ⟨h.width_pos, h.four_le, h.diff0, h.diff1, h.diff2, h.lastbucket, h.clock_nonneg, h.clock_le,
    h.inOrder, h.hash_eq, h.count, h.statQsize, h.qsize⟩

theorem valid_reinit {n : ℕ} {w : ℚ} (hw : 0 < w) (hn : 4 ≤ n) (hc : 0 ≤ c.calClock) :
    (c.reinit n w c.calClock).Valid ∧ (c.reinit n w c.calClock).events = 0 := by
  have hev : (c.reinit n w c.calClock).events = 0 := bagOf_zero fun _ => rfl
  refine ⟨⟨hw, hn, rfl, rfl, rfl, rfl, hc, ?_, fun i _ => inOrder_nil, ?_, fun i _ => rfl, ?_, ?_⟩,
    hev⟩
  · rw [hev]
    intro e he
    cases Multiset.notMem_zero e he
  · intro i _ e he
    cases he
  · rw [hev]
    rfl
  · rw [hev]
    rfl

/-- Events of one time are moved latest first. -/
theorem Valid.moved_pairwise (h : c.Valid) :
    c.moved.Pairwise fun a b => a.time = b.time → b.uid < a.uid := by
  rw [moved, List.pairwise_flatMap]
  refine ⟨fun i hi => ?_, ?_⟩
  · rw [List.pairwise_reverse]
    refine (h.inOrder i (List.mem_range.mp hi)).imp fun hlt he => ?_
    rcases Event.key_lt_iff.mp hlt with ht | ht
    · exact absurd he ht.ne'
    · exact ht.2
  · refine List.pairwise_lt_range.imp_of_mem fun {i j} hi hj hij x hx y hy he => ?_
    have hxi := h.hash_eq i (List.mem_range.mp hi) x (List.mem_reverse.mp hx)
    have hyj := h.hash_eq j (List.mem_range.mp hj) y (List.mem_reverse.mp hy)
    exact absurd (hxi.symm.trans (he ▸ hyj)) hij.ne

theorem coe_moved (c : CalendarScheduler η) : (c.moved : Multiset (Event η)) = c.events := by
  rw [moved, ← bagOf_flatMap, events]
  exact bagOf_congr fun i _ => Multiset.coe_eq_coe.mpr (List.reverse_perm _)

theorem Valid.foldl_insert2 {es : List (Event η)} (h : c.Valid)
    (ho : es.Pairwise fun a b => a.time = b.time → b.uid < a.uid)
    (ht : ∀ e ∈ es, c.calClock ≤ e.time)
    (hu : ∀ x ∈ c.events, ∀ e ∈ es, x.time = e.time → e.uid < x.uid) :
    (es.foldl CalendarScheduler.insert2 c).Valid ∧
      (es.foldl CalendarScheduler.insert2 c).events = es + c.events ∧
      (es.foldl CalendarScheduler.insert2 c).calClock = c.calClock := by
  induction es generalizing c with
  | nil => exact ⟨h, (Multiset.zero_add c.events).symm, rfl⟩
  | cons e es ih =>
    obtain ⟨hv, hev⟩ := h.insert2 (ht e List.mem_cons_self) fun x hx => hu x hx e List.mem_cons_self
    obtain ⟨hlt, ho⟩ := List.pairwise_cons.mp ho
    obtain ⟨hv', hev', hc⟩ := ih hv ho (fun x hx => ht x (.tail e hx)) (by
      intro x hx y hy hxy
      rcases Multiset.mem_cons.mp (hev ▸ hx) with rfl | hx
      · exact hlt y hy hxy
      · exact hu x hx y (.tail e hy) hxy)
    refine ⟨hv', ?_, hc⟩
    rw [List.foldl_cons, hev', hev, Multiset.add_cons, ← Multiset.cons_coe, Multiset.cons_add]

/-- Rebuilding keeps the events and the clock. -/
theorem Valid.rebuild (h : c.Valid) {n : ℕ} {w : ℚ} (hw : 0 < w) (hn : 4 ≤ n) :
    (c.rebuild n w c.calClock).Valid ∧ (c.rebuild n w c.calClock).events = c.events ∧
      (c.rebuild n w c.calClock).calClock = c.calClock := by
  obtain ⟨hr, hz⟩ := valid_reinit hw hn h.clock_nonneg
  have hmem : ∀ e ∈ c.moved, e ∈ c.events := fun e he => coe_moved c ▸ he
  obtain ⟨hv, hev, hc⟩ := hr.foldl_insert2 h.moved_pairwise (fun e he => h.clock_le e (hmem e he))
    (by rw [hz]; exact fun x hx => absurd hx (Multiset.notMem_zero x))
  refine ⟨hv.withStats (c.rebuild n w c.calClock), ?_, hc⟩
  rw [hz, coe_moved, Multiset.add_zero] at hev
  exact hev

theorem maxBucket_lt (hn : 0 < c.nbuckets) : c.maxBucket < c.nbuckets := by
  have hfold : ∀ (is : List ℕ) (m : ℕ), m < c.nbuckets → (∀ i ∈ is, i < c.nbuckets) →
      is.foldl (fun m i => if (c.buckets m).count < (c.buckets i).count then i else m) m <
        c.nbuckets := by
    intro is
    induction is with
    | nil => exact fun m hm _ => hm
    | cons i is ih =>
      intro m hm his
      refine ih _ ?_ fun j hj => his j (.tail i hj)
      dsimp only
      split_ifs
      · exact his i List.mem_cons_self
      · exact hm
  refine hfold _ 0 hn fun i hi => ?_
  have := List.mem_range'_1.mp hi
  omega

theorem time_bounds {head tail : Event η} {l : List (Event η)} (h : InOrder Event.key l)
    (hh : l.head? = some head) (ht : l.getLast? = some tail) :
    ∀ x ∈ l, head.time ≤ x.time ∧ x.time ≤ tail.time := by
  intro x hx
  constructor
  · cases l with
    | nil => cases hx
    | cons a l =>
      obtain rfl : a = head := Option.some.inj hh
      rcases List.mem_cons.mp hx with rfl | hx
      · exact le_rfl
      · exact Event.time_le_of_key ((inOrder_cons.mp h).1 x hx).le
  · obtain ⟨as, a, rfl⟩ := (List.eq_nil_or_concat' l).resolve_left (List.ne_nil_of_mem hx)
    obtain rfl : a = tail := by simpa using ht
    rcases List.mem_append.mp hx with hx | hx
    · exact Event.time_le_of_key ((inOrder_append.mp h).2.2 x hx a (by simp)).le
    · rw [List.mem_singleton.mp hx]

/-- The fullest bucket spans some time when it has samples enough. -/
theorem Valid.sampledWidth (h : c.Valid) {n : ℕ} (hn : 0 < n) :
    ∃ w, c.sampledWidth n = .ok w ∧ 0 < w := by
  rw [CalendarScheduler.sampledWidth]
  dsimp only
  have hlt : c.maxBucket < c.nbuckets := maxBucket_lt (by have := h.four_le; omega)
  have ho := h.inOrder _ hlt
  have hc := h.count _ hlt
  split_ifs with hle
  · exact ⟨c.width, rfl, h.width_pos⟩
  · have hcard : 4 < (eventTimes (bag (c.buckets c.maxBucket))).card := by omega
    cases hh : (c.buckets c.maxBucket).list.head? with
    | none =>
      rw [bag, List.head?_eq_none_iff.mp hh] at hcard
      cases hcard
    | some head =>
      cases ht : (c.buckets c.maxBucket).list.getLast? with
      | none =>
        rw [bag, List.getLast?_eq_none_iff.mp ht] at hcard
        cases hcard
      | some tail =>
        have hb := time_bounds ho hh ht
        have hspan : head.time < tail.time := by
          by_contra hnlt
          have hsub : eventTimes (bag (c.buckets c.maxBucket)) ⊆ {head.time} := by
            intro t ht
            obtain ⟨x, hx, rfl⟩ := mem_eventTimes.mp ht
            obtain ⟨h₁, h₂⟩ := hb x hx
            exact Finset.mem_singleton.mpr (le_antisymm (h₂.trans (not_lt.mp hnlt)) h₁)
          have := Finset.card_le_card hsub
          rw [Finset.card_singleton] at this
          omega
        have hnw : 0 < tail.time - head.time := sub_pos.mpr hspan
        have hmin : (0 : ℤ) < min (n : ℤ) (c.buckets c.maxBucket).count := by omega
        refine ⟨_, if_neg hnw.not_ge, ?_⟩
        have hmin' : (0 : ℚ) < ((min (n : ℤ) (c.buckets c.maxBucket).count : ℤ) : ℚ) := by
          exact_mod_cast hmin
        positivity

theorem Valid.newwidth (cfg : CalendarConfig) (h : c.Valid) {n : ℕ} (hn : 0 < n) :
    ∃ w c', c.newwidth cfg n = .ok (w, c') ∧ 0 < w ∧ c' = c.withStats c' := by
  obtain ⟨w, hw, hpos⟩ := h.sampledWidth hn
  rw [CalendarScheduler.newwidth]
  split_ifs with ha
  · by_cases hg : 0 < c.avgGap
    · exact ⟨c.avgGap * 4, _, if_pos hg, by positivity, rfl⟩
    · refine ⟨w, { c with timeToNewwidth := cfg.adjustNewWidthInterval }, ?_, hpos, rfl⟩
      dsimp only
      rw [if_neg hg]
      change (c.sampledWidth n).map _ = _
      rw [hw]
      rfl
  · exact ⟨w, c, by rw [hw]; rfl, hpos, rfl⟩

theorem Valid.snoopyWidth_pos (h : c.Valid) (hs : ∀ x, 0 < x → 0 < cfg.sqrt x) :
    0 < c.snoopyWidth cfg := by
  have hw := h.width_pos
  rw [snoopyWidth]
  refine mul_pos (hs _ ?_) hw
  have hh : (0 : ℚ) < if c.headSearch ≠ 0 then (c.headSearch : ℚ) else 1 := by
    split_ifs with h₀
    · exact_mod_cast Nat.pos_of_ne_zero h₀
    · exact one_pos
  by_cases h₁ : c.insertSearch ≠ 0
  · have hi : (0 : ℚ) < c.insertSearch := by exact_mod_cast Nat.pos_of_ne_zero h₁
    rw [if_pos h₁]
    exact div_pos hh hi
  · rwa [if_neg h₁]

/-- A calendar with the same events and the same clock. -/
structure Rebuilt (c c' : CalendarScheduler η) : Prop where
  valid : c'.Valid
  events : c'.events = c.events
  calClock : c'.calClock = c.calClock

theorem Valid.resize (h : c.Valid) (hs : ∀ x, 0 < x → 0 < cfg.sqrt x) {n : ℕ} (hn : 0 < n) :
    ∃ c', c.resize cfg n c.calClock = .ok c' ∧ Rebuilt c c' := by
  obtain ⟨w, d, hw, hpos, hd⟩ := h.newwidth cfg hn
  have hdv : d.Valid := hd ▸ h.withStats d
  have hdc : d.calClock = c.calClock := by rw [hd]; rfl
  have hde : d.events = c.events := by rw [hd]; rfl
  have hrebuild : ∀ m, 4 ≤ m → Rebuilt c (d.rebuild m w c.calClock) := fun m hm => by
    obtain ⟨hv, hev, hc⟩ := hdv.rebuild hpos hm
    exact hdc ▸ ⟨hv, hev.trans hde, hc.trans hdc⟩
  rw [CalendarScheduler.resize]
  split_ifs with hsize hmin htime hfew
  · have hv := h.withStats { c with
      timeToNewwidth := c.timeToNewwidth - 1, headSearch := 0, insertSearch := 0, roundNum := 0 }
    exact ⟨_, rfl, hv, rfl, rfl⟩
  · exact ⟨d.rebuild n w c.calClock, by rw [hw]; rfl, hrebuild n (hsize ▸ h.four_le)⟩
  · obtain ⟨hv, hev, hc⟩ := h.rebuild (h.snoopyWidth_pos hs) (hsize ▸ h.four_le)
    exact ⟨_, rfl, hv, hev, hc⟩
  · exact ⟨d.rebuild 4 w c.calClock, by rw [hw]; rfl, hrebuild 4 le_rfl⟩
  · exact ⟨d.rebuild n w c.calClock, by rw [hw]; rfl, hrebuild n (not_lt.mp hfew)⟩

/-! ## Insertion and cancellation -/

theorem Valid.rewindClock (h : c.Valid) {t : ℚ} (ht : 0 ≤ t) :
    (c.rewindClock t).Valid ∧ (c.rewindClock t).events = c.events ∧
      (c.rewindClock t).calClock ≤ t := by
  rw [CalendarScheduler.rewindClock]
  split_ifs with hlt
  · exact ⟨⟨h.width_pos, h.four_le, h.diff0, h.diff1, h.diff2, rfl, ht,
      fun e he => hlt.le.trans (h.clock_le e he), h.inOrder, h.hash_eq, h.count, h.statQsize,
      h.qsize⟩, rfl, le_rfl⟩
  · exact ⟨h, rfl, not_lt.mp hlt⟩

theorem Valid.insert (h : c.Valid) (hs : ∀ x, 0 < x → 0 < cfg.sqrt x) (ht : 0 ≤ e.time)
    (hu : ∀ x ∈ c.events, x.uid < e.uid) :
    ∃ c', c.insert cfg e = .ok c' ∧ c'.Valid ∧ c'.events = e ::ₘ c.events := by
  obtain ⟨hr, hre, hrc⟩ := h.rewindClock ht
  rw [CalendarScheduler.insert]
  generalize c.rewindClock e.time = r at hr hre hrc
  have hi := hr.hash_lt e.time
  have hp := place_spec (hr.inOrder _ hi) fun x hx => hu x (hre ▸ mem_events.mpr ⟨_, hi, hx⟩)
  obtain ⟨hv, hev⟩ := hr.link_place hrc hp
  generalize place e (r.buckets (r.hash e.time)).list = p at hv hev
  obtain ⟨list, unique, searched⟩ := p
  dsimp only at hv hev ⊢
  have hv' := hv.withStats { r.link (r.hash e.time) list unique with
    insertSearch := r.insertSearch + searched }
  rw [hre] at hev
  split_ifs with hbig
  · obtain ⟨c', hc, hreb⟩ := hv'.resize hs (n := r.nbuckets * 2) (by have := hr.four_le; omega)
    exact ⟨c', hc, hreb.valid, hreb.events.trans hev⟩
  · exact ⟨_, rfl, hv', hev⟩

/-- The search of `cancel` splits the bucket at the event. -/
theorem exists_split [DecidableEq η] {l : List (Event η)} (he : e ∈ l) :
    ∃ as bs, l = as ++ e :: bs ∧ l.takeWhile (· ≠ e) = as ∧ l.dropWhile (· ≠ e) = e :: bs := by
  induction l with
  | nil => cases he
  | cons a l ih =>
    by_cases ha : a = e
    · exact ⟨[], l, by rw [ha]; rfl, by simp [ha], by simp [ha]⟩
    · obtain ⟨as, bs, hl, ht, hd⟩ := ih ((List.mem_cons.mp he).resolve_left fun h => ha h.symm)
      exact ⟨a :: as, bs, by rw [hl]; rfl, by simp [ha, ← ht], by simp [ha, ← hd]⟩

/-- The neighbours that `cancel` looks at, in the circular list. -/
theorem neighbours_iff {as bs : List (Event η)} (h : InOrder Event.key (as ++ e :: bs)) :
    ((bs ++ as).head?.all (·.time ≠ e.time) && (bs ++ as).getLast?.all (·.time ≠ e.time)) = true ↔
      e.time ∉ eventTimes ((as ++ bs : List (Event η)) : Multiset (Event η)) := by
  rw [Bool.and_eq_true, Option.all_eq_true, Option.all_eq_true]
  constructor
  · rintro ⟨hh, hl⟩
    refine (time_not_mem_iff _ _ h).mpr ⟨fun x hx => ?_, fun x hx => ?_⟩
    · simpa using hl x (by simp [List.getLast?_append, Option.mem_def.mp hx])
    · simpa using hh x (by simp [List.head?_append, Option.mem_def.mp hx])
  · intro hn
    have hall : ∀ x ∈ bs ++ as, x.time ≠ e.time := fun x hx hxe => hn (mem_eventTimes.mpr
      ⟨x, List.mem_append.mpr (List.mem_append.mp hx).symm, hxe⟩)
    exact ⟨fun x hx => by simpa using hall x (List.mem_of_mem_head? hx),
      fun x hx => by simpa using hall x (List.mem_of_getLast? hx)⟩

theorem Valid.cancel [DecidableEq η] (h : c.Valid) (he : e ∈ c.events) (hp : 0 < e.uid) :
    ∃ c', c.cancel e = .ok (e.negateUid, c') ∧ c'.Valid ∧ c.events = e ::ₘ c'.events := by
  have hi := h.hash_lt e.time
  have ho := h.inOrder _ hi
  obtain ⟨as, bs, hl, hta, hdr⟩ := exists_split (h.mem_iff.mp he)
  have hperm : (c.buckets (c.hash e.time)).list.Perm (e :: (as ++ bs)) := hl ▸ List.perm_middle
  have hea : e ∉ as := fun hm =>
    absurd ((inOrder_append.mp (hl ▸ ho)).2.2 e hm e List.mem_cons_self) (lt_irrefl _)
  have herase : (c.buckets (c.hash e.time)).list.erase e = as ++ bs := by
    rw [hl, List.erase_append_right _ hea, List.erase_cons_head]
  rw [CalendarScheduler.cancel, if_neg hp.not_ge]
  dsimp only
  rw [hta, hdr, herase, List.tail_cons]
  have hu := neighbours_iff (hl ▸ ho)
  generalize ((bs ++ as).head?.all (·.time ≠ e.time) &&
    (bs ++ as).getLast?.all (·.time ≠ e.time)) = unique at hu ⊢
  have hsub : (as ++ bs).Sublist (as ++ e :: bs) :=
    List.Sublist.append (List.Sublist.refl as) (List.sublist_cons_self e bs)
  have hv := h.unlink hi hperm (ho.sublist (hl ▸ hsub)) hu
  refine ⟨_, ?_, hv, events_unlink _ hi hperm⟩
  have hi' : c.hash e.time < (c.unlink (c.hash e.time) (as ++ bs) unique).nbuckets := hi
  generalize c.unlink (c.hash e.time) (as ++ bs) unique = d at hv hi'
  have hstat : ¬ (unique ∧ d.statQsize < 0) := by
    rw [hv.statQsize]
    omega
  have hcount : ¬ (unique ∧ (d.buckets (c.hash e.time)).count < 0) := by
    rw [hv.count _ hi']
    omega
  have hsingle : ¬ (bs ++ as = [] ∧ (c.buckets (c.hash e.time)).list.head? ≠ some e) := by
    rintro ⟨hnil, hne⟩
    obtain ⟨rfl, rfl⟩ := List.append_eq_nil_iff.mp hnil
    exact hne (hl ▸ rfl)
  have hempty : ¬ ((d.buckets (c.hash e.time)).count = 0 ∧
      (d.buckets (c.hash e.time)).list ≠ []) := by
    rintro ⟨hz, hne⟩
    rw [hv.count _ hi', Int.natCast_eq_zero, Finset.card_eq_zero] at hz
    obtain ⟨x, hx⟩ := List.exists_mem_of_ne_nil _ hne
    have hm : x.time ∈ eventTimes (bag (d.buckets (c.hash e.time))) :=
      mem_eventTimes.mpr ⟨x, hx, rfl⟩
    rw [hz] at hm
    cases hm
  rw [if_neg hstat, if_neg hcount, if_neg hsingle, if_neg hempty]

end CalendarScheduler

end Ns2XPass
