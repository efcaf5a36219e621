import Mathlib.Algebra.Order.BigOperators.Group.Finset
import Mathlib.Algebra.Order.Group.Multiset
import Ns2XPass.Library.Except
import Ns2XPass.Scheduler.LinkedCalendar
import Ns2XPass.Scheduler.Search

/-! # The rings of the calendar

The links of a calendar in memory spell out rings, one for each bucket, and
`list_` points to the first event of the ring. Each operation does to the rings
what it does to the lists of the buckets, and it looks at the same neighbours.
-/

namespace Ns2XPass

variable {η : Type}

namespace CalendarScheduler

variable {c : CalendarScheduler η} {i : ℕ}

/-- A calendar with no more of each bucket than its first event. -/
def heads (c : CalendarScheduler η) : CalendarScheduler η :=
  { c with buckets := fun i => ⟨(c.buckets i).list.head?.toList, (c.buckets i).count⟩ }

theorem heads_setBucket (c : CalendarScheduler η) (i : ℕ) (b : Bucket η) (stat q : ℤ) :
    heads { c with buckets := Function.update c.buckets i b, statQsize := stat, qsize := q } =
      { c.heads with
        buckets := Function.update c.heads.buckets i ⟨b.list.head?.toList, b.count⟩
        statQsize := stat
        qsize := q } := by
  unfold heads
  congr 1
  funext j
  by_cases hj : j = i
  · subst hj
    simp only [Function.update_self]
  · simp only [Function.update_of_ne hj]

theorem heads_link (c : CalendarScheduler η) (i : ℕ) (list : List (Event η)) (unique : Bool) :
    (c.link i list unique).heads = c.heads.link i list.head?.toList unique :=
  heads_setBucket c i _ _ _

theorem heads_unlink (c : CalendarScheduler η) (i : ℕ) (list : List (Event η)) (unique : Bool) :
    (c.unlink i list unique).heads = c.heads.unlink i list.head?.toList unique :=
  heads_setBucket c i _ _ _

/-- A visit looks at the first event only. -/
theorem calDequeue_heads (c : CalendarScheduler η) (diff : ℚ) (s : Search η) :
    c.heads.calDequeue diff s = c.calDequeue diff s := by
  unfold calDequeue heads
  dsimp only
  cases (c.buckets s.i).list <;> rfl

theorem searchYear_heads (c : CalendarScheduler η) (n : ℕ) (s : Search η) :
    c.heads.searchYear n s = c.searchYear n s := by
  induction n generalizing s with
  | zero => rfl
  | succ n ih =>
    unfold searchYear
    rw [calDequeue_heads]
    have hrest : c.heads.searchYear n = c.searchYear n := funext ih
    rw [hrest]
    rfl

theorem find_heads (c : CalendarScheduler η) : c.heads.find = c.find := by
  have hsearch : c.heads.search = c.search := by
    unfold search
    rw [calDequeue_heads, funext (c.calDequeue_heads _), funext (c.searchYear_heads _)]
    rfl
  unfold find
  rw [hsearch]
  cases c.search with
  | error found => rfl
  | ok s =>
    unfold heads
    dsimp only
    cases (c.buckets s.i).list <;> cases s.min <;> rfl

/-- The list of a bucket is no longer than the number of events. -/
theorem Valid.length_le (h : c.Valid) (hi : i < c.nbuckets) :
    (c.buckets i).list.length ≤ c.qsize.toNat := by
  have hle : bag (c.buckets i) ≤ c.events :=
    Finset.single_le_sum (f := bag ∘ c.buckets) (fun _ _ => Multiset.zero_le _)
      (Finset.mem_range.mpr hi)
  have hcard := Multiset.card_le_card hle
  have hq := h.qsize
  rw [bag, Multiset.coe_card] at hcard
  omega

end CalendarScheduler

open CalendarScheduler

namespace LinkedCalendar

variable {cfg : CalendarConfig} {r : LinkedCalendar η} {c : CalendarScheduler η}
  {e : Event η} {i n : ℕ} {l as bs : List (Event η)}

/-- The links spell out the lists of the buckets, from `list_` on. -/
structure Spelled (r : LinkedCalendar η) (c : CalendarScheduler η) : Prop where
  cal : r.cal = c.heads
  rings : ∀ i < c.nbuckets, r.links.Spells (c.buckets i).list

theorem Spelled.list (h : r.Spelled c) (i : ℕ) : r.list i = (c.buckets i).list.head? := by
  unfold LinkedCalendar.list
  rw [h.cal]
  change ((c.buckets i).list.head?.toList).head? = _
  cases (c.buckets i).list <;> rfl

theorem Spelled.length_lt (h : r.Spelled c) (hv : c.Valid) (hi : i < c.nbuckets) :
    (c.buckets i).list.length < r.bound := by
  unfold bound
  rw [h.cal]
  exact Nat.lt_succ_of_le (hv.length_le hi)

/-! ### The searches -/

theorem fetch_eq_ok {o : Option (Event η)} : fetch o = .ok e ↔ o = some e := by
  cases o with
  | none => simp [fetch]
  | some a => simp [fetch]

/-- The search from the tail passes the events that are due later. -/
theorem searchAfter_eq {pre mid post : List (Event η)} {a : Event η} {t : ℚ}
    (h : r.links.Spells (pre ++ a :: mid ++ post)) (hm : ∀ x ∈ mid, t < x.time)
    (ha : ¬ t < a.time) (hn : mid.length < n) :
    ∃ b, (a :: mid).getLast? = some b ∧ r.searchAfter t n b = .ok (a, mid.length) := by
  induction mid using List.reverseRecOn generalizing post n with
  | nil =>
    obtain ⟨n, rfl⟩ : ∃ k, n = k + 1 := ⟨n - 1, by omega⟩
    exact ⟨a, rfl, by rw [searchAfter, if_neg ha]; rfl⟩
  | append_singleton mid m ih =>
    rw [List.length_append, List.length_singleton] at hn ⊢
    obtain ⟨n, rfl⟩ : ∃ k, n = k + 1 := ⟨n - 1, by omega⟩
    have hassoc : pre ++ a :: (mid ++ [m]) ++ post = pre ++ a :: mid ++ m :: post := by simp
    rw [hassoc] at h
    obtain ⟨b, hb, hs⟩ := ih h (fun x hx => hm x (List.mem_append_left _ hx)) (n := n) (by omega)
    obtain ⟨ds, hds⟩ := List.getLast?_eq_some_iff.mp hb
    have hprev : r.links.prev m = some b := by
      rw [hds, ← List.append_assoc, List.append_assoc, List.singleton_append] at h
      exact h.neighbours.2
    refine ⟨m, by rw [← List.cons_append, List.getLast?_concat], ?_⟩
    rw [searchAfter, if_pos (hm m (by simp))]
    refine bind_eq_ok.mpr ⟨b, fetch_eq_ok.mpr hprev, ?_⟩
    exact bind_eq_ok.mpr ⟨_, hs, rfl⟩

/-- The search from the head passes the events that are due before. -/
theorem searchBefore_eq {pre front post : List (Event η)} {b : Event η} {t : ℚ}
    (h : r.links.Spells (pre ++ front ++ b :: post)) (hf : ∀ x ∈ front, x.time < t)
    (hb : ¬ b.time < t) (hn : front.length < n) :
    ∃ a, (front ++ [b]).head? = some a ∧ r.searchBefore t n a = .ok b := by
  induction front generalizing pre n with
  | nil =>
    obtain ⟨n, rfl⟩ : ∃ k, n = k + 1 := ⟨n - 1, by omega⟩
    exact ⟨b, rfl, by rw [searchBefore, if_neg hb]⟩
  | cons f front ih =>
    obtain ⟨n, rfl⟩ : ∃ k, n = k + 1 := ⟨n - 1, by omega⟩
    rw [List.length_cons] at hn
    have hassoc : pre ++ f :: front ++ b :: post = pre ++ [f] ++ front ++ b :: post := by simp
    obtain ⟨a, ha, hs⟩ := ih (hassoc ▸ h) (fun x hx => hf x (List.mem_cons_of_mem f hx))
      (n := n) (by omega)
    have hnext : r.links.next f = some a := by
      cases front with
      | nil =>
        obtain rfl : b = a := Option.some.inj ha
        simp only [List.append_assoc, List.singleton_append] at h
        exact h.neighbours.1
      | cons g front =>
        obtain rfl : g = a := Option.some.inj ha
        rw [List.append_assoc, List.cons_append, List.cons_append] at h
        exact h.neighbours.1
    refine ⟨f, rfl, ?_⟩
    rw [searchBefore, if_pos (hf f List.mem_cons_self)]
    exact bind_eq_ok.mpr ⟨a, fetch_eq_ok.mpr hnext, hs⟩

/-! ### Events in and outside of the buckets -/

/-- Rings of other buckets share no event with that of a bucket. -/
theorem notMem_bucket (hv : c.Valid) {j : ℕ} (hi : i < c.nbuckets) (hj : j < c.nbuckets)
    (hij : j ≠ i) {x : Event η} (hx : x ∈ (c.buckets j).list) : x ∉ (c.buckets i).list :=
  fun hxi => hij ((hv.hash_eq j hj x hx).symm.trans (hv.hash_eq i hi x hxi))

theorem notMem_of_events (hi : i < c.nbuckets) (he : e ∉ c.events) : e ∉ (c.buckets i).list :=
  fun hm => he (mem_events.mpr ⟨i, hi, hm⟩)

/-- Events that `insert2` may be given one after the other. -/
structure Movable (c : CalendarScheduler η) (es : List (Event η)) : Prop where
  clock_le : ∀ e ∈ es, c.calClock ≤ e.time
  latest_first : es.Pairwise fun a b => a.time = b.time → b.uid < a.uid
  before : ∀ x ∈ c.events, ∀ e ∈ es, x.time = e.time → e.uid < x.uid

theorem Movable.notMem {es : List (Event η)} (h : Movable c es) (he : e ∈ es) : e ∉ c.events :=
  fun hm => lt_irrefl _ (h.before e hm e he rfl)

theorem Movable.step {es : List (Event η)} (h : Movable c (e :: es)) (hv : c.Valid) :
    (c.insert2 e).Valid ∧ (c.insert2 e).events = e ::ₘ c.events ∧ Movable (c.insert2 e) es := by
  obtain ⟨hlt, hpw⟩ := List.pairwise_cons.mp h.latest_first
  obtain ⟨hv', hev⟩ := hv.insert2 (h.clock_le e List.mem_cons_self)
    fun x hx => h.before x hx e List.mem_cons_self
  refine ⟨hv', hev, fun x hx => h.clock_le x (List.mem_cons_of_mem e hx), hpw, ?_⟩
  intro x hx y hy hxy
  rcases Multiset.mem_cons.mp (hev ▸ hx) with rfl | hx
  · exact hlt y hy hxy
  · exact h.before x hx y (List.mem_cons_of_mem e hy) hxy

theorem Movable.ne {es : List (Event η)} (h : Movable c (e :: es)) {x : Event η} (hx : x ∈ es) :
    x ≠ e := by
  rintro rfl
  exact lt_irrefl _ ((List.pairwise_cons.mp h.latest_first).1 x hx rfl)

/-- An insertion into a ring: the links spell the new list, `list_` is its first event, and all
other events keep their links. -/
structure Inserted (ls : RingLinks (Event η)) (e : Event η) (l l' : List (Event η))
    (list : Event η) (links : RingLinks (Event η)) : Prop where
  first : l'.head? = some list
  spells : links.Spells l'
  others : ∀ x, x ∉ l → x ≠ e → links.next x = ls.next x ∧ links.prev x = ls.prev x

theorem Spelled.link (h : r.Spelled c) (hv : c.Valid) (hi : i < c.nbuckets) (he : e ∉ c.events)
    {list : Event η} {links : RingLinks (Event η)} (unique : Bool)
    (hin : Inserted r.links e (c.buckets i).list l list links) :
    Spelled ⟨r.cal.link i [list] unique, links⟩ (c.link i l unique) where
  cal := by
    dsimp only
    rw [heads_link, h.cal, hin.first]
    rfl
  rings := by
    intro j hj
    have hj : j < c.nbuckets := hj
    unfold CalendarScheduler.link
    dsimp only
    by_cases hij : j = i
    · rw [hij, Function.update_self]
      exact hin.spells
    · rw [Function.update_of_ne hij]
      have hother : ∀ x ∈ (c.buckets j).list, links.next x = r.links.next x ∧
          links.prev x = r.links.prev x := fun x hx =>
        hin.others x (notMem_bucket hv hi hj hij hx)
          fun hxe => he (hxe ▸ mem_events.mpr ⟨j, hj, hx⟩)
      exact (h.rings j hj).congr (fun x hx => (hother x hx).1) fun x hx => (hother x hx).2

/-! ### The width -/

theorem Spelled.sampledWidth (h : r.Spelled c) (hv : c.Valid) {w : ℚ}
    (hw : c.sampledWidth n = .ok w) : r.sampledWidth n = .ok w := by
  have hmax : r.cal.maxBucket = c.maxBucket := by rw [h.cal]; rfl
  have hcount : (r.cal.buckets c.maxBucket).count = (c.buckets c.maxBucket).count := by
    rw [h.cal]
    rfl
  have hwidth : r.cal.width = c.width := by rw [h.cal]; rfl
  have hring := h.rings _ (maxBucket_lt (by have := hv.four_le; omega))
  unfold CalendarScheduler.sampledWidth at hw
  unfold LinkedCalendar.sampledWidth
  rw [hmax, hcount, hwidth, h.list]
  dsimp only at hw ⊢
  split at hw
  · next hfew => rw [if_pos hfew, Except.ok.inj hw]
  · next hfew =>
    rw [if_neg hfew]
    split at hw
    · next head tail hhead htail =>
      obtain ⟨l, hl⟩ := List.head?_eq_some_iff.mp hhead
      rw [hl] at hring htail
      refine bind_eq_ok.mpr ⟨head, fetch_eq_ok.mpr hhead, ?_⟩
      refine bind_eq_ok.mpr ⟨tail, fetch_eq_ok.mpr (hring.prev_eq.trans htail), ?_⟩
      split_ifs at hw ⊢
      rw [Except.ok.inj hw]
      rfl
    · simp at hw

theorem Spelled.newwidth (h : r.Spelled c) (hv : c.Valid) {w : ℚ} {d : CalendarScheduler η}
    (hw : c.newwidth cfg n = .ok (w, d)) :
    ∃ r', r.newwidth cfg n = .ok (w, r') ∧ r'.Spelled d := by
  have hsampled : ∀ (t : CalendarScheduler η) (q : LinkedCalendar η), t.Valid → q.Spelled t →
      (t.sampledWidth n).map (fun w => (w, t)) = .ok (w, d) →
      ∃ r', (q.sampledWidth n).map (fun w => (w, q)) = .ok (w, r') ∧ r'.Spelled d := by
    intro t q ht hq ht'
    cases hs : t.sampledWidth n with
    | error a => rw [hs] at ht'; simp [Except.map] at ht'
    | ok w' =>
      rw [hs] at ht'
      obtain ⟨rfl, rfl⟩ := Prod.mk.inj (Except.ok.inj ht')
      exact ⟨q, by rw [hq.sampledWidth ht hs]; rfl, hq⟩
  have hgap : r.cal.avgGap = c.avgGap := by rw [h.cal]; rfl
  have h' : Spelled
      { r with cal := { r.cal with timeToNewwidth := cfg.adjustNewWidthInterval } }
      { c with timeToNewwidth := cfg.adjustNewWidthInterval } :=
    ⟨by dsimp only; rw [h.cal]; rfl, h.rings⟩
  have hv' := hv.withStats { c with timeToNewwidth := cfg.adjustNewWidthInterval }
  unfold CalendarScheduler.newwidth at hw
  unfold LinkedCalendar.newwidth
  by_cases hadjust : cfg.adjustNewWidthInterval ≠ 0
  · rw [if_pos hadjust] at hw ⊢
    dsimp only at hw ⊢
    by_cases hpos : 0 < c.avgGap
    · rw [if_pos hpos] at hw
      rw [if_pos (hgap.symm ▸ hpos)]
      obtain ⟨rfl, rfl⟩ := Prod.mk.inj (Except.ok.inj hw)
      exact ⟨_, congrArg (fun g => Except.ok (g * 4, _)) hgap, h'⟩
    · rw [if_neg hpos] at hw
      rw [if_neg (hgap.symm ▸ hpos)]
      exact hsampled _ _ hv' h' hw
  · rw [if_neg hadjust] at hw ⊢
    exact hsampled _ _ hv h hw

section Links

variable [DecidableEq η]

/-! ### Places in a ring -/

theorem inserted_between {ls : RingLinks (Event η)} {list : Event η} (h : ls.Spells (as ++ bs))
    (hne : as ++ bs ≠ []) (he : e ∉ as ++ bs) (hl : (as ++ e :: bs).head? = some list) :
    ∃ t b, (bs ++ as).getLast? = some t ∧ (bs ++ as).head? = some b ∧ ls.prev b = some t ∧
      ls.next t = some b ∧ Inserted ls e (as ++ bs) (as ++ e :: bs) list (ls.insert t e b) := by
  obtain ⟨t, b, ht, hb, hprev, hnext, hs⟩ := h.insert_between hne he
  refine ⟨t, b, ht, hb, hprev, hnext, hl, hs, fun x hx hxe => ?_⟩
  have hmem : ∀ y, y ∈ bs ++ as → x ≠ y := by
    rintro y hy rfl
    exact hx (by simpa [or_comm] using hy)
  exact RingLinks.insert_of_ne hxe (hmem t (List.mem_of_getLast? ht))
    (hmem b (List.mem_of_mem_head? hb))

theorem inserted_single (ls : RingLinks (Event η)) (e : Event η) :
    Inserted ls e [] [e] e (ls.single e) where
  first := rfl
  spells := RingLinks.spells_single
  others _ _ hx := ⟨Function.update_of_ne hx _ _, Function.update_of_ne hx _ _⟩

theorem place_eq (hs : r.links.Spells l) (hl : r.list i = l.head?) (he : e ∉ l)
    (hb : l.length < r.bound) :
    ∃ list links, r.place i e = .ok (list, links, (CalendarScheduler.place e l).2) ∧
      Inserted r.links e l (CalendarScheduler.place e l).1 list links := by
  cases l with
  | nil =>
    refine ⟨e, r.links.single e, ?_, inserted_single r.links e⟩
    rw [LinkedCalendar.place, hl]
    rfl
  | cons head l =>
    rw [LinkedCalendar.place, hl, List.head?_cons, CalendarScheduler.place]
    dsimp only
    have hprev := hs.prev_eq
    split_ifs with ht
    · have hs₀ : r.links.Spells ([] ++ head :: l) := hs
      obtain ⟨t, b, hlast, hhead, hpb, -, hin⟩ :=
        inserted_between hs₀ (List.cons_ne_nil _ _) he rfl
      obtain rfl : head = b := by simpa using hhead
      refine ⟨e, r.links.insert t e head, ?_, hin⟩
      exact bind_eq_ok.mpr ⟨t, fetch_eq_ok.mpr hpb, rfl⟩
    · obtain ⟨as, bs, has, hbs, hsplit, hnot, hall⟩ :=
        exists_rdropWhile (e.time < ·.time) (head :: l)
      rw [has, hbs]
      have hne : as ≠ [] := by
        rintro rfl
        have hm : head ∈ bs := by
          rw [List.nil_append] at hsplit
          exact hsplit ▸ List.mem_cons_self
        exact ht (by simpa using hall head hm)
      obtain ⟨as, a, rfl⟩ := (List.eq_nil_or_concat' as).resolve_left hne
      have hfirst : (as ++ [a] ++ e :: bs).head? = some head := by
        have hcons : (head :: l).head? = (as ++ [a] ++ bs).head? := by rw [hsplit]
        cases as <;> simpa using hcons.symm
      rw [hsplit] at hs he hprev hb
      obtain ⟨t, b, hlast, -, -, hnext, hin⟩ := inserted_between hs (by simp) he hfirst
      obtain rfl : a = t := by simpa using hlast
      have hspells : r.links.Spells (as ++ a :: bs ++ []) := by simpa using hs
      obtain ⟨x, hx, hsearch⟩ := searchAfter_eq hspells (t := e.time) (n := r.bound)
        (fun x hx => by simpa using hall x hx) (by simpa using hnot a (by simp))
        (by simp only [List.length_append] at hb; omega)
      have htail : r.links.prev head = some x := by
        rw [hprev, List.append_assoc, List.singleton_append, List.getLast?_append_cons]
        exact hx
      refine ⟨head, r.links.insert a e b, ?_, ?_⟩
      · refine bind_eq_ok.mpr ⟨x, fetch_eq_ok.mpr htail, ?_⟩
        refine bind_eq_ok.mpr ⟨_, hsearch, ?_⟩
        refine bind_eq_ok.mpr ⟨b, fetch_eq_ok.mpr hnext, ?_⟩
        simp [pure, Except.pure]
      · rw [hsplit]
        exact hin

/-- A new event behind the tail. -/
theorem inserted_tail {ls : RingLinks (Event η)} {head tail : Event η}
    (hs : ls.Spells (head :: l)) (he : e ∉ head :: l)
    (htail : (head :: l).getLast? = some tail) :
    Inserted ls e (head :: l) (head :: l ++ [e]) head (ls.insert tail e head) := by
  have hs₀ : ls.Spells ((head :: l) ++ []) := by simpa using hs
  have hfirst : ((head :: l) ++ e :: []).head? = some head := rfl
  obtain ⟨t, b, hlast, hhead, -, -, hin⟩ :=
    inserted_between hs₀ (by simp) (by simpa using he) hfirst
  obtain rfl : head = b := by simpa using hhead
  obtain rfl : tail = t := by
    rw [List.nil_append, htail] at hlast
    exact Option.some.inj hlast
  simpa using hin

/-- The search from the head comes to the first event that is not due before the new one, which is
put in front of it. -/
theorem inserted_before {front back : List (Event η)} {b head : Event η}
    (hs : r.links.Spells (front ++ b :: back)) (he : e ∉ front ++ b :: back)
    (hh : (front ++ b :: back).head? = some head) (hbefore : ∀ x ∈ front, x.time < e.time)
    (hbt : ¬ b.time < e.time) (hlen : front.length < n) :
    ∃ t, r.links.prev b = some t ∧ r.searchBefore e.time n head = .ok b ∧
      Inserted r.links e (front ++ b :: back) (front ++ e :: b :: back)
        (if b = head then e else head) (r.links.insert t e b) := by
  have hs₀ : r.links.Spells ([] ++ front ++ b :: back) := hs
  obtain ⟨x, hx, hsearch⟩ := searchBefore_eq hs₀ hbefore hbt hlen
  have hstart : x = head := by
    cases front with
    | nil => exact (Option.some.inj hx).symm.trans (Option.some.inj hh)
    | cons f front => exact (Option.some.inj hx).symm.trans (Option.some.inj hh)
  have hfirst : (front ++ e :: b :: back).head? = some (if b = head then e else head) := by
    cases front with
    | nil =>
      rw [if_pos (Option.some.inj hh)]
      rfl
    | cons f front =>
      obtain rfl : f = head := Option.some.inj hh
      have hne : b ≠ f := by
        rintro rfl
        have hd := hs.nodup
        simp at hd
      rw [if_neg hne]
      rfl
  obtain ⟨t, b', -, hhead, hpb, -, hin⟩ := inserted_between hs (by simp) he hfirst
  obtain rfl : b = b' := by simpa using hhead
  exact ⟨t, hpb, hstart ▸ hsearch, hin⟩

theorem place2_eq (hs : r.links.Spells l) (hl : r.list i = l.head?) (he : e ∉ l)
    (hb : l.length < r.bound) :
    ∃ list links, r.place2 i e = .ok (list, links, (CalendarScheduler.place2 e l).2) ∧
      Inserted r.links e l (CalendarScheduler.place2 e l).1 list links := by
  cases l with
  | nil =>
    refine ⟨e, r.links.single e, ?_, inserted_single r.links e⟩
    rw [LinkedCalendar.place2, hl]
    rfl
  | cons head l =>
    rw [LinkedCalendar.place2, hl, List.head?_cons, CalendarScheduler.place2]
    · obtain ⟨tail, htail⟩ : ∃ t, (head :: l).getLast? = some t :=
        Option.isSome_iff_exists.mp (by simp)
      have hprev : r.links.prev head = some tail := hs.prev_eq.trans htail
      have hunique : ∀ b ∈ head :: l,
          decide (e ≠ b ∧ b.time ≠ e.time) = decide (b.time ≠ e.time) := by
        intro b hm
        have hne : e ≠ b := fun heq => he (heq ▸ hm)
        simp [hne]
      rw [htail, Option.any_some]
      by_cases ht : tail.time < e.time
      · -- the event is put at the tail
        rw [if_pos (decide_eq_true ht)]
        refine ⟨head, r.links.insert tail e head, ?_, inserted_tail hs he htail⟩
        refine bind_eq_ok.mpr ⟨tail, fetch_eq_ok.mpr hprev, ?_⟩
        rw [if_pos ht, hunique head List.mem_cons_self]
        rfl
      · rw [if_neg (by simpa using ht), List.span_eq_takeWhile_dropWhile]
        dsimp only
        have hsplit : (head :: l).takeWhile (·.time < e.time) ++
            (head :: l).dropWhile (·.time < e.time) = head :: l := List.takeWhile_append_dropWhile
        have hbefore : ∀ x ∈ (head :: l).takeWhile (·.time < e.time), x.time < e.time :=
          fun x hx => by simpa using List.mem_takeWhile_imp hx
        have hstop := List.head?_dropWhile_not (fun x : Event η => x.time < e.time) (head :: l)
        generalize (head :: l).takeWhile (·.time < e.time) = front at hsplit hbefore ⊢
        generalize (head :: l).dropWhile (·.time < e.time) = back at hsplit hstop ⊢
        have hback : back ≠ [] := by
          rintro rfl
          rw [List.append_nil] at hsplit
          exact ht (hbefore tail (hsplit ▸ List.mem_of_getLast? htail))
        obtain ⟨b, back, rfl⟩ := List.exists_cons_of_ne_nil hback
        have hbt : ¬ b.time < e.time := by simpa using hstop
        have hmem : b ∈ head :: l := by
          rw [← hsplit]
          simp
        have hlen : front.length < r.bound := by
          rw [← hsplit, List.length_append] at hb
          omega
        have hh : (front ++ b :: back).head? = some head := by rw [hsplit]; rfl
        rw [← hsplit] at hs he
        obtain ⟨t, hpb, hsearch, hin⟩ := inserted_before hs he hh hbefore hbt hlen
        refine ⟨if b = head then e else head, r.links.insert t e b, ?_, hsplit ▸ hin⟩
        refine bind_eq_ok.mpr ⟨tail, fetch_eq_ok.mpr hprev, ?_⟩
        rw [if_neg ht]
        refine bind_eq_ok.mpr ⟨b, hsearch, ?_⟩
        refine bind_eq_ok.mpr ⟨t, fetch_eq_ok.mpr hpb, ?_⟩
        rw [hunique b hmem]
        rfl
    · simp

theorem Spelled.insert2 (h : r.Spelled c) (hv : c.Valid) (he : e ∉ c.events) :
    ∃ r', r.insert2 e = .ok r' ∧ r'.Spelled (c.insert2 e) ∧
      ∀ x, x ∉ c.events → x ≠ e → r'.links.prev x = r.links.prev x := by
  have hi := hv.hash_lt e.time
  have hhash : r.cal.hash e.time = c.hash e.time := by rw [h.cal]; rfl
  obtain ⟨list, links, hp, hin⟩ := place2_eq (h.rings _ hi) (h.list _) (notMem_of_events hi he)
    (h.length_lt hv hi)
  refine ⟨⟨r.cal.link (c.hash e.time) [list] _, links⟩, ?_, h.link hv hi he _ hin, ?_⟩
  · unfold LinkedCalendar.insert2
    rw [hhash]
    exact bind_eq_ok.mpr ⟨_, hp, rfl⟩
  · intro x hx hxe
    exact (hin.others x (notMem_of_events hi hx) hxe).2

/-! ### Moving the events -/

theorem Spelled.clear (h : r.Spelled c) (he : e ∉ c.events) :
    Spelled { r with links := r.links.clear e } c where
  cal := h.cal
  rings i hi := (h.rings i hi).clear (notMem_of_events hi he)

/-- The loop along an old ring moves its events, from an event backwards. -/
theorem moveRing_eq {tail : Event η} {es later : List (Event η)} (h : r.Spelled c) (hv : c.Valid)
    (hm : Movable c (e :: es ++ later))
    (hs : Segment r.links.prev (some e) (e :: es) (some tail)) (htail : tail ∉ es)
    (hn : es.length < n) :
    ∃ r', moveRing tail n e r = .ok r' ∧ r'.Spelled ((e :: es).foldl CalendarScheduler.insert2 c) ∧
      ((e :: es).foldl CalendarScheduler.insert2 c).Valid ∧
      Movable ((e :: es).foldl CalendarScheduler.insert2 c) later ∧
      ∀ x ∈ later, r'.links.prev x = r.links.prev x := by
  induction es generalizing r c e n with
  | nil =>
    obtain ⟨n, rfl⟩ : ∃ k, n = k + 1 := ⟨n - 1, by simp only [List.length_nil] at hn; omega⟩
    have he := hm.notMem List.mem_cons_self
    obtain ⟨r', hr, hsp, hprev⟩ := (h.clear he).insert2 hv he
    obtain ⟨hv', -, hm'⟩ := hm.step hv
    have hlast : r.links.prev e = some tail := hs.2
    refine ⟨r', ?_, hsp, hv', hm', fun x hx => ?_⟩
    · unfold moveRing
      refine bind_eq_ok.mpr ⟨tail, fetch_eq_ok.mpr hlast, ?_⟩
      refine bind_eq_ok.mpr ⟨r', hr, ?_⟩
      rw [if_pos rfl]
      rfl
    · have hne := hm.ne hx
      rw [hprev x (hm.notMem (List.mem_cons_of_mem e hx)) hne]
      exact Function.update_of_ne hne _ _
  | cons a es ih =>
    obtain ⟨n, rfl⟩ : ∃ k, n = k + 1 := ⟨n - 1, by simp only [List.length_cons] at hn; omega⟩
    have he := hm.notMem List.mem_cons_self
    obtain ⟨r', hr, hsp, hprev⟩ := (h.clear he).insert2 hv he
    obtain ⟨hv', hev, hm'⟩ := hm.step hv
    obtain ⟨-, hnext, hrest⟩ := hs
    have hsame : ∀ x ∈ a :: es ++ later, r'.links.prev x = r.links.prev x := by
      intro x hx
      have hne := hm.ne hx
      rw [hprev x (hm.notMem (List.mem_cons_of_mem e hx)) hne]
      exact Function.update_of_ne hne _ _
    have hs' : Segment r'.links.prev (some a) (a :: es) (some tail) := by
      have hs₀ : Segment r.links.prev (some a) (a :: es) (some tail) := ⟨rfl, hrest⟩
      exact hs₀.congr fun x hx => hsame x (List.mem_append_left later hx)
    have hne : a ≠ tail := fun hat => htail (hat ▸ List.mem_cons_self)
    obtain ⟨r'', hr'', hsp'', hv'', hm'', hprev''⟩ := ih hsp hv' hm' hs'
      (fun hx => htail (List.mem_cons_of_mem a hx)) (n := n)
      (by simp only [List.length_cons] at hn; omega)
    refine ⟨r'', ?_, hsp'', hv'', hm'', fun x hx => ?_⟩
    · unfold moveRing
      refine bind_eq_ok.mpr ⟨a, fetch_eq_ok.mpr hnext, ?_⟩
      refine bind_eq_ok.mpr ⟨r', hr, ?_⟩
      rw [if_neg hne]
      exact hr''
    · rw [hprev'' x hx, hsame x (List.mem_append_right (a :: es) hx)]

/-- The loop over the old buckets moves the events of each from its tail. -/
theorem moveBuckets_eq {s : LinkedCalendar η} {d : CalendarScheduler η}
    (lists : ℕ → List (Event η)) (is : List ℕ) (hs : s.Spelled d) (hv : d.Valid)
    (hm : Movable d (is.flatMap fun i => (lists i).reverse))
    (hr : ∀ i ∈ is, Loops s.links.prev (lists i).reverse) (hd : ∀ i ∈ is, (lists i).Nodup)
    (hn : ∀ i ∈ is, (lists i).length ≤ n) :
    ∃ s', is.foldlM (fun s i => moveBucket s n (lists i).head?) s = .ok s' ∧
      s'.Spelled ((is.flatMap fun i => (lists i).reverse).foldl CalendarScheduler.insert2 d) := by
  induction is generalizing s d with
  | nil => exact ⟨s, rfl, hs⟩
  | cons i is ih =>
    have hri := hr i List.mem_cons_self
    have hni := hn i List.mem_cons_self
    have hdi := hd i List.mem_cons_self
    rw [List.flatMap_cons] at hm ⊢
    rw [List.foldl_append]
    cases hl : lists i with
    | nil =>
      rw [hl] at hm
      obtain ⟨s', hs', hsp⟩ := ih hs hv hm (fun j hj => hr j (List.mem_cons_of_mem i hj))
        (fun j hj => hd j (List.mem_cons_of_mem i hj))
        fun j hj => hn j (List.mem_cons_of_mem i hj)
      refine ⟨s', ?_, hsp⟩
      rw [List.foldlM_cons, hl]
      exact bind_eq_ok.mpr ⟨s, rfl, hs'⟩
    | cons head l =>
      rw [hl] at hm hri hni hdi
      have hdr := List.nodup_reverse.mpr hdi
      have hprev : s.links.prev head = (head :: l).reverse.head? := by
        rw [List.reverse_cons] at hri ⊢
        exact (loops_concat.mp hri).2
      have hlen : (head :: l).reverse.length = (head :: l).length := List.length_reverse
      obtain ⟨e, es, hes⟩ := List.exists_cons_of_ne_nil (by simp : (head :: l).reverse ≠ [])
      rw [hes] at hm hri hprev hdr hlen ⊢
      obtain ⟨s₁, hs₁, hsp₁, hv₁, hm₁, hlater⟩ := moveRing_eq hs hv hm hri
        (List.nodup_cons.mp hdr).1 (n := n) (by simp only [List.length_cons] at hlen hni; omega)
      obtain ⟨s', hs', hsp'⟩ := ih hsp₁ hv₁ hm₁ (fun j hj => by
          refine Segment.congr (hr j (List.mem_cons_of_mem i hj)) fun x hx => hlater x ?_
          exact List.mem_flatMap.mpr ⟨j, hj, hx⟩)
        (fun j hj => hd j (List.mem_cons_of_mem i hj))
        fun j hj => hn j (List.mem_cons_of_mem i hj)
      refine ⟨s', ?_, hsp'⟩
      rw [List.foldlM_cons, hl]
      refine bind_eq_ok.mpr ⟨s₁, ?_, hs'⟩
      exact bind_eq_ok.mpr ⟨e, fetch_eq_ok.mpr hprev, hs₁⟩

theorem Spelled.rebuild (h : r.Spelled c) (hv : c.Valid) {w : ℚ} (hw : 0 < w) (hn : 4 ≤ n) :
    ∃ r', r.rebuild n w c.calClock = .ok r' ∧ r'.Spelled (c.rebuild n w c.calClock) := by
  obtain ⟨hv₀, hev₀⟩ := valid_reinit hw hn hv.clock_nonneg
  have h₀ : Spelled { r with cal := r.cal.reinit n w c.calClock } (c.reinit n w c.calClock) := by
    refine ⟨?_, fun _ _ => RingLinks.spells_nil⟩
    dsimp only
    rw [h.cal]
    rfl
  have hmem : ∀ x ∈ c.moved, x ∈ c.events := fun x hx => coe_moved c ▸ hx
  have hm : Movable (c.reinit n w c.calClock) c.moved := by
    refine ⟨fun x hx => hv.clock_le x (hmem x hx), hv.moved_pairwise, fun x hx => ?_⟩
    rw [hev₀] at hx
    exact absurd hx (Multiset.notMem_zero x)
  have hring : ∀ i ∈ List.range c.nbuckets, r.links.Spells (c.buckets i).list :=
    fun i hi => h.rings i (List.mem_range.mp hi)
  obtain ⟨s, hs, hsp⟩ := moveBuckets_eq (fun i => (c.buckets i).list) (List.range c.nbuckets)
    h₀ hv₀ hm (fun i hi => (hring i hi).backward) (fun i hi => (hring i hi).nodup) (n := r.bound)
    fun i hi => (h.length_lt hv (List.mem_range.mp hi)).le
  refine ⟨{ s with cal := { s.cal with headSearch := 0, insertSearch := 0, roundNum := 0 } }, ?_,
    ?_, hsp.rings⟩
  swap
  · dsimp only
    rw [hsp.cal]
    rfl
  have hlists : (fun (s : LinkedCalendar η) (i : ℕ) => s.moveBucket r.bound (r.list i)) =
      fun s i => s.moveBucket r.bound (c.buckets i).list.head? := by
    funext s i
    rw [h.list]
  have hbuckets : r.cal.nbuckets = c.nbuckets := by rw [h.cal]; rfl
  unfold LinkedCalendar.rebuild
  rw [hlists, hbuckets]
  exact bind_eq_ok.mpr ⟨s, hs, rfl⟩

/-! ### Resizing -/

theorem Spelled.resize (h : r.Spelled c) (hv : c.Valid) (hs : ∀ x, 0 < x → 0 < cfg.sqrt x)
    (hn : 0 < n) :
    ∃ c' r', c.resize cfg n c.calClock = .ok c' ∧ r.resize cfg n c.calClock = .ok r' ∧
      r'.Spelled c' := by
  obtain ⟨w, d, hw, hpos, hd⟩ := hv.newwidth cfg hn
  obtain ⟨q, hq, hqd⟩ := h.newwidth hv hw
  have hdv : d.Valid := hd ▸ hv.withStats d
  have hdc : d.calClock = c.calClock := by rw [hd]; rfl
  have hrebuild : ∀ m, 4 ≤ m → ∃ r', q.rebuild m w c.calClock = .ok r' ∧
      r'.Spelled (d.rebuild m w c.calClock) := by
    intro m hm
    rw [← hdc]
    exact hqd.rebuild hdv hpos hm
  have hsize : r.cal.nbuckets = c.nbuckets := by rw [h.cal]; rfl
  have hsnoopy : r.cal.snoopyWidth cfg = c.snoopyWidth cfg := by rw [h.cal]; rfl
  have htime : r.cal.timeToNewwidth = c.timeToNewwidth := by rw [h.cal]; rfl
  unfold CalendarScheduler.resize LinkedCalendar.resize
  rw [hsize, hsnoopy, htime]
  split_ifs with hsame hmin hleft hfew
  · exact ⟨_, _, rfl, rfl, by dsimp only; rw [h.cal]; rfl, h.rings⟩
  · obtain ⟨r', hr', hsp⟩ := hrebuild n (hsame ▸ hv.four_le)
    exact ⟨_, r', bind_eq_ok.mpr ⟨_, hw, rfl⟩, bind_eq_ok.mpr ⟨_, hq, hr'⟩, hsp⟩
  · obtain ⟨r', hr', hsp⟩ := h.rebuild hv (hv.snoopyWidth_pos hs) (hsame ▸ hv.four_le)
    exact ⟨_, r', rfl, hr', hsp⟩
  · obtain ⟨r', hr', hsp⟩ := hrebuild 4 le_rfl
    refine ⟨_, r', bind_eq_ok.mpr ⟨_, hw, rfl⟩, bind_eq_ok.mpr ⟨_, hq, ?_⟩, hsp⟩
    exact hr'
  · obtain ⟨r', hr', hsp⟩ := hrebuild n (not_lt.mp hfew)
    refine ⟨_, r', bind_eq_ok.mpr ⟨_, hw, rfl⟩, bind_eq_ok.mpr ⟨_, hq, ?_⟩, hsp⟩
    exact hr'

end Links

end LinkedCalendar

end Ns2XPass
