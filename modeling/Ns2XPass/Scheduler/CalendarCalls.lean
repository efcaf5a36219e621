import Ns2XPass.Scheduler.CalendarRings

/-! # The calls of the calendar in memory

Each call of the calendar in memory does to the rings of the buckets what the call
on their lists does, and no assertion fails.
-/

namespace Ns2XPass

open CalendarScheduler

variable {η : Type}

namespace CalendarScheduler

theorem heads_rewindClock (c : CalendarScheduler η) (t : ℚ) :
    (c.rewindClock t).heads = c.heads.rewindClock t := by
  unfold rewindClock
  split_ifs with h h' h'
  · rfl
  · exact absurd h h'
  · exact absurd h' h
  · rfl

end CalendarScheduler

namespace LinkedCalendar

variable {cfg : CalendarConfig} {r : LinkedCalendar η} {c c' : CalendarScheduler η}
  {e : Event η} {i n : ℕ} {as bs : List (Event η)}

theorem Spelled.head {o : Option (Event η)} (h : r.Spelled c) (hc : c.head = .ok (o, c')) :
    ∃ r', r.head = .ok (o, r') ∧ r'.Spelled c' := by
  unfold LinkedCalendar.head
  rw [h.cal]
  unfold CalendarScheduler.head at hc ⊢
  rw [find_heads]
  by_cases hq : c.qsize = 0
  · rw [if_pos hq] at hc
    obtain ⟨rfl, rfl⟩ := Prod.mk.inj (Except.ok.inj hc)
    have hq' : c.heads.qsize = 0 := hq
    rw [if_pos hq']
    exact ⟨_, rfl, rfl, h.rings⟩
  · rw [if_neg hq] at hc
    have hq' : ¬ c.heads.qsize = 0 := hq
    rw [if_neg hq']
    obtain ⟨⟨l, e, v⟩, hf, hc⟩ := bind_eq_ok.mp hc
    obtain ⟨rfl, rfl⟩ := Prod.mk.inj (pure_eq_ok.mp hc)
    rw [hf]
    exact ⟨_, rfl, rfl, h.rings⟩

/-! ### Neighbours -/

/-- The event behind one in the ring and the event before it, which lead back to it. -/
structure Between (ls : RingLinks (Event η)) (e : Event η) (others : List (Event η))
    (prev next : Event η) : Prop where
  prev_eq : ls.prev e = some prev
  next_eq : ls.next e = some next
  next_prev : ls.next prev = some e
  prev_next : ls.prev next = some e
  alone : next = e ↔ others = []
  head : others ≠ [] → others.head? = some next
  last : others ≠ [] → others.getLast? = some prev

theorem exists_between {ls : RingLinks (Event η)} {others : List (Event η)}
    (h : ls.Spells (e :: others)) : ∃ prev next, Between ls e others prev next := by
  obtain ⟨t, c, ht, hc, htn, hcp, hlast, hhead⟩ := h.around
  have hnot := (List.nodup_cons.mp h.nodup).1
  cases others with
  | nil =>
    obtain rfl : e = c := Option.some.inj hhead
    exact ⟨t, e, ht, hc, htn, hcp, by simp, by simp, by simp⟩
  | cons x xs =>
    obtain rfl : x = c := Option.some.inj hhead
    rw [List.getLast?_cons_cons] at hlast
    refine ⟨t, x, ht, hc, htn, hcp, ?_, fun _ => rfl, fun _ => hlast⟩
    have hne : x ≠ e := fun he => hnot (he ▸ List.mem_cons_self)
    simp [hne]

namespace Between

variable {ls : RingLinks (Event η)} {others : List (Event η)} {prev next : Event η}

theorem head?_eq (h : Between ls e others prev next) [Decidable (next = e)] :
    others.head? = if next = e then none else some next := by
  split
  · next ha => rw [h.alone.mp ha]; rfl
  · next ha => exact h.head fun hnil => ha (h.alone.mpr hnil)

theorem getLast?_eq (h : Between ls e others prev next) [Decidable (next = e)] :
    others.getLast? = if next = e then none else some prev := by
  split
  · next ha => rw [h.alone.mp ha]; rfl
  · next ha => exact h.last fun hnil => ha (h.alone.mpr hnil)

/-- The time of an event is its own when the event behind it has another, at the head. -/
theorem unique_head (h : Between ls e others prev next) [Decidable (next = e)] :
    decide (next = e ∨ next.time ≠ e.time) = others.head?.all (·.time ≠ e.time) := by
  rw [h.head?_eq]
  split
  · next ha => simp [ha]
  · next ha => simp [ha]

theorem unique_both (h : Between ls e others prev next) [Decidable (next = e)] :
    decide (next = e ∨ next.time ≠ e.time ∧ prev.time ≠ e.time) =
      (others.head?.all (·.time ≠ e.time) && others.getLast?.all (·.time ≠ e.time)) := by
  rw [h.head?_eq, h.getLast?_eq]
  split
  · next ha => simp [ha]
  · next ha => simp [ha]

end Between

section Links

variable [DecidableEq η]

theorem Spelled.insert (h : r.Spelled c) (hv : c.Valid) (hs : ∀ x, 0 < x → 0 < cfg.sqrt x)
    (ht : 0 ≤ e.time) (hu : ∀ x ∈ c.events, x.uid < e.uid) :
    ∃ c' r', c.insert cfg e = .ok c' ∧ r.insert cfg e = .ok r' ∧ r'.Spelled c' := by
  obtain ⟨hd, hev, hclock⟩ := hv.rewindClock ht
  have hq : Spelled { r with cal := r.cal.rewindClock e.time } (c.rewindClock e.time) := by
    refine ⟨?_, ?_⟩
    · dsimp only
      rw [h.cal, heads_rewindClock]
    · have hn : (c.rewindClock e.time).nbuckets = c.nbuckets ∧
          (c.rewindClock e.time).buckets = c.buckets := by
        unfold CalendarScheduler.rewindClock
        split <;> exact ⟨rfl, rfl⟩
      rw [hn.1, hn.2]
      exact h.rings
  have hnot : e ∉ (c.rewindClock e.time).events := by
    rw [hev]
    exact fun hm => lt_irrefl _ (hu e hm)
  unfold CalendarScheduler.insert LinkedCalendar.insert
  generalize hr₀ : r.cal.rewindClock e.time = cal at hq ⊢
  generalize c.rewindClock e.time = d at hd hev hclock hq hnot ⊢
  have hi := hd.hash_lt e.time
  obtain ⟨list, links, hp, hin⟩ := place_eq (hq.rings _ hi) (hq.list _) (notMem_of_events hi hnot)
    (hq.length_lt hd hi)
  have hplace := place_spec (hd.inOrder _ hi) fun x hx =>
    hu x (hev ▸ mem_events.mpr ⟨_, hi, hx⟩)
  obtain ⟨hv₁, -⟩ := hd.link_place hclock hplace
  have hlink := hq.link hd hi hnot (CalendarScheduler.place e (d.buckets (d.hash e.time)).list).2.1
    hin
  have hcal : cal = d.heads := hq.cal
  subst hcal
  dsimp only
  generalize CalendarScheduler.place e (d.buckets (d.hash e.time)).list = p at hp hv₁ hlink ⊢
  obtain ⟨l, unique, searched⟩ := p
  dsimp only at hp hv₁ hlink ⊢
  have h₁ : Spelled
      ⟨{ d.heads.link (d.hash e.time) [list] unique with
        insertSearch := d.insertSearch + searched }, links⟩
      { d.link (d.hash e.time) l unique with insertSearch := d.insertSearch + searched } := by
    have hcal : d.heads.link (d.hash e.time) [list] unique =
      (d.link (d.hash e.time) l unique).heads := hlink.cal
    refine ⟨?_, hlink.rings⟩
    dsimp only
    rw [hcal]
    rfl
  have hv₂ := hv₁.withStats { d.link (d.hash e.time) l unique with
    insertSearch := d.insertSearch + searched }
  by_cases hbig : (d.link (d.hash e.time) l unique).topThreshold <
      (d.link (d.hash e.time) l unique).statQsize
  · obtain ⟨c', r', hc, hr, hsp⟩ := h₁.resize hv₂ hs (n := d.nbuckets * 2)
      (by have := hd.four_le; omega)
    refine ⟨c', r', (if_pos hbig).trans hc, bind_eq_ok.mpr ⟨_, hp, ?_⟩, hsp⟩
    exact (if_pos hbig).trans hr
  · refine ⟨_, _, if_neg hbig, bind_eq_ok.mpr ⟨_, hp, ?_⟩, h₁⟩
    exact if_neg hbig

theorem Spelled.observeGap (h : r.Spelled c) (hv : c.Valid)
    (hs : ∀ x, 0 < x → 0 < cfg.sqrt x) (e : Event η) :
    ∃ c' r', c.observeGap cfg e = .ok c' ∧ r.observeGap cfg e = .ok r' ∧ r'.Spelled c' := by
  obtain ⟨cal, links⟩ := r
  obtain ⟨hcal, hrings⟩ := h
  dsimp only at hcal hrings
  subst hcal
  unfold CalendarScheduler.observeGap LinkedCalendar.observeGap
  unfold heads
  dsimp only
  split_ifs with hadj hlast hgap hround hmany
  · exact ⟨_, _, rfl, rfl, rfl, hrings⟩
  · exact ⟨_, _, rfl, rfl, rfl, hrings⟩
  · exact ⟨_, _, rfl, rfl, rfl, hrings⟩
  · have hq : Spelled ⟨heads { c with
          gapNum := 0, lastTime := e.time, roundNum := c.roundNum + 1
          avgGap := (e.time - c.lastTime) / (c.gapNum + 1 : ℕ) }, links⟩
        { c with
          gapNum := 0, lastTime := e.time, roundNum := c.roundNum + 1
          avgGap := (e.time - c.lastTime) / (c.gapNum + 1 : ℕ) } := ⟨rfl, hrings⟩
    have hv' := hv.withStats { c with
      gapNum := 0, lastTime := e.time, roundNum := c.roundNum + 1
      avgGap := (e.time - c.lastTime) / (c.gapNum + 1 : ℕ) }
    obtain ⟨c', r', hc, hr, hsp⟩ := hq.resize hv' hs (n := c.nbuckets)
      (by have := hv.four_le; omega)
    refine ⟨_, _, congrArg (Except.map _) hc, congrArg (Except.map _) hr, ?_, hsp.rings⟩
    dsimp only
    rw [hsp.cal]
    rfl
  · exact ⟨_, _, rfl, rfl, rfl, hrings⟩
  · exact ⟨_, _, rfl, rfl, rfl, hrings⟩

/-- An event is taken out of its ring. -/
theorem Spelled.unlink (h : r.Spelled c) (hv : c.Valid) (hi : i < c.nbuckets)
    (hl : (c.buckets i).list = as ++ e :: bs) (unique : Bool) :
    ∃ prev next, Between r.links e (bs ++ as) prev next ∧
      ∀ list, list = (as ++ bs).head? →
        (r.unlink i e prev next list unique).Spelled (c.unlink i (as ++ bs) unique) := by
  have hring := h.rings i hi
  rw [hl] at hring
  have hr : r.links.Spells (e :: (bs ++ as)) := by
    rw [← List.cons_append]
    exact hring.rotate
  obtain ⟨prev, next, hb⟩ := exists_between hr
  refine ⟨prev, next, hb, ?_⟩
  rintro list rfl
  have hnot : e ∉ as ++ bs := by
    have hd := hring.nodup
    rw [List.nodup_middle] at hd
    exact (List.nodup_cons.mp hd).1
  have hmem : ∀ x, x ∈ bs ++ as → x ∈ (c.buckets i).list := by
    intro x hx
    rw [hl]
    simp only [List.mem_append, List.mem_cons] at hx ⊢
    tauto
  -- the links of this ring and those of the others
  have hlinks : (if next = e then r.links else r.links.unlink prev e next).Spells (as ++ bs) ∧
      ∀ x, x ∉ (c.buckets i).list →
        (if next = e then r.links else r.links.unlink prev e next).next x = r.links.next x ∧
        (if next = e then r.links else r.links.unlink prev e next).prev x = r.links.prev x := by
    by_cases halone : next = e
    · have hnil := hb.alone.mp halone
      obtain ⟨rfl, rfl⟩ := List.append_eq_nil_iff.mp hnil
      rw [if_pos halone]
      exact ⟨RingLinks.spells_nil, fun _ _ => ⟨rfl, rfl⟩⟩
    · have hne : bs ++ as ≠ [] := fun hnil => halone (hb.alone.mpr hnil)
      obtain ⟨t, d, hd, ht, hs⟩ := hring.unlink (by simpa [and_comm] using hne)
      obtain rfl : d = next := Option.some.inj (hd.symm.trans hb.next_eq)
      obtain rfl : t = prev := Option.some.inj (ht.symm.trans hb.prev_eq)
      rw [if_neg halone]
      refine ⟨hs, fun x hx => RingLinks.unlink_of_ne ?_ ?_⟩
      · rintro rfl
        exact hx (hmem _ (List.mem_of_getLast? (hb.last hne)))
      · rintro rfl
        exact hx (hmem _ (List.mem_of_mem_head? (hb.head hne)))
  have he : e ∈ (c.buckets i).list := by
    rw [hl]
    simp
  constructor
  · change r.cal.unlink i _ unique = _
    rw [heads_unlink, h.cal]
  · intro j hj
    have hj : j < c.nbuckets := hj
    unfold CalendarScheduler.unlink LinkedCalendar.unlink
    dsimp only
    by_cases hij : j = i
    · rw [hij, Function.update_self]
      exact hlinks.1.clear hnot
    · rw [Function.update_of_ne hij]
      have hother := fun x hx => hlinks.2 x (notMem_bucket hv hi hj hij hx)
      refine RingLinks.Spells.clear ?_ fun hej => notMem_bucket hv hi hj hij hej he
      exact (h.rings j hj).congr (fun x hx => (hother x hx).1) fun x hx => (hother x hx).2

/-- The calendar may shrink after a removal. -/
theorem Spelled.shrink (h : r.Spelled c) (hv : c.Valid) (hs : ∀ x, 0 < x → 0 < cfg.sqrt x) :
    ∃ c' r', (if c.statQsize < c.botThreshold then c.resize cfg (c.nbuckets / 2) c.calClock
        else .ok c) = .ok c' ∧
      (if r.cal.statQsize < r.cal.botThreshold then
          r.resize cfg (r.cal.nbuckets / 2) r.cal.calClock else pure r) = .ok r' ∧
      r'.Spelled c' := by
  have hstat : r.cal.statQsize = c.statQsize := by rw [h.cal]; rfl
  have hbot : r.cal.botThreshold = c.botThreshold := by rw [h.cal]; rfl
  have hsize : r.cal.nbuckets = c.nbuckets := by rw [h.cal]; rfl
  have hclock : r.cal.calClock = c.calClock := by rw [h.cal]; rfl
  rw [hstat, hbot, hsize, hclock]
  split_ifs
  · exact h.resize hv hs (by have := hv.four_le; omega)
  · exact ⟨c, r, rfl, rfl, h⟩

theorem Spelled.removeHead {c₀ : CalendarScheduler η} (h : r.Spelled c) (hc : Served c₀ c e)
    (hs : ∀ x, 0 < x → 0 < cfg.sqrt x) :
    ∃ c' r', c.removeHead cfg e = .ok c' ∧ r.removeHead cfg e = .ok r' ∧ r'.Spelled c' := by
  obtain ⟨rest, hrest⟩ := hc.bucket
  have hv := hc.valid
  have hi : c.lastbucket < c.nbuckets := hv.lastbucket ▸ hv.hash_lt _
  have hl : (c.buckets c.lastbucket).list = [] ++ e :: rest := hrest
  obtain ⟨prev, next, hb, hsp⟩ := h.unlink hv hi hl (rest.head?.all (·.time ≠ e.time))
  rw [List.append_nil] at hb
  have hsp := hsp _ hb.head?_eq.symm
  have hlast : r.cal.lastbucket = c.lastbucket := by rw [h.cal]; rfl
  have ho := hrest ▸ hv.inOrder _ hi
  have hu : rest.head?.all (·.time ≠ e.time) = true ↔
      e.time ∉ eventTimes (rest : Multiset (Event η)) := by
    rw [Option.all_eq_true]
    refine Iff.trans ?_ (time_not_mem_iff [] rest ho).symm
    simp
  have hv' := hv.unlink hi (List.Perm.of_eq hrest) (inOrder_cons.mp ho).2 hu
  obtain ⟨c', r', hc', hr', hsp'⟩ := hsp.shrink hv' hs
  refine ⟨c', r', ?_, ?_, hsp'⟩
  · unfold CalendarScheduler.removeHead
    rw [hrest]
    exact hc'
  · unfold LinkedCalendar.removeHead
    refine bind_eq_ok.mpr ⟨next, fetch_eq_ok.mpr hb.next_eq, ?_⟩
    refine bind_eq_ok.mpr ⟨prev, fetch_eq_ok.mpr hb.prev_eq, ?_⟩
    rw [hlast, hb.unique_head]
    exact hr'

theorem Spelled.deque (h : r.Spelled c) (hv : c.Valid) (hs : ∀ x, 0 < x → 0 < cfg.sqrt x) :
    ∃ o c' r', c.deque cfg = .ok (o, c') ∧ r.deque cfg = .ok (o, r') ∧ r'.Spelled c' := by
  unfold CalendarScheduler.deque LinkedCalendar.deque
  rcases hv.head with ⟨-, hh⟩ | ⟨e, d, hh, hd⟩
  · obtain ⟨r', hr, hsp⟩ := h.head hh
    exact ⟨none, c, r', bind_eq_ok.mpr ⟨_, hh, rfl⟩, bind_eq_ok.mpr ⟨_, hr, rfl⟩, hsp⟩
  · obtain ⟨r₁, hr₁, hsp₁⟩ := h.head hh
    obtain ⟨f, r₂, hf, hr₂, hsp₂⟩ := hsp₁.observeGap hd.valid hs e
    obtain ⟨f', hf', hfd⟩ := hd.valid.observeGap hs e
    obtain rfl : f' = f := Except.ok.inj (hf'.symm.trans hf)
    have hsf : Served c f' e :=
      ⟨hfd.valid, hfd.events.trans hd.events, hfd.calClock.trans hd.calClock, hd.mem, hd.least⟩
    obtain ⟨c', r₃, hc', hr₃, hsp₃⟩ := hsp₂.removeHead hsf hs
    refine ⟨some e, c', r₃, bind_eq_ok.mpr ⟨_, hh, ?_⟩, bind_eq_ok.mpr ⟨_, hr₁, ?_⟩, hsp₃⟩
    · exact bind_eq_ok.mpr ⟨_, hf, bind_eq_ok.mpr ⟨_, hc', rfl⟩⟩
    · exact bind_eq_ok.mpr ⟨_, hr₂, bind_eq_ok.mpr ⟨_, hr₃, rfl⟩⟩

/-- No assertion of `cancel` fails for an event in the queue. -/
theorem Spelled.cancel (h : r.Spelled c) (hv : c.Valid) (he : e ∈ c.events) (hp : 0 < e.uid) :
    ∃ c' r', c.cancel e = .ok (e.negateUid, c') ∧ r.cancel e = .ok (e.negateUid, r') ∧
      r'.Spelled c' := by
  have hi := hv.hash_lt e.time
  have ho := hv.inOrder _ hi
  obtain ⟨as, bs, hl, hta, hdr⟩ := exists_split (hv.mem_iff.mp he)
  have hea : e ∉ as := fun hm =>
    absurd ((inOrder_append.mp (hl ▸ ho)).2.2 e hm e List.mem_cons_self) (lt_irrefl _)
  have herase : (c.buckets (c.hash e.time)).list.erase e = as ++ bs := by
    rw [hl, List.erase_append_right _ hea, List.erase_cons_head]
  obtain ⟨c', hc', -, -⟩ := hv.cancel he hp
  obtain ⟨prev, next, hb, hsp⟩ := h.unlink hv hi hl
    ((bs ++ as).head?.all (·.time ≠ e.time) && (bs ++ as).getLast?.all (·.time ≠ e.time))
  have hhash : r.cal.hash e.time = c.hash e.time := by rw [h.cal]; rfl
  have hlist : (if next = e then none else
      if r.list (c.hash e.time) = some e then some next else r.list (c.hash e.time)) =
        (as ++ bs).head? := by
    rw [h.list, hl]
    cases as with
    | nil =>
      have := hb.head?_eq
      rw [List.append_nil] at this
      simp [this]
    | cons a as =>
      have hne : a ≠ e := fun hae => hea (hae ▸ List.mem_cons_self)
      have hnext : next ≠ e := fun hn => by simpa using hb.alone.mp hn
      simp [hne, hnext]
  have hsp := hsp _ hlist
  have hboth := hb.unique_both
  -- the assertions of the list hold
  have hd := hc'
  unfold CalendarScheduler.cancel at hd
  rw [if_neg hp.not_ge] at hd
  dsimp only at hd
  rw [hta, hdr, herase, List.tail_cons] at hd
  generalize ((bs ++ as).head?.all (·.time ≠ e.time) &&
    (bs ++ as).getLast?.all (·.time ≠ e.time)) = unique at hsp hd hboth
  have hself : ((c.unlink (c.hash e.time) (as ++ bs) unique).buckets (c.hash e.time)).list =
      as ++ bs := by
    simp only [CalendarScheduler.unlink, Function.update_self]
  generalize c.unlink (c.hash e.time) (as ++ bs) unique = d at hsp hd hself
  split_ifs at hd with h₁ h₂ h₃ h₄
  obtain rfl := (Prod.mk.inj (Except.ok.inj hd)).2
  refine ⟨_, _, hc', ?_, hsp⟩
  unfold LinkedCalendar.cancel
  rw [if_neg hp.not_ge]
  refine bind_eq_ok.mpr ⟨prev, fetch_eq_ok.mpr hb.prev_eq, ?_⟩
  refine bind_eq_ok.mpr ⟨next, fetch_eq_ok.mpr hb.next_eq, ?_⟩
  rw [if_neg (not_not.mpr hb.next_prev), if_neg (not_not.mpr hb.prev_next), hhash, hboth]
  dsimp only
  rw [hsp.cal]
  refine (if_neg h₁).trans ((if_neg h₂).trans ((if_neg ?_).trans (if_neg ?_)))
  · rintro ⟨ha, hne⟩
    refine h₃ ⟨hb.alone.mp ha, ?_⟩
    rwa [← h.list]
  · rintro ⟨hz, hne⟩
    refine h₄ ⟨hz, ?_⟩
    rw [hself]
    intro hnil
    rw [hlist, hnil] at hne
    exact hne rfl

end Links

end LinkedCalendar

end Ns2XPass
