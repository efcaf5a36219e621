import Mathlib.Algebra.BigOperators.Group.List.Basic
import Mathlib.Algebra.Order.Group.Int
import Mathlib.Data.List.Pairwise
import Mathlib.Order.ConditionallyCompleteLattice.Basic
import Mathlib.Order.Interval.Set.Defs
import Mathlib.Tactic.Abel

/-! # Lists of intervals

A list names half-open intervals `[lo a, hi a)`. It is ordered when each ends
before the next begins, so that no two touch, and separated when in addition
none is empty. The points that the list covers then determine where a run of
covered points ends.
-/

namespace Ns2XPass

variable {ι α : Type*} [LinearOrder α] {lo hi lo' hi' : ι → α} {as bs pre mids post : List ι}
  {a b : ι} {r r' s e x : α} {c d : Set α}

structure Separated (lo hi : ι → α) (as : List ι) : Prop where
  nonempty : ∀ a ∈ as, lo a < hi a
  apart : as.Pairwise fun a b => hi a < lo b

/-- Intervals that may be empty, each of which ends before the next begins. -/
structure Ordered (lo hi : ι → α) (as : List ι) : Prop where
  le : ∀ a ∈ as, lo a ≤ hi a
  apart : as.Pairwise fun a b => hi a < lo b

theorem Separated.ordered (h : Separated lo hi as) : Ordered lo hi as :=
  ⟨fun a ha => (h.nonempty a ha).le, h.apart⟩

theorem Ordered.separated (h : Ordered lo hi as) (hn : ∀ a ∈ as, lo a < hi a) :
    Separated lo hi as := ⟨hn, h.apart⟩

/-- The points of the intervals. -/
def cover (lo hi : ι → α) (as : List ι) : Set α := {x | ∃ a ∈ as, x ∈ Set.Ico (lo a) (hi a)}

theorem mem_cover_iff : x ∈ cover lo hi as ↔ ∃ a ∈ as, lo a ≤ x ∧ x < hi a := Iff.rfl

@[simp] theorem cover_nil : cover lo hi [] = ∅ := by
  ext x; simp [mem_cover_iff]

@[simp] theorem cover_cons : cover lo hi (a :: as) = Set.Ico (lo a) (hi a) ∪ cover lo hi as := by
  ext x; simp [mem_cover_iff]

@[simp] theorem cover_append : cover lo hi (as ++ bs) = cover lo hi as ∪ cover lo hi bs := by
  induction as with
  | nil => simp
  | cons a as ih => rw [List.cons_append, cover_cons, ih, cover_cons, Set.union_assoc]

theorem cover_congr (h : ∀ a ∈ as, lo' a = lo a ∧ hi' a = hi a) :
    cover lo' hi' as = cover lo hi as := by
  ext x
  simp only [mem_cover_iff]
  constructor
  · rintro ⟨a, ha, hx⟩; exact ⟨a, ha, (h a ha).1 ▸ (h a ha).2 ▸ hx⟩
  · rintro ⟨a, ha, hx⟩; exact ⟨a, ha, by rw [(h a ha).1, (h a ha).2]; exact hx⟩

/-- Nothing is left of intervals that end by `s`. -/
theorem cover_inter_Ici_of_hi_le (h : ∀ a ∈ as, hi a ≤ s) : cover lo hi as ∩ Set.Ici s = ∅ := by
  ext x
  simp only [Set.mem_inter_iff, mem_cover_iff, Set.mem_Ici, Set.mem_empty_iff_false, iff_false]
  rintro ⟨⟨a, ha, -, hx⟩, hs⟩
  exact (hx.trans_le (h a ha)).not_ge hs

/-- Intervals that begin from `s` on are left as they are. -/
theorem cover_inter_Ici_of_le_lo (h : ∀ a ∈ as, s ≤ lo a) :
    cover lo hi as ∩ Set.Ici s = cover lo hi as := by
  rw [Set.inter_eq_left]
  rintro x ⟨a, ha, hx⟩
  exact (h a ha).trans hx.1

/-- A part of `[s, e)` is enough where the rest is there already. -/
theorem union_Ico_eq (hs : s ≤ r) (hr : r' ≤ e) (hpre : Set.Ico s r ⊆ c)
    (hpost : Set.Ico r' e ⊆ c) : c ∪ Set.Ico r r' = c ∪ Set.Ico s e := by
  ext x
  constructor
  · rintro (hx | hx)
    · exact .inl hx
    · exact .inr ⟨hs.trans hx.1, hx.2.trans_le hr⟩
  · rintro (hx | hx)
    · exact .inl hx
    · rcases lt_or_ge x r with hxr | hxr
      · exact .inl (hpre ⟨hx.1, hxr⟩)
      · rcases lt_or_ge x r' with hxr' | hxr'
        · exact .inr ⟨hxr, hxr'⟩
        · exact .inl (hpost ⟨hxr', hx.2⟩)

theorem Ico_subset_cover (ha : a ∈ as) (hs : lo a ≤ s) (he : e ≤ hi a) :
    Set.Ico s e ⊆ cover lo hi as := fun _ hx => ⟨a, ha, hs.trans hx.1, hx.2.trans_le he⟩

theorem separated_nil : Separated lo hi [] := ⟨by simp, .nil⟩

theorem ordered_cons :
    Ordered lo hi (a :: as) ↔ lo a ≤ hi a ∧ (∀ b ∈ as, hi a < lo b) ∧ Ordered lo hi as := by
  constructor
  · rintro ⟨hn, hp⟩
    obtain ⟨ha, hp⟩ := List.pairwise_cons.mp hp
    exact ⟨hn a List.mem_cons_self, ha, fun b hb => hn b (List.mem_cons_of_mem a hb), hp⟩
  · rintro ⟨ha, hb, hn, hp⟩
    exact ⟨List.forall_mem_cons.mpr ⟨ha, hn⟩, List.pairwise_cons.mpr ⟨hb, hp⟩⟩

theorem ordered_append :
    Ordered lo hi (as ++ bs) ↔
      Ordered lo hi as ∧ Ordered lo hi bs ∧ ∀ a ∈ as, ∀ b ∈ bs, hi a < lo b := by
  constructor
  · rintro ⟨hn, hp⟩
    obtain ⟨ha, hb, hab⟩ := List.pairwise_append.mp hp
    obtain ⟨hna, hnb⟩ := List.forall_mem_append.mp hn
    exact ⟨⟨hna, ha⟩, ⟨hnb, hb⟩, hab⟩
  · rintro ⟨⟨hna, ha⟩, ⟨hnb, hb⟩, hab⟩
    exact ⟨List.forall_mem_append.mpr ⟨hna, hnb⟩, List.pairwise_append.mpr ⟨ha, hb, hab⟩⟩

namespace Ordered

variable (h : Ordered lo hi as)
include h

theorem congr (he : ∀ a ∈ as, lo' a = lo a ∧ hi' a = hi a) : Ordered lo' hi' as where
  le a ha := by rw [(he a ha).1, (he a ha).2]; exact h.le a ha
  apart := h.apart.imp_of_mem fun ha hb hab => by rwa [(he _ ha).2, (he _ hb).1]

theorem sublist (hs : bs.Sublist as) : Ordered lo hi bs :=
  ⟨fun a ha => h.le a (hs.subset ha), h.apart.sublist hs⟩

theorem eq_or_lt (ha : a ∈ as) (hb : b ∈ as) : a = b ∨ hi a < lo b ∨ hi b < lo a := by
  have hs : as.Pairwise fun a b => hi a < lo b ∨ hi b < lo a := h.apart.imp Or.inl
  have : Std.Symm fun a b => hi a < lo b ∨ hi b < lo a := ⟨fun _ _ => Or.symm⟩
  by_cases hab : a = b
  · exact .inl hab
  · exact .inr (hs.forall ha hb hab)

/-- The end of an interval lies in no other interval. -/
theorem hi_notMem_cover (ha : a ∈ as) : hi a ∉ cover lo hi as := by
  rintro ⟨b, hb, hlo, hhi⟩
  rcases h.eq_or_lt ha hb with rfl | hab | hba
  · exact lt_irrefl _ hhi
  · exact hlo.not_gt hab
  · exact lt_asymm hhi (hba.trans_le (h.le a ha))

/-- What is covered from a point on that an interval reaches lies before its end. -/
theorem le_hi_of_Ico_subset (ha : a ∈ as) (hs : s ≤ hi a) (hc : Set.Ico s e ⊆ cover lo hi as) :
    e ≤ hi a := by
  by_contra hlt
  exact h.hi_notMem_cover ha (hc ⟨hs, not_le.mp hlt⟩)

/-- What is covered up to a point that an interval begins by lies behind its beginning. -/
theorem lo_le_of_Ico_subset (ha : a ∈ as) (he : lo a ≤ e) (hc : Set.Ico s e ⊆ cover lo hi as) :
    lo a ≤ s := by
  by_contra hlt
  rw [not_le] at hlt
  obtain ⟨b, hb, hlo, hhi⟩ := hc ⟨le_rfl, hlt.trans_le he⟩
  rcases h.eq_or_lt ha hb with rfl | hab | hba
  · exact hlt.not_ge hlo
  · exact hlt.not_ge ((h.le a ha).trans (hab.le.trans hlo))
  · exact h.hi_notMem_cover hb (hc ⟨hhi.le, hba.trans_le he⟩)

/-- Intervals that end by `s` end before `s` when the last one does not reach it. -/
theorem hi_lt_of_getLast? (hs : ∀ a ∈ as, hi a ≤ s) (hne : ∀ a ∈ as.getLast?, hi a ≠ s) :
    ∀ a ∈ as, hi a < s := by
  rcases List.eq_nil_or_concat as with rfl | ⟨as, b, rfl⟩
  · exact fun a ha => absurd ha List.not_mem_nil
  · rw [List.concat_eq_append] at h hs hne
    obtain ⟨-, hb, hab⟩ := ordered_append.mp h
    have hbs : hi b < s := lt_of_le_of_ne (hs b (by simp)) (hne b (by simp))
    rintro a ha
    rcases List.mem_append.mp (List.concat_eq_append ▸ ha) with ha | ha
    · exact (hab a ha b (by simp)).trans ((hb.le b (by simp)).trans_lt hbs)
    · rwa [List.mem_singleton.mp ha]

/-- Intervals that begin from `e` on begin after `e` when the first one does not touch it. -/
theorem lt_lo_of_head? (he : ∀ a ∈ as, e ≤ lo a) (hne : ∀ a ∈ as.head?, lo a ≠ e) :
    ∀ a ∈ as, e < lo a := by
  cases as with
  | nil => exact fun a ha => absurd ha List.not_mem_nil
  | cons b as =>
    obtain ⟨hb, hlt, -⟩ := ordered_cons.mp h
    have heb : e < lo b := lt_of_le_of_ne (he b (by simp)) (hne b rfl).symm
    exact List.forall_mem_cons.mpr ⟨heb, fun a ha => heb.trans (hb.trans_lt (hlt a ha))⟩

/-- Some intervals end before `s`, some meet `[s, e)`, and the others begin after `e`. -/
theorem exists_split (s e : α) :
    ∃ pre mid post, as = pre ++ mid ++ post ∧ (∀ a ∈ pre, hi a ≤ s) ∧
      (∀ a ∈ mid, s < hi a ∧ lo a < e) ∧ ∀ a ∈ post, e ≤ lo a := by
  induction as with
  | nil => exact ⟨[], [], [], rfl, by simp, by simp, by simp⟩
  | cons a as ih =>
    obtain ⟨ha, hlt, has⟩ := ordered_cons.mp h
    by_cases hs : hi a ≤ s
    · obtain ⟨pre, mid, post, rfl, hpre, hmid, hpost⟩ := ih has
      exact ⟨a :: pre, mid, post, rfl, List.forall_mem_cons.mpr ⟨hs, hpre⟩, hmid, hpost⟩
    · by_cases he : e ≤ lo a
      · refine ⟨[], [], a :: as, rfl, by simp, by simp, List.forall_mem_cons.mpr ⟨he, ?_⟩⟩
        exact fun b hb => he.trans (ha.trans (hlt b hb).le)
      · obtain ⟨pre, mid, post, rfl, hpre, hmid, hpost⟩ := ih has
        have hnil : pre = [] := List.eq_nil_iff_forall_not_mem.mpr fun b hb => by
          have hb' : b ∈ pre ++ mid ++ post := by simp [hb]
          exact hs ((hlt b hb').le.trans ((has.le b hb').trans (hpre b hb)))
        subst hnil
        exact ⟨[], a :: mid, post, rfl, by simp,
          List.forall_mem_cons.mpr ⟨⟨not_le.mp hs, not_le.mp he⟩, hmid⟩, hpost⟩

/-- Some intervals begin before `s`, and the others from `s` on. -/
theorem exists_start (s : α) :
    ∃ pre post, as = pre ++ post ∧ (∀ a ∈ pre, lo a < s) ∧ ∀ a ∈ post, s ≤ lo a := by
  induction as with
  | nil => exact ⟨[], [], rfl, by simp, by simp⟩
  | cons a as ih =>
    obtain ⟨ha, hlt, has⟩ := ordered_cons.mp h
    rcases lt_or_ge (lo a) s with hs | hs
    · obtain ⟨pre, post, rfl, hpre, hpost⟩ := ih has
      exact ⟨a :: pre, post, rfl, List.forall_mem_cons.mpr ⟨hs, hpre⟩, hpost⟩
    · exact ⟨[], a :: as, rfl, by simp,
        List.forall_mem_cons.mpr ⟨hs, fun b hb => hs.trans (ha.trans (hlt b hb).le)⟩⟩

/-- The intervals before a range, those that touch it, and those behind it. -/
theorem eq_filters (hse : s ≤ e) :
    as.filter (fun a => hi a < s) ++ as.filter (fun a => s ≤ hi a ∧ lo a ≤ e) ++
      as.filter (fun a => e < lo a) = as := by
  induction as with
  | nil => rfl
  | cons a as ih =>
    obtain ⟨ha, hlt, has⟩ := ordered_cons.mp h
    by_cases hs : hi a < s
    · have hlo : ¬ e < lo a := not_lt.mpr (ha.trans (hs.le.trans hse))
      rw [List.filter_cons_of_pos (by simpa using hs),
        List.filter_cons_of_neg (by simpa using fun h => absurd hs h.not_gt),
        List.filter_cons_of_neg (by simpa using hlo), List.cons_append, List.cons_append, ih has]
    · rw [not_lt] at hs
      have hnil : (a :: as).filter (fun a => hi a < s) = [] := by
        refine List.filter_eq_nil_iff.mpr fun b hb => ?_
        rcases List.mem_cons.mp hb with rfl | hb
        · simpa using hs
        · simpa using hs.trans ((hlt b hb).le.trans (has.le b hb))
      have hnil' : as.filter (fun a => hi a < s) = [] :=
        List.filter_eq_nil_iff.mpr fun b hb => by
          simpa using hs.trans ((hlt b hb).le.trans (has.le b hb))
      have ih := ih has
      rw [hnil', List.nil_append] at ih
      rw [hnil, List.nil_append]
      by_cases he : lo a ≤ e
      · rw [List.filter_cons_of_pos (by simpa using ⟨hs, he⟩),
          List.filter_cons_of_neg (by simpa using he), List.cons_append, ih]
      · rw [not_le] at he
        have hbehind : ∀ b ∈ a :: as, e < lo b :=
          List.forall_mem_cons.mpr ⟨he, fun b hb => he.trans (ha.trans_lt (hlt b hb))⟩
        rw [List.filter_eq_nil_iff.mpr fun b hb => by simpa using fun _ => hbehind b hb,
          List.nil_append, List.filter_eq_self.mpr fun b hb => by simpa using hbehind b hb]

/-- Of the intervals that meet `[s, e)` and do not lie in it, the first hangs over on the left
and the second on the right. -/
theorem overhang (hmid : ∀ a ∈ as, s < hi a ∧ lo a < e) (hout : ∀ a ∈ as, lo a < s ∨ e < hi a) :
    as = [] ∨ (∃ a, as = [a]) ∨ ∃ a b, as = [a, b] ∧ lo a < s ∧ e < hi b := by
  match as with
  | [] => exact .inl rfl
  | [a] => exact .inr (.inl ⟨a, rfl⟩)
  | a :: b :: as =>
    obtain ⟨-, hab, hb⟩ := ordered_cons.mp h
    obtain ⟨-, hbc, -⟩ := ordered_cons.mp hb
    have hab := hab b List.mem_cons_self
    have ha := hmid a (by simp)
    have hb := hmid b (by simp)
    have hla : lo a < s := (hout a (by simp)).resolve_right (hab.trans hb.2).not_gt
    have hhb : e < hi b := (hout b (by simp)).resolve_left (ha.1.trans hab).not_gt
    have hnil : as = [] := List.eq_nil_iff_forall_not_mem.mpr fun c hc =>
      lt_asymm (hhb.trans (hbc c hc)) (hmid c (by simp [hc])).2
    subst hnil
    exact .inr (.inr ⟨a, b, rfl, hla, hhb⟩)

end Ordered

section Replace

variable (hsame : ∀ x ∈ pre ++ post, lo' x = lo x ∧ hi' x = hi x)
include hsame

theorem Ordered.replace (h : Ordered lo hi (pre ++ mids ++ post)) (ha : lo' a ≤ hi' a)
    (hpre : ∀ x ∈ pre, hi x < lo' a) (hpost : ∀ y ∈ post, hi' a < lo y) :
    Ordered lo' hi' (pre ++ a :: post) := by
  obtain ⟨hsp, hsq⟩ := List.forall_mem_append.mp hsame
  obtain ⟨hpm, hq, hpq⟩ := ordered_append.mp h
  obtain ⟨hp, -, -⟩ := ordered_append.mp hpm
  refine ordered_append.mpr ⟨hp.congr hsp, ordered_cons.mpr ⟨ha, ?_, hq.congr hsq⟩, ?_⟩
  · rintro y hy
    rw [(hsq y hy).1]
    exact hpost y hy
  · rintro x hx
    rw [(hsp x hx).2]
    refine List.forall_mem_cons.mpr ⟨hpre x hx, fun y hy => ?_⟩
    rw [(hsq y hy).1]
    exact hpq x (List.mem_append_left mids hx) y hy

theorem cover_replace (ha : Set.Ico (lo' a) (hi' a) = cover lo hi mids ∪ c) :
    cover lo' hi' (pre ++ a :: post) = cover lo hi (pre ++ mids ++ post) ∪ c := by
  obtain ⟨hsp, hsq⟩ := List.forall_mem_append.mp hsame
  rw [cover_append, cover_cons, cover_congr hsp, cover_congr hsq, ha, cover_append, cover_append]
  ext x
  simp only [Set.mem_union]
  tauto

end Replace

section Extent

variable [AddCommGroup α]

/-- The sum of the lengths of the intervals. -/
def extent (lo hi : ι → α) (as : List ι) : α := (as.map fun a => hi a - lo a).sum

omit [LinearOrder α] in
@[simp] theorem extent_nil : extent lo hi [] = 0 := rfl

omit [LinearOrder α] in
@[simp] theorem extent_cons : extent lo hi (a :: as) = hi a - lo a + extent lo hi as :=
  List.sum_cons

omit [LinearOrder α] in
@[simp] theorem extent_append : extent lo hi (as ++ bs) = extent lo hi as + extent lo hi bs := by
  rw [extent, List.map_append, List.sum_append]
  rfl

omit [LinearOrder α] in
theorem extent_congr (h : ∀ a ∈ as, lo' a = lo a ∧ hi' a = hi a) :
    extent lo' hi' as = extent lo hi as := by
  unfold extent
  congr 1
  exact List.map_congr_left fun a ha => by rw [(h a ha).1, (h a ha).2]

omit [LinearOrder α] in
theorem extent_replace (mids : List ι) (hsame : ∀ x ∈ pre ++ post, lo' x = lo x ∧ hi' x = hi x) :
    extent lo' hi' (pre ++ a :: post) =
      extent lo hi (pre ++ mids ++ post) - extent lo hi mids + (hi' a - lo' a) := by
  obtain ⟨hsp, hsq⟩ := List.forall_mem_append.mp hsame
  rw [extent_append, extent_cons, extent_congr hsp, extent_congr hsq, extent_append,
    extent_append]
  abel

end Extent

section Runs

/-- The points below `r` reach up to `r`, which itself is missing. -/
def ContiguousTo (c : Set α) (r : α) : Prop := r ∉ c ∧ ∀ x ∈ c, x < r → Set.Ico x r ⊆ c

theorem contiguousTo_empty : ContiguousTo ∅ r := ⟨Set.notMem_empty r, by simp⟩

theorem isLeast_self (hr : r ∉ c) : IsLeast {x | r ≤ x ∧ x ∉ c} r :=
  ⟨⟨le_rfl, hr⟩, fun _ hx => hx.1⟩

namespace ContiguousTo

variable (h : ContiguousTo c r)
include h

/-- Nothing changes below `r` when points beyond it are removed. -/
theorem subset (hd : d ⊆ c) (hlt : ∀ x ∈ c, x < r → x ∈ d) : ContiguousTo d r :=
  ⟨fun hm => h.1 (hd hm), fun x hx hxr y hy => hlt y (h.2 x (hd hx) hxr hy) hy.2⟩

theorem inter_Ici : ContiguousTo (c ∩ Set.Ici s) r :=
  ⟨fun hm => h.1 hm.1, fun x hx hxr _ hy => ⟨h.2 x hx.1 hxr hy, le_trans hx.2 hy.1⟩⟩

/-- When points from `r` on are added, the points reach up to the first that is missing. -/
theorem union (hd : ∀ x ∈ d, r ≤ x) (hr : IsLeast {x | r ≤ x ∧ x ∉ c ∪ d} r') :
    ContiguousTo (c ∪ d) r' := by
  have hmem : ∀ y, r ≤ y → y < r' → y ∈ c ∪ d := fun y hy hyr => by
    by_contra hn
    exact (hr.2 ⟨hy, hn⟩).not_gt hyr
  refine ⟨hr.1.2, fun x hx hxr y hy => ?_⟩
  rcases le_or_gt r y with hry | hyr
  · exact hmem y hry hy.2
  · have hxr' : x < r := hy.1.trans_lt hyr
    have hxc : x ∈ c := hx.resolve_right fun hxd => (hd x hxd).not_gt hxr'
    exact .inl (h.2 x hxc hxr' ⟨hy.1, hyr⟩)

end ContiguousTo

/-- Up to the end of an interval, there is nothing missing from any of its points on. -/
theorem Ordered.isLeast_hi (h : Ordered lo hi as) (ha : a ∈ as) (hlo : lo a ≤ r)
    (hhi : r ≤ hi a) : IsLeast {x | r ≤ x ∧ x ∉ cover lo hi as} (hi a) := by
  refine ⟨⟨hhi, h.hi_notMem_cover ha⟩, fun x hx => ?_⟩
  by_contra hlt
  exact hx.2 ⟨a, ha, hlo.trans hx.1, not_le.mp hlt⟩

/-- The run from `r` on, after `[s, e)` has been added and lies in the interval `a`. -/
theorem Ordered.isLeast_of_mem (h : Ordered lo hi as) (ha : a ∈ as)
    (hs : s ∈ Set.Ico (lo a) (hi a)) (hc : cover lo hi as = c ∪ Set.Ico s e) (hr : r ∉ c)
    (hrs : r ≤ s) :
    IsLeast {x | r ≤ x ∧ x ∉ cover lo hi as} (if lo a ≤ r then hi a else r) := by
  split_ifs with hlo
  · exact h.isLeast_hi ha hlo (hrs.trans_lt hs.2).le
  · apply isLeast_self
    rw [hc]
    rintro (hm | hm)
    · exact hr hm
    · exact hlo (hs.1.trans hm.1)

/-- The run from `r` on, read off the first interval after `[s, e)` has been added. -/
theorem Ordered.isLeast_head (h : Ordered lo hi (a :: as)) (hne : lo a < hi a)
    (hc : cover lo hi (a :: as) = c ∪ Set.Ico s e) (hr : ContiguousTo c r) (hrs : r ≤ s) :
    IsLeast {x | r ≤ x ∧ x ∉ cover lo hi (a :: as)} (if lo a ≤ r then hi a else r) := by
  obtain ⟨-, hlt, has⟩ := ordered_cons.mp h
  split_ifs with hlo
  · refine h.isLeast_hi List.mem_cons_self hlo ?_
    have hmem : lo a ∈ c ∪ Set.Ico s e := hc ▸ ⟨a, List.mem_cons_self, le_rfl, hne⟩
    by_contra hgt
    rw [not_le] at hgt
    rcases hmem with hm | hm
    · have hhi : hi a ∈ c := hr.2 _ hm (hne.trans hgt) ⟨hne.le, hgt⟩
      exact h.hi_notMem_cover List.mem_cons_self (hc ▸ Or.inl hhi)
    · exact (hne.trans hgt).not_ge (hrs.trans hm.1)
  · apply isLeast_self
    rintro ⟨b, hb, hm, -⟩
    rcases List.mem_cons.mp hb with rfl | hb
    · exact hlo hm
    · exact hlo ((hne.trans (hlt b hb)).le.trans hm)

end Runs

end Ns2XPass
